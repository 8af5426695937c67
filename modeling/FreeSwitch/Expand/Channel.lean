import FreeSwitch.Event.Dup
import FreeSwitch.Expand.Tokens

/-!
# Expansion of channel variables — `switch_channel_expand_variables_check`

A list of permissions stands between the variables and the text: a value that the list denies is
replaced by a notice before anything else is done with it. But the list is asked only about
variables that are there.

* **`shownVariable`** — what is left of a lookup behind the list; all that the expansion reads.
* **`channel_expansion_boundary`** — two stores whose denied names are found in the same cases give
  the same text; and where a name can be written down, only they do.
-/

namespace FreeSwitch.Expand

open CString Event

/-! ## The code -/

def switchEventGetHeaderIdx (ev : SwitchEvent) (name : Str) (idx : Int) : Option Str :=
  match switchEventGetHeaderPtr ev name with
  | some hp => if -1 < idx then hp.array[idx.toNat]? else hp.value
  | none => if name = bytes "_body" then ev.body else none

def switchEventGetHeader (ev : SwitchEvent) (name : Str) : Option Str :=
  switchEventGetHeaderIdx ev name (-1)

/-- `EF_DEFAULT_ALLOW` is bit 2. -/
def defaultAllow (list : SwitchEvent) : Bool := list.flags &&& 4 != 0

def switchEventCheckPermissionList (list : Option SwitchEvent) (name : Str) : Bool :=
  match list with
  | none => true
  | some list =>
    if list.headers = [] then defaultAllow list
    else
      match switchEventGetHeader list name with
      | some v => v.head? ≠ some 100
      | none => defaultAllow list

/-- The API calls: whether `SCF_API_EXPANSION` is set, the list of permissions, and what a call
returns in the state `σ`. -/
structure Api (σ : Type) where
  expansion : Bool
  list : Option SwitchEvent
  execute : σ → Str → Str → Option Str

def Api.call {σ : Type} (api : Api σ) (denied : Str) (state : σ) (vname vval : Str) : Str :=
  if ¬ api.expansion ∨ ¬ switchEventCheckPermissionList api.list vname then denied
  else (api.execute state vname vval).getD []

/-- The variables of a channel. -/
structure Variables where
  scopes : List SwitchEvent
  vars : Option SwitchEvent

/-- A caller profile: what `switch_caller_get_field_by_name` finds in it, and in the profiles of the
other legs. -/
structure Profile where
  field : Str → Option Str
  originator : Option (Str → Option Str)
  originatee : Option (Str → Option Str)

/-- Where a lookup goes on behind the variables. -/
structure Surroundings where
  profile : Option Profile
  globalVars : SwitchEvent

def variableIdx (store : Variables) (name : Str) (idx : Int) : Option Str :=
  (store.scopes.findSome? fun ev => switchEventGetHeaderIdx ev name idx).or
    (store.vars.bind fun ev => switchEventGetHeaderIdx ev name idx)

/-- The fields of the caller, then the global variables; both under the name without its leg. -/
def surroundingValue (env : Surroundings) (name : Str) : Option Str :=
  let (fields, name) : Option (Str → Option Str) × Str :=
    match env.profile with
    | none => (none, name)
    | some cp =>
      if bytes "aleg_" <+: name then (cp.originator, name.drop 5)
      else if bytes "bleg_" <+: name then (cp.originatee, name.drop 5)
      else (some cp.field, name)
  (fields.bind fun field => field name).or (switchEventGetHeader env.globalVars name)

def switchChannelGetVariableDup (env : Surroundings) (store : Variables) (name : Str) (idx : Int) :
    Option Str :=
  if name = [] then none else (variableIdx store name idx).or (surroundingValue env name)

def variableDenied : Str := bytes "<Variable Expansion Permission Denied>"

theorem expand_variableDenied (ex : Expander) (depth : Nat) :
    expand ex depth variableDenied = some variableDenied :=
  expand_of_plain ex depth (by decide +kernel)

/-- A positive offset behind the end gives nothing. -/
def channelSlice (s : Str) (offset ooffset : Int) : Str :=
  cutLength (if 0 ≤ offset then s.drop offset.toNat else fromEnd s offset) ooffset

section

variable (env : Surroundings) (list : Option SwitchEvent) (api : Api Variables) (store : Variables)

def channelExpander : Expander where
  value expand _ inside :=
    (expand inside).bind fun vname =>
      let sub := parseName vname
      match switchChannelGetVariableDup env store sub.name sub.idx with
      | none => some []
      | some subVal =>
        let subVal :=
          if switchEventCheckPermissionList list sub.name then subVal else variableDenied
        (expand subVal).map fun subVal => channelSlice subVal sub.offset sub.ooffset
  api := api.call (bytes "<API Execute Permission Denied>") store

/-- Calls with `recur` above 100 give the text back. -/
def switchChannelExpandVariablesCheck (text : Str) (recur : Nat) : Option Str :=
  expand (channelExpander env list api store) (101 - recur) text

end

/-! ## What the expansion reads -/

section

variable {env : Surroundings} {list : Option SwitchEvent} {api : Api Variables}

/-- A lookup as it comes through the list. -/
def shownVariable (env : Surroundings) (list : Option SwitchEvent) (store : Variables) (name : Str)
    (idx : Int) : Option Str :=
  (switchChannelGetVariableDup env store name idx).map fun value =>
    if switchEventCheckPermissionList list name then value else variableDenied

theorem channel_value (store : Variables) (f : Str → Option Str) (global : Bool) (inside : Str) :
    (channelExpander env list api store).value f global inside = (f inside).bind fun vname =>
          match shownVariable env list store (parseName vname).name (parseName vname).idx with
          | none => some []
          | some subVal => (f subVal).map fun subVal =>
            channelSlice subVal (parseName vname).offset (parseName vname).ooffset := by
  show (f inside).bind _ = (f inside).bind _
  refine congrArg (Option.bind (f inside)) (funext fun vname => ?_)
  unfold shownVariable
  dsimp only
  cases switchChannelGetVariableDup env store (parseName vname).name (parseName vname).idx with
  | none => rfl
  | some value => rfl

theorem channel_isSome (store : Variables) (text : Str) (recur : Nat) :
    (switchChannelExpandVariablesCheck env list api store text recur).isSome := by
  refine expand_isSome (fun f hf global inside => ?_) _ text
  rw [channel_value]
  obtain ⟨vname, hvname⟩ := Option.isSome_iff_exists.mp (hf inside)
  rw [hvname, Option.bind_some]
  split
  · rfl
  · rename_i subVal _
    obtain ⟨out, hout⟩ := Option.isSome_iff_exists.mp (hf subVal)
    rw [hout]
    rfl

/-- With the calls switched off, stores that show the same cannot be told apart. -/
theorem channel_eq_of_shown (hapi : api.expansion = false) {s₁ s₂ : Variables}
    (h : shownVariable env list s₁ = shownVariable env list s₂) (text : Str) (recur : Nat) :
    switchChannelExpandVariablesCheck env list api s₁ text recur
      = switchChannelExpandVariablesCheck env list api s₂ text recur := by
  refine expand_congr ?_ (fun depth global inside => ?_) _ text
  · funext vname vval
    simp [channelExpander, Api.call, hapi]
  · rw [channel_value, channel_value, h]

/-! ## The boundary -/

/-- The same names, and the same values under every name that the list permits. -/
structure Agree (list : Option SwitchEvent) (s₁ s₂ : Variables) : Prop where
  names : ∀ name, (variableIdx s₁ name (-1)).isSome = (variableIdx s₂ name (-1)).isSome
  values : ∀ name, switchEventCheckPermissionList list name = true →
    ∀ idx, variableIdx s₁ name idx = variableIdx s₂ name idx

/-- A denied name is found in both stores or in neither, under every index. -/
def FoundAlike (env : Surroundings) (list : Option SwitchEvent) (s₁ s₂ : Variables) : Prop :=
  ∀ name, switchEventCheckPermissionList list name = false → ∀ idx,
    (switchChannelGetVariableDup env s₁ name idx).isSome
      = (switchChannelGetVariableDup env s₂ name idx).isSome

theorem shown_eq {s₁ s₂ : Variables} (h : Agree list s₁ s₂) (hfound : FoundAlike env list s₁ s₂) :
    shownVariable env list s₁ = shownVariable env list s₂ := by
  funext name idx
  unfold shownVariable
  cases hpermitted : switchEventCheckPermissionList list name with
  | true =>
    have hsame : switchChannelGetVariableDup env s₁ name idx
        = switchChannelGetVariableDup env s₂ name idx := by
      unfold switchChannelGetVariableDup
      rw [h.values name hpermitted idx]
    rw [hsame]
  | false =>
    have hsame := hfound name hpermitted idx
    cases h₁ : switchChannelGetVariableDup env s₁ name idx with
    | none =>
      rw [h₁] at hsame
      have h₂ : switchChannelGetVariableDup env s₂ name idx = none := by simpa using hsame.symm
      rw [h₂]
    | some v₁ =>
      rw [h₁] at hsame
      obtain ⟨v₂, h₂⟩ := Option.isSome_iff_exists.mp hsame.symm
      rw [h₂]
      rfl

/-- A denied variable that is written down with its index: the notice, or nothing. -/
theorem expand_denied (store : Variables) {name index : Str} (hname : Literal name)
    (hindex : Literal index) (hdenied : switchEventCheckPermissionList list name = false) :
    switchChannelExpandVariablesCheck env list api store (written name index) 0
      = some (if (switchChannelGetVariableDup env store name (atoi (index ++ [93]))).isSome then
          variableDenied else []) := by
  unfold switchChannelExpandVariablesCheck
  rw [expand_written _ 100 hname hindex, channel_value, expand_content _ 100 hname hindex,
    Option.bind_some, parseName_written hname hindex]
  unfold shownVariable
  cases switchChannelGetVariableDup env store name (atoi (index ++ [93])) with
  | none => rfl
  | some value =>
    rw [hdenied]
    exact congrArg (Option.map fun subVal => channelSlice subVal 0 0) (expand_variableDenied _ 100)

/-- For every two stores of the channel that agree on what the list permits, with the calls switched
off: if the denied names are found alike, the texts are equal; and for a name that can be written in
braces with its index, the texts are equal only then. -/
theorem channel_expansion_boundary (hapi : api.expansion = false) {s₁ s₂ : Variables}
    (h : Agree list s₁ s₂) :
    (FoundAlike env list s₁ s₂ → ∀ text recur, ∃ out,
      switchChannelExpandVariablesCheck env list api s₁ text recur = some out
        ∧ switchChannelExpandVariablesCheck env list api s₂ text recur = some out)
      ∧ ∀ name index, Literal name → Literal index →
        switchEventCheckPermissionList list name = false →
        (switchChannelExpandVariablesCheck env list api s₁ (written name index) 0
            = switchChannelExpandVariablesCheck env list api s₂ (written name index) 0
          ↔ (switchChannelGetVariableDup env s₁ name (atoi (index ++ [93]))).isSome
            = (switchChannelGetVariableDup env s₂ name (atoi (index ++ [93]))).isSome) := by
  refine ⟨fun hfound text recur => ?_, fun name index hname hindex hdenied => ?_⟩
  · obtain ⟨out, hout⟩ := Option.isSome_iff_exists.mp
      (@channel_isSome env list api s₁ text recur)
    refine ⟨out, hout, ?_⟩
    rw [← hout]
    exact (channel_eq_of_shown hapi (shown_eq h hfound) text recur).symm
  · rw [expand_denied s₁ hname hindex hdenied, expand_denied s₂ hname hindex hdenied]
    have hne : variableDenied ≠ [] := by decide
    cases (switchChannelGetVariableDup env s₁ name (atoi (index ++ [93]))).isSome <;>
      cases (switchChannelGetVariableDup env s₂ name (atoi (index ++ [93]))).isSome <;>
      simp [hne, hne.symm]

end

/-! ## A denied variable -/

/-- An event with one header. -/
def oneHeader (flags : UInt32) (name value : Str) (array : List Str) : SwitchEvent :=
  { blankEvent with
    flags, headers := [⟨0, name, some value, array, switchCiHashfuncDefault name⟩],
    lastHeader := some 0, fresh := 1 }

theorem getHeaderIdx_oneHeader (flags : UInt32) (name value : Str) (array : List Str)
    (other : Str) (idx : Int) :
    switchEventGetHeaderIdx (oneHeader flags name value array) other idx
      = if ciEq name other then (if -1 < idx then array[idx.toNat]? else some value) else none := by
  have hnamed : named other ⟨0, name, some value, array, switchCiHashfuncDefault name⟩
      ↔ ciEq name other := named_iff rfl
  unfold switchEventGetHeaderIdx switchEventGetHeaderPtr oneHeader
  by_cases hci : ciEq name other
  · simp [hnamed, hci]
  · simp [hnamed, hci, blankEvent]

/-- Everything but `secret` is permitted. -/
def denySecret : Option SwitchEvent := some (oneHeader 4 (bytes "secret") (bytes "deny") [])

theorem permitted_iff (name : Str) :
    switchEventCheckPermissionList denySecret name = true ↔ ¬ ciEq (bytes "secret") name := by
  have hne : (oneHeader 4 (bytes "secret") (bytes "deny") []).headers ≠ [] := List.cons_ne_nil _ _
  simp only [denySecret, switchEventCheckPermissionList, if_neg hne, switchEventGetHeader,
    getHeaderIdx_oneHeader]
  by_cases hci : ciEq (bytes "secret") name
  · simp only [hci, if_true]
    decide
  · simp only [hci, if_false]
    decide

/-- A channel with the variable `secret`. -/
def secretVars (value : Str) (array : List Str) : Variables :=
  ⟨[], some (oneHeader 0 (bytes "secret") value array)⟩

theorem variableIdx_secret (value : Str) (array : List Str) (name : Str) (idx : Int) :
    variableIdx (secretVars value array) name idx
      = if ciEq (bytes "secret") name then (if -1 < idx then array[idx.toNat]? else some value)
        else none :=
  getHeaderIdx_oneHeader 0 (bytes "secret") value array name idx

theorem secret_agree (v₁ v₂ : Str) (a₁ a₂ : List Str) :
    Agree denySecret (secretVars v₁ a₁) (secretVars v₂ a₂) := by
  refine ⟨fun name => ?_, fun name hpermitted idx => ?_⟩
  · rw [variableIdx_secret, variableIdx_secret]
    split <;> rfl
  · have hother := (permitted_iff name).mp hpermitted
    rw [variableIdx_secret, variableIdx_secret, if_neg hother, if_neg hother]

/-- Neither a caller nor global variables. -/
def bare : Surroundings := ⟨none, blankEvent⟩

def noApi : Api Variables := ⟨false, none, fun _ _ _ => none⟩

/-- A name with an offset is denied like the name alone, whatever the value is. -/
theorem secret_hidden :
    ∃ out,
      switchChannelExpandVariablesCheck bare denySecret noApi (secretVars (bytes "x") [])
          (bytes "a$\x7bsecret:2\x7db") 0 = some out
        ∧ switchChannelExpandVariablesCheck bare denySecret noApi (secretVars (bytes "yz") [])
          (bytes "a$\x7bsecret:2\x7db") 0 = some out := by
  refine (channel_expansion_boundary (show noApi.expansion = false from rfl)
    (secret_agree (bytes "x") (bytes "yz") [] [])).1 ?_ _ 0
  intro name _ idx
  unfold switchChannelGetVariableDup
  rw [variableIdx_secret, variableIdx_secret]
  by_cases hci : ciEq (bytes "secret") name
  · by_cases hidx : -1 < idx
    · simp only [hci, hidx, if_true, List.getElem?_nil]
    · simp only [hci, hidx, if_true, if_false]
      split <;> rfl
  · simp only [hci, if_false]

/-- The second element of `secret` is denied where there is one, and nothing where there is not. -/
theorem secret_length_seen :
    Agree denySecret (secretVars (bytes "x") [])
      (secretVars (bytes "ARRAY::x|:y") [bytes "x", bytes "y"])
      ∧ switchChannelExpandVariablesCheck bare denySecret noApi (secretVars (bytes "x") [])
          (bytes "$\x7bsecret[1]\x7d") 0 = some []
      ∧ switchChannelExpandVariablesCheck bare denySecret noApi
          (secretVars (bytes "ARRAY::x|:y") [bytes "x", bytes "y"]) (bytes "$\x7bsecret[1]\x7d") 0
        = some variableDenied :=
  ⟨secret_agree _ _ _ _, by decide +kernel, by decide +kernel⟩

end FreeSwitch.Expand
