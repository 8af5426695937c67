import FreeSwitch.Expand.Channel

/-!
# Expansion of event headers — `switch_event_expand_headers_check`

The copy of the channel's routine for events. A name is looked for among the headers first, and only
if it is not there the list of permissions is asked, about a global variable. So the list does not
stand in front of the headers.

* **`shownHeader`** — what the expansion gets to see of a name.
* **`event_expansion_boundary`** — two events that show the same under the denied names give the same
  text, whatever the global variables; and where a name can be written down, only they do.
-/

namespace FreeSwitch.Expand

open CString Event

/-! ## The code -/

/-- `sub_val += offset`: behind the end of the value there is no string. -/
def eventSlice (s : Str) (offset ooffset : Int) : Option Str :=
  if 0 ≤ offset then
    if offset ≤ s.length then some (cutLength (s.drop offset.toNat) ooffset) else none
  else some (cutLength (fromEnd s offset) ooffset)

section

variable (list : Option SwitchEvent) (api : Api SwitchEvent) (ev globalVars : SwitchEvent)

/-- `$${...}` goes to the global variables at once. A header is not expanded, and the list is not
asked about it. -/
def headerExpander : Expander where
  value expand global inside :=
    (expand inside).bind fun vname =>
      let sub := parseName vname
      match if global then none else switchEventGetHeaderIdx ev sub.name sub.idx with
      | some subVal => eventSlice subVal sub.offset sub.ooffset
      | none =>
        let subVal :=
          if switchEventCheckPermissionList list sub.name then switchEventGetHeader globalVars sub.name
          else some variableDenied
        match subVal with
        | none => some []
        | some subVal =>
          (expand subVal).bind fun subVal => eventSlice subVal sub.offset sub.ooffset
  api := api.call (bytes "<API execute Permission Denied>") globalVars

def switchEventExpandHeadersCheck (text : Str) (recur : Nat) : Option Str :=
  expand (headerExpander list api ev globalVars) (101 - recur) text

end

/-! ## What the expansion reads -/

section

variable {list : Option SwitchEvent} {api : Api SwitchEvent}

/-- The same names, and the same values under every name that the list permits. -/
structure EventsAgree (list : Option SwitchEvent) (ev₁ ev₂ : SwitchEvent) : Prop where
  names : ∀ name, (switchEventGetHeader ev₁ name).isSome = (switchEventGetHeader ev₂ name).isSome
  values : ∀ name, switchEventCheckPermissionList list name = true →
    ∀ idx, switchEventGetHeaderIdx ev₁ name idx = switchEventGetHeaderIdx ev₂ name idx

/-- What is seen under a denied name: the header, or the notice if there is none. -/
def shownHeader (ev : SwitchEvent) (name : Str) (idx : Int) : Str :=
  (switchEventGetHeaderIdx ev name idx).getD variableDenied

def SeenAlike (list : Option SwitchEvent) (ev₁ ev₂ : SwitchEvent) : Prop :=
  ∀ name, switchEventCheckPermissionList list name = false → ∀ idx,
    shownHeader ev₁ name idx = shownHeader ev₂ name idx

theorem header_value_none (ev globalVars : SwitchEvent) {f : Str → Option Str} (global : Bool)
    {inside : Str} (hinside : f inside = none) :
    (headerExpander list api ev globalVars).value f global inside = none := by
  show (f inside).bind _ = none
  rw [hinside]
  rfl

/-- A denied name, by whatever way it is found. -/
theorem header_value_denied (ev globalVars : SwitchEvent) {f : Str → Option Str}
    (hf : f variableDenied = some variableDenied) (global : Bool) {inside vname : Str}
    (hinside : f inside = some vname)
    (hdenied : switchEventCheckPermissionList list (parseName vname).name = false) :
    (headerExpander list api ev globalVars).value f global inside
      = eventSlice (if global then variableDenied
          else shownHeader ev (parseName vname).name (parseName vname).idx)
        (parseName vname).offset (parseName vname).ooffset := by
  simp only [headerExpander, hinside, Option.bind_some, hdenied, shownHeader]
  cases global with
  | true => simp [hf]
  | false =>
    cases switchEventGetHeaderIdx ev (parseName vname).name (parseName vname).idx with
    | none => simp [hf]
    | some subVal => rfl

theorem header_value_permitted {ev₁ ev₂ g₁ g₂ : SwitchEvent} (hev : EventsAgree list ev₁ ev₂)
    (hglobal : EventsAgree list g₁ g₂) {f : Str → Option Str} (global : Bool) {inside vname : Str}
    (hinside : f inside = some vname)
    (hpermitted : switchEventCheckPermissionList list (parseName vname).name = true) :
    (headerExpander list api ev₁ g₁).value f global inside
      = (headerExpander list api ev₂ g₂).value f global inside := by
  simp only [headerExpander, hinside, Option.bind_some, switchEventGetHeader,
    hev.values _ hpermitted, hglobal.values _ hpermitted]

/-! ## Offsets -/

section

variable (list : Option SwitchEvent) (api : Api SwitchEvent) (ev globalVars : SwitchEvent)

/-- A global variable, as the list shows it. -/
def shownGlobal (name : Str) : Option Str :=
  if switchEventCheckPermissionList list name then switchEventGetHeader globalVars name
  else some variableDenied

/-- No positive offset goes behind the end of the value that it is applied to: not in the text, not
in the names and calls that stand in its braces, and not in the global variables they stand for. -/
def OffsetsInside : Nat → Str → Prop
  | 0, _ => True
  | depth + 1, s => needsExpansion s → ∀ global inside br tail,
    .braces global inside br tail ∈ tokens 0 s →
      match splitCall inside br with
      | some (vname, vval) => OffsetsInside depth vname ∧ OffsetsInside depth vval
      | none =>
        OffsetsInside depth inside
          ∧ ∀ vname ∈ expand (headerExpander list api ev globalVars) depth inside,
            let sub := parseName vname
            match if global then none else switchEventGetHeaderIdx ev sub.name sub.idx with
            | some subVal => sub.offset ≤ subVal.length
            | none =>
              ∀ subVal ∈ shownGlobal list globalVars sub.name, OffsetsInside depth subVal
                ∧ ∀ v ∈ expand (headerExpander list api ev globalVars) depth subVal,
                  sub.offset ≤ v.length

end

/-- Where the event has a part of the value, it is the one the channel has. -/
theorem eventSlice_eq_some {s t : Str} {offset ooffset : Int} :
    eventSlice s offset ooffset = some t ↔ offset ≤ s.length ∧ channelSlice s offset ooffset = t := by
  unfold eventSlice channelSlice
  by_cases hsign : 0 ≤ offset
  · rw [if_pos hsign, if_pos hsign]
    by_cases hle : offset ≤ s.length <;> simp [hle]
  · rw [if_neg hsign, if_neg hsign, Option.some_inj]
    exact ⟨fun h => ⟨by omega, h⟩, fun h => h.2⟩

theorem eventSlice_isSome {s : Str} {offset ooffset : Int} :
    (eventSlice s offset ooffset).isSome ↔ offset ≤ s.length := by
  simp [Option.isSome_iff_exists, eventSlice_eq_some]

theorem bind_isSome_iff {o : Option Str} {f : Str → Option Str} {P : Str → Prop}
    (h : ∀ s, (f s).isSome ↔ P s) : (o.bind f).isSome ↔ o.isSome ∧ ∀ s ∈ o, P s := by
  cases o with
  | none => simp
  | some s => simp [h]

/-- That is when there is a result. -/
theorem offsetsInside_iff (ev globalVars : SwitchEvent) : ∀ depth s,
    OffsetsInside list api ev globalVars depth s
      ↔ (expand (headerExpander list api ev globalVars) depth s).isSome := by
  intro depth
  induction depth with
  | zero => simp [OffsetsInside, expand]
  | succ depth ih =>
    intro s
    by_cases hneeds : needsExpansion s
    · rw [OffsetsInside, expand, if_pos hneeds, evalTokens_isSome_iff]
      simp only [hneeds, forall_const]
      refine forall_congr' fun global => forall_congr' fun inside => forall_congr' fun br =>
        forall_congr' fun tail => forall_congr' fun _ => ?_
      unfold evalBraces
      cases splitCall inside br with
      | some call =>
        simp only [ih]
        cases expand (headerExpander list api ev globalVars) depth call.1 <;> simp
      | none =>
        rw [ih]
        refine (bind_isSome_iff fun vname => ?_).symm
        dsimp only
        cases if global then none else
            switchEventGetHeaderIdx ev (parseName vname).name (parseName vname).idx with
        | some subVal => exact eventSlice_isSome
        | none =>
          show (match shownGlobal list globalVars (parseName vname).name with
            | none => some []
            | some subVal => _ : Option Str).isSome ↔ _
          cases shownGlobal list globalVars (parseName vname).name with
          | none => simp
          | some subVal =>
            simp only [Option.mem_some_iff, forall_eq', ih]
            exact bind_isSome_iff fun v => eventSlice_isSome
    · simp [OffsetsInside, expand, hneeds]

/-! ## The boundary -/

/-- Events that show the same under the denied names. -/
theorem event_eq_of_seen (hapi : api.expansion = false) {ev₁ ev₂ g₁ g₂ : SwitchEvent}
    (hev : EventsAgree list ev₁ ev₂) (hglobal : EventsAgree list g₁ g₂)
    (hseen : SeenAlike list ev₁ ev₂) (text : Str) (recur : Nat) :
    switchEventExpandHeadersCheck list api ev₁ g₁ text recur
      = switchEventExpandHeadersCheck list api ev₂ g₂ text recur := by
  refine expand_congr ?_ (fun depth global inside => ?_) _ text
  · funext vname vval
    simp [headerExpander, Api.call, hapi]
  · cases hinside : expand (headerExpander list api ev₁ g₁) depth inside with
    | none => rw [header_value_none ev₁ g₁ global hinside, header_value_none ev₂ g₂ global hinside]
    | some vname =>
      cases hlist : switchEventCheckPermissionList list (parseName vname).name with
      | true => exact header_value_permitted hev hglobal global hinside hlist
      | false =>
        have hnotice := expand_variableDenied (headerExpander list api ev₁ g₁) depth
        rw [header_value_denied ev₁ g₁ hnotice global hinside hlist,
          header_value_denied ev₂ g₂ hnotice global hinside hlist, hseen _ hlist]

/-- For every two events and two sets of global variables that agree on what the list permits, with
the calls switched off: if the events show the same under the denied names, both expansions are one
and the same string, exactly if no offset goes behind the end of its value; and for a name that can
be written in braces with its index, they are equal only if the events show the same. -/
theorem event_expansion_boundary (hapi : api.expansion = false) {ev₁ ev₂ g₁ g₂ : SwitchEvent}
    (hev : EventsAgree list ev₁ ev₂) (hglobal : EventsAgree list g₁ g₂) :
    (SeenAlike list ev₁ ev₂ → ∀ text recur,
      ((∃ out, switchEventExpandHeadersCheck list api ev₁ g₁ text recur = some out
          ∧ switchEventExpandHeadersCheck list api ev₂ g₂ text recur = some out)
        ↔ OffsetsInside list api ev₁ g₁ (101 - recur) text))
      ∧ ∀ name index, Literal name → Literal index →
        switchEventCheckPermissionList list name = false →
        (switchEventExpandHeadersCheck list api ev₁ g₁ (written name index) 0
            = switchEventExpandHeadersCheck list api ev₂ g₂ (written name index) 0
          ↔ shownHeader ev₁ name (atoi (index ++ [93]))
            = shownHeader ev₂ name (atoi (index ++ [93]))) := by
  refine ⟨fun hseen text recur => ?_, fun name index hname hindex hdenied => ?_⟩
  · rw [event_eq_of_seen hapi hev hglobal hseen, offsetsInside_iff, Option.isSome_iff_exists]
    simp only [and_self]
    exact exists_congr fun out => by rw [← event_eq_of_seen hapi hev hglobal hseen]; rfl
  · have hvalue : ∀ ev g, switchEventExpandHeadersCheck list api ev g (written name index) 0
        = some (shownHeader ev name (atoi (index ++ [93]))) := by
      intro ev g
      have hparse := parseName_written hname hindex
      have hcontent := expand_content (headerExpander list api ev g) 100 hname hindex
      have hnotice := expand_variableDenied (headerExpander list api ev g) 100
      rw [switchEventExpandHeadersCheck, expand_written _ 100 hname hindex,
        header_value_denied ev g hnotice false hcontent (by rw [hparse]; exact hdenied), hparse]
      simp [eventSlice, cutLength]
    rw [hvalue, hvalue, Option.some_inj]

end

/-! ## A denied header -/

/-- An event with the header `secret`. -/
def secretEvent (value : Str) : SwitchEvent := oneHeader 0 (bytes "secret") value []

theorem secretEvents_agree (v₁ v₂ : Str) :
    EventsAgree denySecret (secretEvent v₁) (secretEvent v₂) := by
  refine ⟨fun name => ?_, fun name hpermitted idx => ?_⟩
  · unfold switchEventGetHeader secretEvent
    rw [getHeaderIdx_oneHeader, getHeaderIdx_oneHeader]
    split <;> rfl
  · have hother := (permitted_iff name).mp hpermitted
    unfold secretEvent
    rw [getHeaderIdx_oneHeader, getHeaderIdx_oneHeader, if_neg hother, if_neg hother]

def noEventApi : Api SwitchEvent := ⟨false, none, fun _ _ _ => none⟩

/-- As a global variable, `secret` stays hidden. -/
theorem secret_global_hidden :
    ∃ out, switchEventExpandHeadersCheck denySecret noEventApi blankEvent (secretEvent (bytes "x"))
          (bytes "a$$\x7bsecret\x7db$\x7bsecret:3:2\x7d") 0 = some out
      ∧ switchEventExpandHeadersCheck denySecret noEventApi blankEvent (secretEvent (bytes "y"))
          (bytes "a$$\x7bsecret\x7db$\x7bsecret:3:2\x7d") 0 = some out :=
  ((event_expansion_boundary (show noEventApi.expansion = false from rfl)
    ⟨fun _ => rfl, fun _ _ _ => rfl⟩ (secretEvents_agree (bytes "x") (bytes "y"))).1
    (fun _ _ _ => rfl) _ 0).mpr ((offsetsInside_iff _ _ _ _).mpr (by decide +kernel))

/-- As a header, it is read. -/
theorem secret_header_seen :
    EventsAgree denySecret (secretEvent (bytes "x")) (secretEvent (bytes "y"))
      ∧ switchEventCheckPermissionList denySecret (bytes "secret") = false
      ∧ switchEventExpandHeadersCheck denySecret noEventApi (secretEvent (bytes "x")) blankEvent
          (bytes "$\x7bsecret\x7d") 0 = some (bytes "x")
      ∧ switchEventExpandHeadersCheck denySecret noEventApi (secretEvent (bytes "y")) blankEvent
          (bytes "$\x7bsecret\x7d") 0 = some (bytes "y") :=
  ⟨secretEvents_agree _ _, by decide +kernel, by decide +kernel, by decide +kernel⟩

end FreeSwitch.Expand
