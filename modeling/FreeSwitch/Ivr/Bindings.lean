import FreeSwitch.Ivr.Dmachine
import Mathlib.Tactic.Common

/-!
# The bindings of a realm — `src/switch_ivr_async.c`

`switch_ivr_dmachine_bind` looks for an earlier binding of the same digits before it makes a new one. It
compares the digits that it is given with the text that is stored, which is without `=`, `~` and the
replacement. A binding that is found gets the callback and its data, but keeps its key.

* **`Binding.spec`** — the digits that a binding was made for, `=`, `~` and the replacement included.
* **`IsMap`** — one binding for each of the digits, with what the last registration says.
* **`Told`** — digits that the comparison tells apart.
* **`Kept.registerAll`** — the registrations of one realm, **`bindAll_isMap`** — any calls.
-/

namespace FreeSwitch.Ivr

open CString

/-! ## What a binding was made for -/

/-- A regular expression with its replacement. The text has a `~` only if it was not cut. -/
def joinRepl (digits : Str) : Option Str → Str
  | some repl => if 126 ∈ digits then digits else digits ++ 126 :: 126 :: repl
  | none => digits

theorem joinRepl_cutRepl (digits : Str) : joinRepl (cutRepl digits).1 (cutRepl digits).2 = digits := by
  cases hchr : strchr 126 digits with
  | none =>
    have hcut : cutRepl digits = (digits, none) := by rw [cutRepl, hchr]
    rw [hcut]
    rfl
  | some repl =>
    obtain ⟨a, rest, rfl, ha, rfl⟩ := strchr_eq_some hchr
    by_cases hdouble : rest.head? = some 126
    · -- the text is cut before the first `~`
      obtain ⟨rest, rfl⟩ := List.head?_eq_some_iff.mp hdouble
      have hcut : cutRepl (a ++ 126 :: 126 :: rest) = (a, some rest) := by
        unfold cutRepl
        rw [hchr]
        show (List.take ((a ++ 126 :: 126 :: rest).length - (126 :: 126 :: rest).length)
          (a ++ 126 :: 126 :: rest), some rest) = _
        rw [List.length_append, Nat.add_sub_cancel, List.take_left]
      rw [hcut]
      exact if_neg ha
    · have hcut : cutRepl (a ++ 126 :: rest) = (a ++ 126 :: rest, some (126 :: rest)) := by
        unfold cutRepl
        rw [hchr]
        exact if_neg hdouble
      rw [hcut]
      exact if_pos (List.mem_append_right a List.mem_cons_self)

def Text.spec (text : Text) : Str :=
  (if text.firstMatch then [61] else ([] : Str)) ++
    if text.isRegex then 126 :: joinRepl text.digits text.repl else text.digits

theorem spec_readDigits (digits : Str) : (readDigits digits).spec = digits := by
  have hequals : (if decide (digits.head? = some 61) = true then [61] else ([] : Str)) ++
      afterEquals digits = digits := by
    unfold afterEquals
    cases digits with
    | nil => rfl
    | cons c rest =>
      by_cases hc : c = 61
      · subst hc
        rfl
      · have hno : ¬(c :: rest).head? = some 61 := fun h => hc (Option.some.inj h)
        rw [decide_eq_false hno, if_neg hno]
        rfl
  unfold readDigits
  by_cases htilde : (afterEquals digits).head? = some 126
  · obtain ⟨rest, hrest⟩ := List.head?_eq_some_iff.mp htilde
    rw [if_pos htilde]
    show _ ++ 126 :: joinRepl (cutRepl (afterEquals digits).tail).1
      (cutRepl (afterEquals digits).tail).2 = digits
    rw [joinRepl_cutRepl, hrest]
    rwa [hrest] at hequals
  · rw [if_neg htilde]
    exact hequals

def Binding.text (bp : Binding) : Text := ⟨bp.digits, bp.repl, bp.firstMatch, bp.isRegex⟩

/-- The digits that a binding was made for. -/
def Binding.spec (bp : Binding) : Str := bp.text.spec

theorem spec_newBinding (r : Registration) : (newBinding r).spec = r.digits := spec_readDigits r.digits

/-! ## The realm as a map -/

/-- The last registration of the digits. -/
def lastFor (rs : List Registration) (digits : Str) : Option Registration :=
  rs.reverse.find? fun r => r.digits == digits

theorem lastFor_append (rs : List Registration) (r : Registration) (digits : Str) :
    lastFor (rs ++ [r]) digits = if r.digits = digits then some r else lastFor rs digits := by
  unfold lastFor
  rw [List.reverse_append, List.reverse_singleton, List.singleton_append, List.find?_cons]
  by_cases h : r.digits = digits
  · rw [if_pos h, beq_iff_eq.mpr h]
  · rw [if_neg h, beq_eq_false_iff_ne.mpr h]

/-- One binding for each of the digits, as they were registered last. -/
structure IsMap (rs : List Registration) (bindings : List Binding) : Prop where
  nodup : (bindings.map Binding.spec).Nodup
  specs : ∀ digits, digits ∈ bindings.map Binding.spec ↔ digits ∈ rs.map Registration.digits
  last : ∀ bp ∈ bindings, ∃ r, lastFor rs bp.spec = some r ∧
    bp.key = r.key ∧ bp.callback = r.callback ∧ bp.userData = r.userData

/-- The digits of a registration are told apart from those before. -/
structure Told (rs : List Registration) (r : Registration) : Prop where
  length : r.digits.length ≤ dmachineMaxDigitLen - 1
  again : ∀ r' ∈ rs, r'.digits = r.digits → r'.key = r.key ∧ (newBinding r).isFor r.digits = true
  other : r.digits ∉ rs.map Registration.digits → ∀ r' ∈ rs, (newBinding r').isFor r.digits = false

instance (rs : List Registration) (r : Registration) : Decidable (Told rs r) :=
  decidable_of_iff (r.digits.length ≤ dmachineMaxDigitLen - 1 ∧
      (∀ r' ∈ rs, r'.digits = r.digits → r'.key = r.key ∧ (newBinding r).isFor r.digits = true) ∧
        ((¬∃ r' ∈ rs, r'.digits = r.digits) → ∀ r' ∈ rs, (newBinding r').isFor r.digits = false))
    ⟨fun ⟨hlength, hagain, hother⟩ => ⟨hlength, hagain, fun hnot => hother (hnot ∘ List.mem_map.mpr)⟩,
      fun h => ⟨h.length, h.again, fun hnot => h.other (hnot ∘ List.mem_map.mp)⟩⟩

/-- All registrations are told apart from those before them. -/
def AllTold : List Registration → List Registration → Prop
  | _, [] => True
  | front, r :: rs => Told front r ∧ AllTold (front ++ [r]) rs

/-! ## One registration -/

variable {r : Registration} {bindings : List Binding}

theorem register_new (h : ∀ bp ∈ bindings, bp.isFor r.digits = false) :
    register r bindings = bindings ++ [newBinding r] := by
  induction bindings with
  | nil => rfl
  | cons bp bindings ih =>
    rw [register, h bp List.mem_cons_self, ih fun bp' hbp' => h bp' (List.mem_cons_of_mem bp hbp')]
    rfl

def Binding.rebound (r : Registration) (bp : Binding) : Binding :=
  { bp with callback := r.callback, userData := r.userData }

theorem register_again {front back : List Binding} {bp : Binding}
    (hfront : ∀ bp' ∈ front, bp'.isFor r.digits = false) (hbp : bp.isFor r.digits = true) :
    register r (front ++ bp :: back) = front ++ bp.rebound r :: back := by
  induction front with
  | nil => exact if_pos hbp
  | cons bp' front ih =>
    rw [List.cons_append, register, hfront bp' List.mem_cons_self,
      ih fun bp₁ hbp₁ => hfront bp₁ (List.mem_cons_of_mem bp' hbp₁)]
    rfl

/-- A binding has the text of the registration that made it. -/
def Made (rs : List Registration) (bp : Binding) : Prop :=
  ∃ r ∈ rs, bp.spec = r.digits ∧ ∀ digits, bp.isFor digits = (newBinding r).isFor digits

/-- What is kept from one registration to the next. -/
structure Kept (rs : List Registration) (bindings : List Binding) : Prop where
  isMap : IsMap rs bindings
  made : ∀ bp ∈ bindings, Made rs bp
  first : bindings.Pairwise fun bp bp' => bp.isFor bp'.spec = false

theorem isFor_newBinding_congr {r' : Registration} (h : r.digits = r'.digits) (digits : Str) :
    (newBinding r).isFor digits = (newBinding r').isFor digits := by
  unfold newBinding
  rw [h]
  rfl

variable {rs : List Registration}

theorem Kept.new (h : Kept rs bindings)
    (hr : Told rs r) (hnew : r.digits ∉ rs.map Registration.digits) :
    Kept (rs ++ [r]) (register r bindings) := by
  have hnone : ∀ bp ∈ bindings, bp.isFor r.digits = false := by
    intro bp hbp
    obtain ⟨r', hr', -, hfor⟩ := h.made bp hbp
    rw [hfor]
    exact hr.other hnew r' hr'
  have hspec : r.digits ∉ bindings.map Binding.spec := fun hmem => hnew ((h.isMap.specs _).mp hmem)
  rw [register_new hnone]
  refine ⟨⟨?_, fun digits => ?_, fun bp hbp => ?_⟩, fun bp hbp => ?_, ?_⟩
  · rw [List.map_append, List.map_singleton, spec_newBinding]
    exact List.nodup_append.mpr ⟨h.isMap.nodup, List.nodup_singleton _, fun a ha b hb hab =>
      hspec (List.mem_singleton.mp hb ▸ hab ▸ ha)⟩
  · rw [List.map_append, List.map_append, List.mem_append, List.mem_append, h.isMap.specs,
      List.map_singleton,
      List.map_singleton, spec_newBinding]
  · rw [lastFor_append]
    rcases List.mem_append.mp hbp with hbp | hbp
    · rw [if_neg fun heq : r.digits = bp.spec => hspec (heq ▸ List.mem_map_of_mem hbp)]
      exact h.isMap.last bp hbp
    · obtain rfl := List.mem_singleton.mp hbp
      rw [if_pos (spec_newBinding r).symm]
      exact ⟨r, rfl, rfl, rfl, rfl⟩
  · rcases List.mem_append.mp hbp with hbp | hbp
    · obtain ⟨r', hr', hmade⟩ := h.made bp hbp
      exact ⟨r', List.mem_append_left _ hr', hmade⟩
    · obtain rfl := List.mem_singleton.mp hbp
      exact ⟨r, List.mem_append_right _ List.mem_cons_self, spec_newBinding r, fun _ => rfl⟩
  · refine List.pairwise_append.mpr ⟨h.first, List.pairwise_singleton _ _, fun bp hbp bp' hbp' => ?_⟩
    rw [List.mem_singleton.mp hbp', spec_newBinding]
    exact hnone bp hbp

theorem Kept.again (h : Kept rs bindings)
    (hr : Told rs r) (hold : r.digits ∈ rs.map Registration.digits) :
    Kept (rs ++ [r]) (register r bindings) := by
  obtain ⟨bp, hbp, hspec⟩ := List.mem_map.mp ((h.isMap.specs _).mpr hold)
  obtain ⟨front, back, rfl⟩ := List.append_of_mem hbp
  -- nothing before the binding of these digits is taken for it
  have hfront : ∀ bp' ∈ front, bp'.isFor r.digits = false := fun bp' hbp' =>
    hspec ▸ (List.pairwise_append.mp h.first).2.2 bp' hbp' bp List.mem_cons_self
  have hfor : bp.isFor r.digits = true := by
    obtain ⟨r', hr', hspec', hmade⟩ := h.made bp hbp
    have hdigits : r'.digits = r.digits := hspec'.symm.trans hspec
    rw [hmade, isFor_newBinding_congr hdigits]
    exact (hr.again r' hr' hdigits).2
  rw [register_again hfront hfor]
  have hsame : (front ++ bp.rebound r :: back).map Binding.spec =
      (front ++ bp :: back).map Binding.spec := by
    rw [List.map_append, List.map_append]
    rfl
  have hcases : ∀ bp' ∈ front ++ bp.rebound r :: back, bp' = bp.rebound r ∨ bp' ∈ front ++ back :=
    fun bp' hbp' => List.mem_cons.mp (List.perm_middle.mem_iff.mp hbp')
  have hother : ∀ bp' ∈ front ++ back, bp' ∈ front ++ bp :: back ∧ bp'.spec ≠ r.digits := by
    intro bp' hbp'
    have hnodup := h.isMap.nodup
    rw [List.map_append, List.map_cons, List.nodup_middle] at hnodup
    refine ⟨List.perm_middle.mem_iff.mpr (List.mem_cons_of_mem bp hbp'), fun heq => ?_⟩
    apply (List.nodup_cons.mp hnodup).1
    rw [hspec, ← heq, ← List.map_append]
    exact List.mem_map_of_mem hbp'
  refine ⟨⟨hsame ▸ h.isMap.nodup, fun digits => ?_, fun bp' hbp' => ?_⟩, fun bp' hbp' => ?_, ?_⟩
  · rw [hsame, h.isMap.specs, List.map_append, List.mem_append, List.map_singleton, List.mem_singleton]
    exact ⟨.inl, fun hmem => hmem.elim id fun heq => heq ▸ hold⟩
  · rw [lastFor_append]
    rcases hcases bp' hbp' with rfl | hmem
    · rw [if_pos (show r.digits = (bp.rebound r).spec from hspec.symm)]
      obtain ⟨r', hlast, hkey, -⟩ := h.isMap.last bp hbp
      have hr' : r' ∈ rs ∧ r'.digits = r.digits := by
        have hfind := List.find?_some hlast
        exact ⟨List.mem_reverse.mp (List.mem_of_find?_eq_some hlast), (beq_iff_eq.mp hfind).trans hspec⟩
      exact ⟨r, rfl, hkey.trans (hr.again r' hr'.1 hr'.2).1, rfl, rfl⟩
    · obtain ⟨hmem, hne⟩ := hother bp' hmem
      rw [if_neg fun heq => hne heq.symm]
      exact h.isMap.last bp' hmem
  · have hmade : Made rs bp' := by
      rcases hcases bp' hbp' with rfl | hmem
      · exact h.made bp hbp
      · exact h.made bp' (hother bp' hmem).1
    obtain ⟨r', hr', hrest⟩ := hmade
    exact ⟨r', List.mem_append_left _ hr', hrest⟩
  · have hfirst := h.first
    simp only [List.pairwise_append, List.pairwise_cons, List.forall_mem_cons] at hfirst ⊢
    exact hfirst

/-! ## Any number of registrations -/

theorem Kept.registerAll {front : List Registration} (h : Kept front bindings)
    (hrs : AllTold front rs) :
    Kept (front ++ rs) (rs.foldl (fun bindings r => register r bindings) bindings) := by
  induction rs generalizing front bindings with
  | nil => rwa [List.append_nil]
  | cons r rs ih =>
    rw [List.append_cons, List.foldl_cons]
    by_cases hmem : r.digits ∈ front.map Registration.digits
    · exact ih (h.again hrs.1 hmem) hrs.2
    · exact ih (h.new hrs.1 hmem) hrs.2

theorem kept_nil : Kept [] [] :=
  ⟨⟨List.nodup_nil, fun _ => Iff.rfl, fun _ h => (nomatch h)⟩, fun _ h => (nomatch h),
    List.Pairwise.nil⟩

/-! ## The machine -/

/-- Calls of `switch_ivr_dmachine_bind`, each with its realm. -/
def bindAll (dm : Dmachine) (calls : List (Str × Registration)) : Dmachine :=
  calls.foldl (fun dm call => (bind dm call.1 call.2).2) dm

def bindingsOf (dm : Dmachine) (name : Str) : List Binding :=
  ((dm.bindingHash name).map BindingHead.bindingList).getD []

/-- The registrations that go to a realm. -/
def callsOn (name : Str) (calls : List (Str × Registration)) : List Registration :=
  (calls.filter fun call => realmName call.1 = name).map Prod.snd

/-- The hash after a call that is not refused. -/
theorem bindingHash_bind (dm : Dmachine) (realm : Str)
    (hlen : r.digits.length ≤ dmachineMaxDigitLen - 1) :
    (bind dm realm r).2.bindingHash = Function.update dm.bindingHash (realmName realm)
      (some ⟨register r ((dm.bindingHash (realmName realm)).getD ⟨[], none⟩).bindingList,
        ((dm.bindingHash (realmName realm)).getD ⟨[], none⟩).terminators⟩) := by
  unfold bind
  rw [if_neg (not_lt.mpr hlen)]
  dsimp only
  split
  · rfl
  · rfl

theorem bindingsOf_bind (dm : Dmachine) (realm : Str)
    (hlen : r.digits.length ≤ dmachineMaxDigitLen - 1) :
    bindingsOf (bind dm realm r).2 (realmName realm) =
      register r (bindingsOf dm (realmName realm)) := by
  unfold bindingsOf
  rw [bindingHash_bind dm realm hlen, Function.update_self]
  cases dm.bindingHash (realmName realm) with
  | none => rfl
  | some head => rfl

theorem bindingsOf_bind_other (dm : Dmachine) {realm name : Str} (r : Registration)
    (hname : realmName realm ≠ name) :
    bindingsOf (bind dm realm r).2 name = bindingsOf dm name := by
  by_cases hlen : r.digits.length ≤ dmachineMaxDigitLen - 1
  · unfold bindingsOf
    rw [bindingHash_bind dm realm hlen, Function.update_of_ne hname.symm]
  · rw [bind, if_pos (not_le.mp hlen)]

/-- The realm is what the registrations that go to it make of it. -/
theorem bindingsOf_bindAll (dm : Dmachine) (name : Str) (calls : List (Str × Registration))
    (hlen : ∀ r ∈ callsOn name calls, r.digits.length ≤ dmachineMaxDigitLen - 1) :
    bindingsOf (bindAll dm calls) name =
      (callsOn name calls).foldl (fun bindings r => register r bindings) (bindingsOf dm name) := by
  induction calls generalizing dm with
  | nil => rfl
  | cons call calls ih =>
    show bindingsOf (bindAll (bind dm call.1 call.2).2 calls) name = _
    by_cases hname : realmName call.1 = name
    · have hon : callsOn name (call :: calls) = call.2 :: callsOn name calls := by
        unfold callsOn
        rw [List.filter_cons, if_pos (decide_eq_true hname)]
        rfl
      rw [hon] at hlen ⊢
      rw [ih _ fun r hr => hlen r (List.mem_cons_of_mem _ hr), ← hname,
        bindingsOf_bind dm call.1 (hlen _ List.mem_cons_self)]
      rfl
    · have hon : callsOn name (call :: calls) = callsOn name calls := by
        unfold callsOn
        rw [List.filter_cons, if_neg (by simpa using hname)]
      rw [hon] at hlen ⊢
      rw [ih _ hlen, bindingsOf_bind_other dm call.2 hname]

theorem length_of_allTold {front : List Registration} (h : AllTold front rs) :
    ∀ r ∈ rs, r.digits.length ≤ dmachineMaxDigitLen - 1 := by
  induction rs generalizing front with
  | nil => exact fun r hr => nomatch hr
  | cons r rs ih =>
    intro r' hr'
    rcases List.mem_cons.mp hr' with rfl | hr'
    · exact h.1.length
    · exact ih h.2 r' hr'

/-- **A realm is a map from digits to their last registration, as long as the digits are told
apart.** -/
theorem bindAll_isMap (digitTimeoutMs inputTimeoutMs : UInt32)
    (matchCallback nonmatchCallback : Option Nat) (userData : Nat)
    (calls : List (Str × Registration)) (name : Str) (htold : AllTold [] (callsOn name calls)) :
    IsMap (callsOn name calls)
      (bindingsOf
        (bindAll (create digitTimeoutMs inputTimeoutMs matchCallback nonmatchCallback userData) calls)
          name) := by
  rw [bindingsOf_bindAll _ _ _ (length_of_allTold htold)]
  exact (kept_nil.registerAll htold).isMap

/-- A text, a regular expression, and the text again with another callback. -/
def sampleCalls : List (Str × Registration) :=
  [([], ⟨bytes "12", false, 1, none, 0⟩), ([], ⟨bytes "~3.", false, 2, some 4, 5⟩),
    ([], ⟨bytes "12", false, 1, some 6, 7⟩)]

theorem bindAll_isMap_sample : AllTold [] (callsOn (bytes "default") sampleCalls) ∧
    IsMap (callsOn (bytes "default") sampleCalls)
      (bindingsOf (bindAll (create 0 0 none none 0) sampleCalls) (bytes "default")) := by
  have htold : AllTold [] (callsOn (bytes "default") sampleCalls) :=
    ⟨by decide +kernel, by decide +kernel, by decide +kernel, trivial⟩
  exact ⟨htold, bindAll_isMap 0 0 none none 0 sampleCalls (bytes "default") htold⟩

/-- `12` is not told apart from `=12`. -/
def collidingCalls : List (Str × Registration) :=
  [([], ⟨bytes "=12", false, 1, none, 0⟩), ([], ⟨bytes "12", false, 2, none, 0⟩)]

/-- There is one binding for the two of them. -/
theorem bindAll_collides : (∀ call ∈ collidingCalls, call.2.digits ≠ []) ∧
    ¬IsMap (callsOn (bytes "default") collidingCalls)
      (bindingsOf (bindAll (create 0 0 none none 0) collidingCalls) (bytes "default")) := by
  refine ⟨by decide +kernel, fun h => ?_⟩
  have hmem := (h.specs (bytes "12")).mpr (by decide +kernel)
  exact absurd hmem (by decide +kernel)

end FreeSwitch.Ivr
