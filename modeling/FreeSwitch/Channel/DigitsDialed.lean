import FreeSwitch.Utils.Replace

/-!
# The digits of a call — `switch_channel_set_timestamps` of `src/switch_channel.c`

The variable `digits_dialed` gets the digits of the call, with what `digits_dialed_filter` matches made
unreadable. For the match and for each of its groups the text is replaced in the digits; the result of
one round is freed before the next, which starts from the digits again.

* **`setDigitsDialed`** — the value of the variable.
* **`Covers`** — the places that the occurrences of a text take.
* **`digits_hidden_iff`** — when the function returns and all places of the match are hidden.
-/

namespace FreeSwitch.Channel

open CString Replace

/-- What PCRE finds in the digits: where the match begins, its text, and those of its groups up to the
last one that is set. A group before it that is not set has an empty text. -/
structure Capture where
  start : Nat
  whole : Str
  groups : List Str

/-- `memset(X, 'X', plen)` -/
def crosses (n : Nat) : Str := List.replicate n 88

/-- The loop over the texts: `substituted` is `NULL` when the next round begins. -/
def maskLoop (fuel : Nat) (dtstr : Str) : List Str → Option Str → Option (Option Str)
  | [], substituted => some substituted
  | replace :: texts, _ =>
    (switchStringReplace fuel dtstr replace (crosses replace.length)).bind fun substituted =>
      maskLoop fuel dtstr texts (some substituted)

/-- The vector has thirty numbers: PCRE returns `0` for more than ten texts, and that counts as no
match. -/
def setDigitsDialed (fuel : Nat) (dtstr : Str) (m : Capture) : Option Str :=
  if m.groups.length < 10 then
    (maskLoop fuel dtstr (m.whole :: m.groups) none).map fun
      | some substituted => if substituted = [] then dtstr else substituted
      | none => dtstr
  else some dtstr

/-! ## Places -/

/-- The place `i` of a string is in one of the occurrences of `search`, found from the left on. -/
inductive Covers (search : Str) : Str → Nat → Prop where
  | here {s : Str} {i : Nat} (at_ : search <+: s) (h : i < search.length) : Covers search s i
  | behind {s : Str} {i : Nat} (ne : search ≠ []) (at_ : search <+: s)
      (h : Covers search (s.drop search.length) i) :
      Covers search s (search.length + i)
  | skip {c : UInt8} {rest : Str} {i : Nat} (no : ¬ search <+: c :: rest) (h : Covers search rest i) :
      Covers search (c :: rest) (i + 1)

theorem covers_found {search rest : Str} (hne : search ≠ []) {i : Nat} :
    Covers search (search ++ rest) i ↔ i < search.length ∨ ∃ j, i = search.length + j ∧
    Covers search rest j := by
  constructor
  · intro h
    generalize hs : search ++ rest = s at h
    cases h with
    | here _ h => exact .inl h
    | behind _ _ h =>
      rw [← hs, List.drop_left] at h
      exact .inr ⟨_, rfl, h⟩
    | skip no _ => exact absurd ⟨rest, hs⟩ no
  · rintro (h | ⟨j, rfl, h⟩)
    · exact .here (List.prefix_append _ _) h
    · exact .behind hne (List.prefix_append _ _) (by rw [List.drop_left]; exact h)

theorem covers_skip {search rest : Str} {c : UInt8} (hno : ¬ search <+: c :: rest) {i : Nat} :
    Covers search (c :: rest) i ↔ ∃ j, i = j + 1 ∧ Covers search rest j := by
  constructor
  · intro h
    cases h with
    | here at_ _ => exact absurd at_ hno
    | behind _ at_ _ => exact absurd at_ hno
    | skip _ h => exact ⟨_, rfl, h⟩
  · rintro ⟨j, rfl, h⟩
    exact .skip hno h

theorem not_covers_nil {search : Str} (hne : search ≠ []) {i : Nat} : ¬ Covers search [] i := by
  intro h
  cases h with
  | here at_ _ => exact hne (List.prefix_nil.mp at_)
  | behind _ at_ _ => exact hne (List.prefix_nil.mp at_)

/-- The crosses are where the occurrences were, if there was none before. -/
theorem replaced_crosses {search s out : Str} (hne : search ≠ [])
    (h : Replaced search (crosses search.length) s out) :
    88 ∉ s → ∀ i, out[i]? = some 88 ↔ Covers search s i := by
  induction h with
  | done _ => exact fun _ i => iff_of_false (by simp) (not_covers_nil hne)
  | @found rest out _ _ ih =>
    intro hclean i
    rw [covers_found hne]
    have hlength : (crosses search.length).length = search.length := List.length_replicate
    by_cases hi : i < search.length
    · rw [List.getElem?_append_left (by omega), crosses, List.getElem?_replicate_of_lt hi]
      exact iff_of_true rfl (.inl hi)
    · rw [List.getElem?_append_right (by omega), hlength,
        ih fun h => hclean (List.mem_append_right _ h)]
      constructor
      · exact fun h => .inr ⟨_, (Nat.add_sub_cancel' (by omega)).symm, h⟩
      · rintro (h | ⟨j, rfl, h⟩)
        · exact absurd h hi
        · rw [Nat.add_sub_cancel_left]
          exact h
  | @skip c rest out no _ ih =>
    intro hclean i
    rw [covers_skip no]
    cases i with
    | zero =>
      rw [List.getElem?_cons_zero]
      refine iff_of_false (fun h => hclean (Option.some.inj h ▸ List.mem_cons_self)) ?_
      rintro ⟨j, hj, -⟩
      exact absurd hj (by omega)
    | succ i =>
      rw [List.getElem?_cons_succ, ih fun h => hclean (List.mem_cons_of_mem c h)]
      exact ⟨fun h => ⟨i, rfl, h⟩, fun ⟨j, hj, h⟩ => Nat.succ.inj hj ▸ h⟩
  | emptyDone hempty => exact absurd hempty hne
  | empty hempty => exact absurd hempty hne

theorem replaced_ne_nil {search s out : Str} (hne : search ≠ []) (hs : s ≠ [])
    (h : Replaced search (crosses search.length) s out) :
    out ≠ [] := by
  cases h with
  | done _ => exact absurd rfl hs
  | found _ _ =>
    apply List.append_ne_nil_of_left_ne_nil
    exact fun h => hne (List.length_eq_zero_iff.mp ((List.replicate_eq_nil_iff 88).mp h))
  | skip _ _ => exact List.cons_ne_nil _ _
  | emptyDone hempty => exact absurd hempty hne
  | empty hempty _ => exact absurd hempty hne

/-! ## The loop -/

section

variable {dtstr : Str} (hlen : dtstr.length < 2 ^ 64)

include hlen

/-- Only the last text counts. -/
theorem maskLoop_eq (texts : List Str) : ∀ {substituted}, (∀ t ∈ texts, t ≠ []) →
    ∃ s, (∀ fuel, dtstr.length < fuel → maskLoop fuel dtstr texts substituted = some s) ∧
      (texts = [] → s = substituted) ∧
      ∀ t, texts.getLast? = some t → ∃ out, s = some out ∧ Replaced t (crosses t.length) dtstr out := by
  induction texts with
  | nil => exact fun _ => ⟨_, fun _ _ => rfl, fun _ => rfl, fun t h => absurd h nofun⟩
  | cons t texts ih =>
    intro substituted hne
    obtain ⟨out, hout, hloop⟩ :=
      @replaceLoop_spec dtstr t (crosses t.length) hlen (hne t List.mem_cons_self) dtstr 0 rfl
        (Nat.zero_le _)
    obtain ⟨s, hs, hnil, hlast⟩ := @ih (some out) fun u hu => hne u (List.mem_cons_of_mem t hu)
    refine ⟨s, fun fuel hfuel => ?_, nofun, fun u hu => ?_⟩
    · rw [maskLoop, switchStringReplace, hloop fuel [] hfuel]
      exact hs fuel hfuel
    · cases texts with
      | nil =>
        obtain rfl := Option.some.inj hu
        exact ⟨out, hnil rfl, hout⟩
      | cons v texts => exact hlast u (by rw [← hu]; rfl)

end

theorem maskLoop_stuck {dtstr : Str} (hne : dtstr ≠ []) (fuel : Nat) (texts : List Str)
    (h : [] ∈ texts) :
    ∀ substituted, maskLoop fuel dtstr texts substituted = none := by
  induction texts with
  | nil => exact absurd h List.not_mem_nil
  | cons t texts ih =>
    intro substituted
    rw [maskLoop]
    rcases List.mem_cons.mp h with rfl | h
    · rw [switchStringReplace, replaceLoop_empty hne]
      rfl
    · cases switchStringReplace fuel dtstr t (crosses t.length) with
      | none => rfl
      | some s => exact ih h (some s)

/-! ## The variable -/

/-- The text of the last round. -/
def Capture.last (m : Capture) : Str := m.groups.getLast?.getD m.whole

/-- The function returns and hides all of the match where no text is empty and the places of the match
are in occurrences of the last text. With more than nine groups it hides nothing. -/
theorem digits_hidden_iff {dtstr : Str} (hne : dtstr ≠ []) (hlen : dtstr.length < 2 ^ 64)
    (hdigits : 88 ∉ dtstr) (m : Capture) :
    (∃ enough out, (∀ fuel, enough ≤ fuel → setDigitsDialed fuel dtstr m = some out) ∧
      ∀ i, m.start ≤ i → i < m.start + m.whole.length → out[i]? = some 88) ↔
    if m.groups.length < 10 then (∀ t ∈ m.whole :: m.groups, t ≠ []) ∧
      ∀ i, m.start ≤ i → i < m.start + m.whole.length → Covers m.last dtstr i
    else m.whole = [] := by
  by_cases hgroups : m.groups.length < 10
  · -- every text is replaced in turn, each time in the digits as dialed: the last one is what shows
    have hlast : (m.whole :: m.groups).getLast? = some m.last := List.getLast?_cons
    have hreturns : (∀ t ∈ m.whole :: m.groups, t ≠ []) → ∃ out, (∀ fuel, dtstr.length < fuel →
        setDigitsDialed fuel dtstr m = some out) ∧ ∀ i, out[i]? = some 88 ↔ Covers m.last dtstr i := by
      intro htexts
      have hl : m.last ≠ [] := htexts _ (List.mem_of_mem_getLast? hlast)
      obtain ⟨s, hs, -, hreplaced⟩ := @maskLoop_eq dtstr hlen (m.whole :: m.groups) none htexts
      obtain ⟨out, rfl, hout⟩ := hreplaced m.last hlast
      refine ⟨out, fun fuel hfuel => ?_, replaced_crosses hl hout hdigits⟩
      rw [setDigitsDialed, if_pos hgroups, hs fuel hfuel, Option.map_some]
      dsimp only
      rw [if_neg (replaced_ne_nil hl hne hout)]
    rw [if_pos hgroups]
    constructor
    · rintro ⟨enough, out, hgives, hhidden⟩
      have htexts : ∀ t ∈ m.whole :: m.groups, t ≠ [] := by
        rintro t ht rfl
        have := hgives enough le_rfl
        rw [setDigitsDialed, if_pos hgroups, maskLoop_stuck hne enough _ ht] at this
        exact absurd this nofun
      obtain ⟨out', hreturns, hcovers⟩ := hreturns htexts
      have hsame : out = out' := Option.some.inj
        ((hgives (enough + dtstr.length + 1)
          (by omega)).symm.trans (hreturns (enough + dtstr.length + 1) (by omega)))
      exact ⟨htexts, fun i hlow hhigh => (hcovers i).mp (hsame ▸ hhidden i hlow hhigh)⟩
    · rintro ⟨htexts, hall⟩
      obtain ⟨out, hreturns, hcovers⟩ := hreturns htexts
      exact ⟨dtstr.length + 1, out, fun fuel hfuel => hreturns fuel (by omega),
        fun i hlow hhigh => (hcovers i).mpr (hall i hlow hhigh)⟩
  · -- with ten groups the captures do not fit, and nothing is replaced
    have hshown : ∀ fuel, setDigitsDialed fuel dtstr m = some dtstr := fun fuel => if_neg hgroups
    rw [if_neg hgroups]
    constructor
    · rintro ⟨enough, out, hgives, hhidden⟩
      by_contra hwhole
      have hpos := List.length_pos_iff.mpr hwhole
      have hcross := hhidden m.start le_rfl (by omega)
      rw [← Option.some.inj ((hshown enough).symm.trans (hgives enough le_rfl))] at hcross
      exact hdigits (List.mem_of_getElem? hcross)
    · intro hwhole
      refine ⟨0, dtstr, fun fuel _ => hshown fuel, fun i hlow hhigh => ?_⟩
      rw [hwhole, List.length_nil] at hhigh
      omega

/-- The filter `12` in `0123`. -/
theorem digits_hidden_match :
    ∃ enough out,
      (∀ fuel, enough ≤ fuel → setDigitsDialed fuel (bytes "0123") ⟨1, bytes "12", []⟩ = some out) ∧
    ∀ i, 1 ≤ i → i < 1 + (bytes "12").length → out[i]? = some 88 := by
  refine (digits_hidden_iff (by decide) (by decide) (by decide) ⟨1, bytes "12", []⟩).mpr ?_
  rw [if_pos (by decide)]
  refine ⟨List.forall_mem_singleton.mpr (by decide), fun i hlow hhigh => ?_⟩
  obtain ⟨i, rfl⟩ := Nat.exists_eq_add_of_le' hlow
  apply Covers.skip (by decide)
  apply Covers.here (by decide)
  show i < (bytes "12").length
  dsimp only at hhigh
  omega

/-- The filter `(1)2`: the match is `12`, its group is `1`, and the variable is `0X23`, with the 2 in
it. -/
theorem digits_shown : ∃ out, setDigitsDialed 5 (bytes "0123") ⟨1, bytes "12", [bytes "1"]⟩ = some out ∧
    out = bytes "0X23" ∧ ¬∀ i, 1 ≤ i → i < 1 + (bytes "12").length → out[i]? = some 88 :=
  ⟨bytes "0X23", by decide, rfl, fun h => absurd (h 2 (by decide) (by decide)) (by decide)⟩

end FreeSwitch.Channel
