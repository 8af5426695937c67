import FreeSwitch.Msrp.Parse

/-!
# The search for the end of a body — `find_delim` of `src/switch_msrp.c`

The bytes are compared once each: where a match breaks off, the next one starts behind the byte that
broke it. The search stops by the length of the delimiter before the end.

* **`Blocks`** — the texts that the search leaves behind: each block is the beginning of a match and the
  byte that breaks it.
* **`findDelimFrom_blocks`**, **`findDelimFrom_some`** — it finds what stands behind blocks, and nothing
  else.
* **`findDelim_iff`** — when that is the first occurrence.
-/

namespace FreeSwitch.Msrp

open CString

variable {mem d : Str}

/-! ## Texts -/

inductive Blocks (d : Str) : Str → Prop where
  | nil : Blocks d []
  | cons {e t : Str} {x c : UInt8} (hpre : e ++ [x] <+: d) (hne : x ≠ c) (ht : Blocks d t) :
      Blocks d (e ++ c :: t)

/-- Of two texts one goes on with the other, or they differ at a byte. -/
theorem prefix_or_break (d t : Str) :
    d <+: t ∨ t <+: d ∨ ∃ e x c rest, t = e ++ c :: rest ∧ e ++ [x] <+: d ∧ x ≠ c := by
  induction d generalizing t with
  | nil => exact .inl List.nil_prefix
  | cons x d ih =>
    cases t with
    | nil => exact .inr (.inl List.nil_prefix)
    | cons c t =>
      by_cases hne : x = c
      · subst hne
        rcases ih t with h | h | ⟨e, y, c, rest, ht, hpre, hne⟩
        · exact .inl (List.cons_prefix_cons.mpr ⟨rfl, h⟩)
        · exact .inr (.inl (List.cons_prefix_cons.mpr ⟨rfl, h⟩))
        · exact .inr (.inr ⟨x :: e, y, c, rest, by rw [ht]; rfl,
            List.cons_prefix_cons.mpr ⟨rfl, hpre⟩, hne⟩)
      · exact .inr (.inr ⟨[], x, c, t, rfl, List.cons_prefix_cons.mpr ⟨rfl, List.nil_prefix⟩, hne⟩)

theorem peek_eq {p : Nat} {c : UInt8} {t : Str} (h : mem.drop p = c :: t) : peek mem p = c := by
  have hget : mem[p]? = (c :: t)[0]? := by rw [← h, List.getElem?_drop]; rfl
  rw [peek, List.getD_eq_getElem?_getD, hget]
  rfl

theorem drop_succ_eq {p : Nat} {c : UInt8} {t : Str} (h : mem.drop p = c :: t) :
    mem.drop (p + 1) = t := by
  rw [← List.drop_drop, h]
  rfl

theorem drop_break {p : Nat} {e t : Str} {c : UInt8} (h : mem.drop p = e ++ c :: t) :
    mem.drop (p + (e.length + 1)) = t := by
  rw [← List.drop_drop, h, List.drop_append, List.drop_of_length_le (by omega)]
  simp

/-! ## The search -/

/-- The rest `e` of the delimiter stands at `p`. -/
theorem findDelimFrom_match (e : Str) :
    ∀ {q n p : Nat} {s : Option Nat}, d.drop q = e → e ≠ [] → e <+: mem.drop p →
    findDelimFrom mem d n p q s = if e.length ≤ n then some (s.getD p) else none := by
  induction e with
  | nil => exact fun _ h => absurd rfl h
  | cons c e ih =>
    intro q n p s hd _ hmem
    obtain ⟨t, ht⟩ := hmem
    have hdelim : d.getD q 0 = c := peek_eq hd
    have hlength := congrArg List.length hd
    rw [List.length_drop, List.length_cons] at hlength
    cases n with
    | zero => rfl
    | succ n =>
      rw [findDelimFrom, peek_eq ht.symm, hdelim, if_pos rfl]
      by_cases he : e = []
      · rw [if_pos (by rw [he, List.length_nil] at hlength; omega), if_pos (by rw [he]; simp)]
      · have hpos := List.length_pos_iff.mpr he
        rw [if_neg (by omega), ih (drop_succ_eq hd) he ⟨t, (drop_succ_eq ht.symm).symm⟩]
        simp

/-- The match breaks off behind `e`. -/
theorem findDelimFrom_break (e : Str) {x c : UInt8} {t : Str} (hne : x ≠ c) :
    ∀ {q n p : Nat} {s : Option Nat},
    e ++ [x] <+: d.drop q → mem.drop p = e ++ c :: t → findDelimFrom mem d n p q s =
      if e.length < n then findDelimFrom mem d (n - (e.length + 1))
        (p + (e.length + 1)) 0 none else none := by
  induction e with
  | nil =>
    intro q n p s hd hmem
    obtain ⟨r, hr⟩ := hd
    cases n with
    | zero => rfl
    | succ n =>
      have hdelim : d.getD q 0 = x := peek_eq hr.symm
      rw [findDelimFrom, peek_eq hmem, hdelim, if_neg hne.symm]
      rfl
  | cons y e ih =>
    intro q n p s hd hmem
    obtain ⟨r, hr⟩ := hd
    have hdelim : d.getD q 0 = y := peek_eq hr.symm
    have hlength := congrArg List.length hr
    simp only [List.length_append, List.length_cons, List.length_drop, List.length_nil] at hlength
    cases n with
    | zero => rfl
    | succ n =>
      rw [findDelimFrom, peek_eq hmem, hdelim, if_pos rfl, if_neg (by omega),
        ih ⟨r, (drop_succ_eq hr.symm).symm⟩ (drop_succ_eq hmem)]
      simp only [List.length_cons, Nat.succ_lt_succ_iff, Nat.add_sub_add_right]
      rw [show p + 1 + (e.length + 1) = p + (e.length + 1 + 1) by omega]

theorem findDelimFrom_blocks {u : Str} (hd : d ≠ []) (h : Blocks d u) :
    ∀ {p n : Nat}, u ++ d <+: mem.drop p →
    findDelimFrom mem d n p 0 none = if u.length + d.length ≤ n then some (p + u.length) else none := by
  induction h with
  | nil =>
    intro p n hmem
    rw [findDelimFrom_match d rfl hd hmem]
    simp
  | @cons e t x c hpre hne ht ih =>
    intro p n hmem
    obtain ⟨r, hr⟩ := hmem
    simp only [List.append_assoc, List.cons_append] at hr
    have hrest : t ++ d <+: mem.drop (p + (e.length + 1)) := by
      rw [drop_break hr.symm]
      exact ⟨r, List.append_assoc t d r⟩
    rw [findDelimFrom_break e hne (by rw [List.drop_zero]; exact hpre) hr.symm, ih hrest]
    simp only [List.length_append, List.length_cons]
    have hpos := List.length_pos_iff.mpr hd
    by_cases hroom : e.length + (t.length + 1) + d.length ≤ n
    · rw [if_pos (by omega), if_pos (by omega), if_pos hroom]
      congr 1
      omega
    · rw [if_neg hroom]
      split
      · exact if_neg (by omega)
      · rfl

theorem findDelimFrom_some (hd : d ≠ []) (n : Nat) : ∀ {p i : Nat}, p + n + d.length ≤ mem.length →
    findDelimFrom mem d n p 0 none = some i →
      ∃ u, Blocks d u ∧ u ++ d <+: mem.drop p ∧ i = p + u.length ∧ u.length + d.length ≤ n := by
  induction n using Nat.strong_induction_on with
  | _ n ih =>
    intro p i hmem hfound
    have hcases : d <+: mem.drop p ∨ ∃ e x c rest, mem.drop p = e ++ c :: rest ∧
        e ++ [x] <+: d ∧ x ≠ c := by
      rcases prefix_or_break d (mem.drop p) with h | h | h
      · exact .inl h
      · -- There are as many bytes as the delimiter has.
        rw [h.eq_of_length_le (by rw [List.length_drop]; omega)]
        exact .inl List.prefix_rfl
      · exact .inr h
    rcases hcases with h | ⟨e, x, c, rest, hrest, hpre, hne⟩
    · rw [findDelimFrom_match d rfl hd h] at hfound
      split at hfound
      · next hroom => exact ⟨[], .nil, h, (Option.some.inj hfound).symm, by rw [List.length_nil]; omega⟩
      · exact absurd hfound nofun
    · rw [findDelimFrom_break e hne (by rw [List.drop_zero]; exact hpre) hrest] at hfound
      split at hfound
      · next hroom =>
        obtain ⟨u, hblocks, hu, hi, hn⟩ := ih _ (by omega) (by omega) hfound
        refine ⟨e ++ c :: u, .cons hpre hne hblocks, ?_, ?_, ?_⟩
        · rw [hrest, List.append_assoc, List.prefix_append_right_inj]
          rw [drop_break hrest] at hu
          exact List.cons_prefix_cons.mpr ⟨rfl, hu⟩
        · rw [List.length_append, List.length_cons]
          omega
        · rw [List.length_append, List.length_cons]
          omega
      · exact absurd hfound nofun

/-! ## Occurrences -/

/-- The delimiter stands at `i`, in the `len` bytes at `buf`. -/
def OccursIn (mem : Str) (buf len : Nat) (d : Str) (i : Nat) : Prop :=
  buf ≤ i ∧ i + d.length ≤ buf + len ∧ d <+: mem.drop i

def First (mem : Str) (buf len : Nat) (d : Str) : Option Nat → Prop
  | some i => OccursIn mem buf len d i ∧ ∀ j, OccursIn mem buf len d j → i ≤ j
  | none => ∀ j, ¬ OccursIn mem buf len d j

/-- The search gives the first occurrence if the text before it is blocks, and as many bytes as the
delimiter has are left behind it. -/
theorem findDelim_iff {buf len : Nat} (hd : d ≠ []) (hmem : buf + len ≤ mem.length) :
    First mem buf len d (findDelim mem buf len d) ↔ ∀ i, First mem buf len d (some i) →
      Blocks d ((mem.drop buf).take (i - buf)) ∧ i + 2 * d.length ≤ buf + len := by
  -- what is found is there, and nothing before it has led the comparison astray
  have hsome : ∀ {i}, findDelim mem buf len d = some i →
      OccursIn mem buf len d i ∧ Blocks d ((mem.drop buf).take (i - buf)) ∧
      i + 2 * d.length ≤ buf + len := by
    intro i hfound
    rw [findDelim, if_neg hd] at hfound
    have hlen : d.length < len := by
      by_contra h
      rw [Nat.sub_eq_zero_of_le (by omega)] at hfound
      exact absurd hfound nofun
    obtain ⟨u, hblocks, ⟨r, hr⟩, rfl, hroom⟩ := findDelimFrom_some hd _ (by omega) hfound
    refine ⟨⟨by omega, by omega, r, ?_⟩, ?_, by omega⟩
    · rw [← List.drop_drop, ← hr, List.append_assoc, List.drop_left]
    · rw [Nat.add_sub_cancel_left, ← hr, List.append_assoc, List.take_left]
      exact hblocks
  constructor
  · intro h i hi
    cases hfound : findDelim mem buf len d with
    | none =>
      rw [hfound] at h
      exact absurd hi.1 (h i)
    | some j =>
      rw [hfound] at h
      have hij : i = j := Nat.le_antisymm (hi.2 j h.1) (h.2 i hi.1)
      rw [hij]
      exact (hsome hfound).2
  · intro h
    by_cases hex : ∃ i, OccursIn mem buf len d i
    · classical
      obtain ⟨i, hfirst⟩ : ∃ i, First mem buf len d (some i) :=
        ⟨Nat.find hex, Nat.find_spec hex, fun j hj => Nat.find_min' hex hj⟩
      obtain ⟨hblocks, hroom⟩ := h i hfirst
      obtain ⟨hlow, hhigh, hat⟩ := hfirst.1
      have hlength : ((mem.drop buf).take (i - buf)).length = i - buf := by
        rw [List.length_take, List.length_drop]
        omega
      have hbehind : (mem.drop buf).take (i - buf) ++ d <+: mem.drop buf := by
        have hsplit := List.take_append_drop (i - buf) (mem.drop buf)
        rw [List.drop_drop, Nat.add_sub_cancel' hlow] at hsplit
        conv_rhs => rw [← hsplit]
        exact (List.prefix_append_right_inj _).mpr hat
      rw [findDelim, if_neg hd, findDelimFrom_blocks hd hblocks hbehind, hlength, if_pos (by omega),
        Nat.add_sub_cancel' hlow]
      exact hfirst
    · cases hfound : findDelim mem buf len d with
      | none => exact fun j hj => hex ⟨j, hj⟩
      | some j => exact absurd ⟨j, (hsome hfound).1⟩ hex

/-- Behind one other byte, with four bytes to come. -/
theorem findDelim_first :
    First (bytes "x--bcccc") 0 8 (bytes "--b") (findDelim (bytes "x--bcccc") 0 8 (bytes "--b")) := by
  apply (findDelim_iff (by decide) (by decide)).mpr
  intro i hi
  have hle : i ≤ 1 := hi.2 1 ⟨by decide, by decide, by decide⟩
  have hone : i = 1 := by
    have hzero : i ≠ 0 := fun h => absurd (h ▸ hi.1.2.2) (by decide)
    omega
  subst hone
  exact ⟨.cons (e := []) (t := []) (x := 45) (by decide) (by decide) .nil, by decide⟩

/-- The third hyphen breaks the match, and the next one starts behind it. -/
theorem findDelim_missed :
    findDelim
      (bytes
        "---bcccc") 0 8 (bytes "--b") = none ∧ OccursIn (bytes "---bcccc") 0 8 (bytes "--b") 1 := by
  refine ⟨by decide, ?_, ?_, ?_⟩ <;> decide

end FreeSwitch.Msrp
