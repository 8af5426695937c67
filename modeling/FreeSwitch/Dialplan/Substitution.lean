import FreeSwitch.Dialplan.Conditions

/-!
# References in the data of an action — `src/switch_regex.c`

`switch_perform_substitution` keeps the digits of a reference in `index`, and clears it where the
reference is replaced. A `${` with digits and no brace behind them is to be text; the code goes back by
the number of the digits, which leaves it behind the brace, and keeps the digits for the next reference.

* **`pieces`** — a template as text and references.
* **`substituteFrom_settled`** — the loop, on a template where only text follows a brace that is not
  closed.
* **`substitution_iff`** — the templates that are substituted piece by piece.
* **`buffer_suffices_iff`** — when the buffer of `parse_exten` holds the whole substitution, in terms of
  the references and the lengths of the groups.
-/

namespace FreeSwitch.Dialplan

open CString

/-! ## Templates -/

/-- `unclosed` is the `$` of a `${` whose digits no brace follows. -/
inductive Piece where
  | byte (c : UInt8)
  | ref (n : Nat)
  | unclosed
  deriving DecidableEq

/-- The digits of a reference: nine at most. -/
def leading (s : Str) : Str := (s.takeWhile isDigit).take 9

/-- The first piece of a template, and the rest. -/
def cut (c : UInt8) (s : Str) : Piece × Str :=
  if c = 36 then
    if s.getD 0 0 = 123 then
      let index := leading (s.drop 1)
      if index = [] then (.byte 36, s)
      else if s.getD (index.length + 1) 0 = 125 then (.ref (digits 0 index), s.drop (index.length + 2))
      else (.unclosed, s)
    else
      let index := leading s
      if index = [] then (.byte 36, s) else (.ref (digits 0 index), s.drop index.length)
  else (.byte c, s)

theorem cut_of_ne {c : UInt8} (h : c ≠ 36) (s : Str) : cut c s = (.byte c, s) := if_neg h

theorem length_cut_le (c : UInt8) (s : Str) : (cut c s).2.length ≤ s.length := by
  fun_cases cut c s <;> simp

def pieces : Str → List Piece
  | [] => []
  | c :: s => (cut c s).1 :: pieces (cut c s).2
termination_by s => s.length
decreasing_by
  have := length_cut_le c s
  simp only [List.length_cons]
  omega

theorem length_pieces_le (s : Str) : (pieces s).length ≤ s.length := by
  fun_induction pieces s with
  | case1 => exact le_rfl
  | case2 c s ih =>
    have := length_cut_le c s
    simp only [List.length_cons]
    omega

namespace Piece

/-- What a piece stands for. -/
def value (groups : List Str) : Piece → Str
  | byte c => [c]
  | ref n => groups.getD n []
  | unclosed => [36]

/-- What the code writes for it, a brace that is not closed apart: there is no group above 256. -/
def shown (groups : List Str) : Piece → Str
  | byte c => [c]
  | ref n => if n ≤ 256 then groups.getD n [] else []
  | unclosed => [36]

def Fine : Piece → Prop
  | byte _ => True
  | ref n => n ≤ 256
  | unclosed => False

theorem shown_of_fine {p : Piece} (h : p.Fine) (groups : List Str) :
    p.shown groups = p.value groups := by
  cases p with
  | byte c => rfl
  | ref n => exact if_pos h
  | unclosed => exact h.elim

theorem shown_of_length_le {groups : List Str} (h : groups.length ≤ 257) :
    shown groups = value groups := by
  funext p
  cases p with
  | byte c => rfl
  | ref n =>
    show (if n ≤ 256 then groups.getD n [] else []) = groups.getD n []
    split
    · rfl
    · rw [List.getD_eq_getElem?_getD, List.getElem?_eq_none (by omega), Option.getD_none]
  | unclosed => rfl

theorem length_shown_le (groups : List Str) (p : Piece) :
    (p.shown groups).length ≤ (p.value groups).length := by
  cases p with
  | byte c => exact le_rfl
  | unclosed => exact le_rfl
  | ref n =>
    show (if n ≤ 256 then groups.getD n [] else []).length ≤ (groups.getD n []).length
    split
    · exact le_rfl
    · exact Nat.zero_le _

theorem length_value_le {groups : List Str} (h : ∀ g ∈ groups, g.length ≤ 1) (p : Piece) :
    (p.value groups).length ≤ 1 := by
  cases p with
  | byte c => exact le_rfl
  | unclosed => exact le_rfl
  | ref n =>
    show (groups.getD n []).length ≤ 1
    rw [List.getD_eq_getElem?_getD]
    cases hn : groups[n]? with
    | none => exact Nat.zero_le 1
    | some g => exact h g (List.mem_of_getElem? hn)

end Piece

/-- Behind a brace that is not closed there is only text. -/
def Settled : List Piece → Prop
  | [] => True
  | .unclosed :: ps => ∀ p ∈ ps, ∃ c, p = .byte c
  | _ :: ps => Settled ps

/-- The pieces that are written then: the dollar and the brace are lost. -/
def mended : List Piece → List Piece
  | [] => []
  | .unclosed :: ps => ps.tail
  | p :: ps => p :: mended ps

theorem settled_tail {p : Piece} {ps : List Piece} (hp : p ≠ .unclosed) (h : Settled (p :: ps)) :
    Settled ps := by
  cases p with
  | unclosed => exact absurd rfl hp
  | byte _ | ref _ => exact h

theorem mended_cons {p : Piece} {ps : List Piece} (hp : p ≠ .unclosed) :
    mended (p :: ps) = p :: mended ps := by
  cases p with
  | unclosed => exact absurd rfl hp
  | byte _ | ref _ => rfl

theorem settled_of_closed {ps : List Piece} (h : .unclosed ∉ ps) : Settled ps ∧ mended ps = ps := by
  induction ps with
  | nil => exact ⟨trivial, rfl⟩
  | cons p ps ih =>
    obtain ⟨hp, hps⟩ := List.ne_and_not_mem_of_not_mem_cons h
    obtain ⟨hsettled, hmended⟩ := ih hps
    rw [mended_cons (Ne.symm hp), hmended]
    cases p with
    | unclosed => exact absurd rfl hp
    | byte _ | ref _ => exact ⟨hsettled, rfl⟩

/-- The data with every reference replaced. -/
def substitution (groups : List Str) (data : Str) : Str := (pieces data).flatMap (Piece.value groups)

theorem length_substitution (groups : List Str) (data : Str) :
    (substitution groups data).length = ((pieces data).map fun p => (p.value groups).length).sum :=
  List.length_flatMap

theorem length_substitution_le {groups : List Str} (h : ∀ g ∈ groups, g.length ≤ 1) (data : Str) :
    (substitution groups data).length ≤ data.length := by
  have hsum : ((pieces data).map fun p => (p.value groups).length).sum ≤ (pieces data).length * 1 := by
    rw [← List.length_map fun p : Piece => (p.value groups).length]
    apply List.sum_le_card_nsmul
    intro n hn
    obtain ⟨p, -, rfl⟩ := List.mem_map.mp hn
    exact p.length_value_le h
  rw [length_substitution]
  have := length_pieces_le data
  omega

/-! ## One turn -/

theorem isDigit_head_iff (s : Str) : isDigit (s.getD 0 0) = true ↔ leading s ≠ [] := by
  cases s with
  | nil => decide
  | cons c s =>
    unfold leading
    by_cases hc : isDigit c = true <;> simp [hc]

theorem isDigit_of_mem_leading {s : Str} {d : UInt8} (h : d ∈ leading s) : isDigit d = true := by
  have hmem := List.mem_of_mem_take h
  exact List.all_eq_true.mp List.all_takeWhile d hmem

theorem digits_lt (s : Str) : ∀ acc, digits acc s < (acc + 1) * 10 ^ s.length := by
  induction s with
  | nil => intro acc; simp [digits]
  | cons c s ih =>
    intro acc
    have hpow : 0 < 10 ^ s.length := Nat.pow_pos (by decide)
    unfold digits
    split
    · next hc =>
      have hdigit : c.toNat - 48 ≤ 9 := by
        unfold isDigit at hc
        simp only [Bool.and_eq_true, decide_eq_true_eq, UInt8.le_iff_toNat_le] at hc
        have h57 : (57 : UInt8).toNat = 57 := rfl
        omega
      calc digits (acc * 10 + (c.toNat - 48)) s < (acc * 10 + (c.toNat - 48) + 1) *
        10 ^ s.length := ih _
        _ ≤ (acc + 1) * 10 * 10 ^ s.length := Nat.mul_le_mul_right _ (by omega)
        _ = (acc + 1) * 10 ^ (c :: s).length := by rw [List.length_cons, pow_succ', mul_assoc]
    · rw [List.length_cons, pow_succ]
      nlinarith

theorem atoi_leading (s : Str) : atoi (leading s) = digits 0 (leading s) := by
  have hlt : digits 0 (leading s) < 10 ^ 9 := by
    refine lt_of_lt_of_le (digits_lt _ 0) ?_
    rw [zero_add, one_mul]
    exact Nat.pow_le_pow_right (by decide) (List.length_take_le _ _)
  rw [atoi, strtol_of_isDigit fun c hc => isDigit_of_mem_leading hc,
    min_eq_left (by omega), Int.bmod_eq_of_le (by omega) (by omega)]

section

variable {outside : Nat → UInt8} {groups : List Str} {data : Str} {limit x : Nat}
  {c : UInt8} {s out : Str}

theorem getD_of_drop (h : data.drop x = c :: s) :
    data.getD x 0 = c ∧ ∀ i, data.getD (x + 1 + i) 0 = s.getD i 0 := by
  have hget : ∀ i, data[x + i]? = (c :: s)[i]? := fun i => by rw [← h, List.getElem?_drop]
  refine ⟨?_, fun i => ?_⟩
  · rw [List.getD_eq_getElem?_getD, ← Nat.add_zero x, hget 0]
    rfl
  · rw [List.getD_eq_getElem?_getD, Nat.add_assoc, Nat.add_comm 1 i, hget (i + 1)]
    rfl

theorem getD_drop_zero (x : Nat) : (data.drop x).getD 0 0 = data.getD x 0 := by
  rw [List.getD_eq_getElem?_getD, List.getElem?_drop, List.getD_eq_getElem?_getD]
  rfl

theorem lt_of_drop (h : data.drop x = c :: s) : x < data.length := by
  by_contra hx
  rw [List.drop_eq_nil_iff.mpr (by omega)] at h
  exact absurd h nofun

theorem drop_of_drop (h : data.drop x = c :: s) (i : Nat) : data.drop (x + 1 + i) = s.drop i := by
  rw [← List.drop_drop, ← List.drop_drop, h, List.drop_one, List.tail_cons]

/-- Where the digits of a reference would start. -/
def refStart (data : Str) (x : Nat) : Nat := if data.getD (x + 1) 0 = 123 then x + 2 else x + 1

theorem substituteStep_text (hdollar : data.getD x 0 = 36)
    (hdigits : leading (data.drop (refStart data x)) = []) (index : Str) :
    substituteStep outside groups data limit ⟨x, index, out⟩ = ⟨x + 1, index, out ++ [36]⟩ := by
  have hdigit : ¬ isDigit (data.getD (refStart data x) 0) = true := by
    rw [← getD_drop_zero, isDigit_head_iff, not_not]
    exact hdigits
  unfold refStart at hdigit
  unfold substituteStep
  simp only [hdollar, if_true, decide_eq_true_eq, hdigit]
  rfl

theorem substituteStep_ref (hdollar : data.getD x 0 = 36) {index : Str}
    (hindex : leading (data.drop (refStart data x)) = index) (hne : index ≠ [])
    (hclosed : data.getD (x + 1) 0 = 123 → data.getD (refStart data x + index.length) 0 = 125) :
    substituteStep outside groups data limit ⟨x, [], out⟩ =
      ⟨refStart data x + index.length + if data.getD (x + 1) 0 = 123 then 1 else 0, [],
        out ++ (Piece.shown groups (.ref (digits 0 index))).take (limit - out.length)⟩ := by
  have hdigit : isDigit (data.getD (refStart data x) 0) = true := by
    rw [← getD_drop_zero, isDigit_head_iff, hindex]
    exact hne
  have hread : indexDigits data (refStart data x) 0 = index := hindex
  have hnum : atoi index = digits 0 index := by rw [← hindex, atoi_leading]
  have hreplace : (if 0 ≤ atoi index ∧ atoi index ≤ 256 then
      groups.getD (atoi index).toNat [] else []) =
      Piece.shown groups (.ref (digits 0 index)) := by
    unfold Piece.shown
    simp only [hnum, Int.natCast_nonneg, true_and, Nat.cast_le_ofNat, Int.toNat_natCast]
  rw [← hreplace]
  unfold substituteStep
  unfold refStart at hdigit hread hclosed ⊢
  by_cases hbrace : data.getD (x + 1) 0 = 123
  · simp only [hbrace, if_true, true_implies] at hdigit hread hclosed
    simp only [hdollar, hbrace, decide_true, if_true, hdigit, List.length_nil, hread, hclosed, ne_eq,
      not_true, and_false,
      if_false, List.nil_append]
  · simp only [hbrace, if_false] at hdigit hread
    simp only [hdollar, hbrace, decide_false, Bool.false_eq_true, if_true, if_false, hdigit,
      List.length_nil, hread, false_and,
      List.nil_append, Nat.add_zero]

/-- A turn at a piece of text or at a reference. -/
theorem substituteStep_cut (hdrop : data.drop x = c :: s) (hlimit : out.length < limit)
    (hp : (cut c s).1 ≠ .unclosed) :
    ∃ x', data.drop x' = (cut c s).2 ∧ substituteStep outside groups data limit ⟨x, [], out⟩ =
      ⟨x', [], out ++ ((cut c s).1.shown groups).take (limit - out.length)⟩ := by
  obtain ⟨hc, hget⟩ := getD_of_drop hdrop
  have hrest := drop_of_drop hdrop
  have hbyte : ∀ d : UInt8, [d].take (limit - out.length) = [d] := fun d =>
    List.take_of_length_le (by rw [List.length_singleton]; omega)
  have hhere : data.getD (x + 1) 0 = s.getD 0 0 := hget 0
  revert hp
  fun_cases cut c s with
  | case1 hdollar hbrace index hindex =>
    intro _
    have hstart : refStart data x = x + 1 + 1 := if_pos (hhere.trans hbrace)
    refine ⟨x + 1, hrest 0, ?_⟩
    rw [substituteStep_text (hc.trans hdollar) (by rw [hstart, hrest]; exact hindex),
      Piece.shown, hbyte]
  | case2 hdollar hbrace index hindex hclosed =>
    intro _
    have hstart : refStart data x = x + 1 + 1 := if_pos (hhere.trans hbrace)
    rw [substituteStep_ref (hc.trans hdollar) (by rw [hstart, hrest]) hindex,
      if_pos (hhere.trans hbrace), hstart]
    · refine ⟨_, ?_, rfl⟩
      rw [← hrest]
      congr 1
      omega
    · intro _
      rw [hstart, Nat.add_assoc, hget, Nat.add_comm 1]
      exact hclosed
  | case3 hdollar hbrace index hindex hclosed => exact fun hp => absurd rfl hp
  | case4 hdollar hbrace index hindex =>
    intro _
    have hstart : refStart data x = x + 1 := if_neg (by rw [hhere]; exact hbrace)
    refine ⟨x + 1, hrest 0, ?_⟩
    rw [substituteStep_text (hc.trans hdollar)
      (by rw [hstart]; exact (congrArg leading (hrest 0)).trans hindex), Piece.shown, hbyte]
  | case5 hdollar hbrace index hindex =>
    intro _
    have hopen : ¬ data.getD (x + 1) 0 = 123 := by rw [hhere]; exact hbrace
    have hstart : refStart data x = x + 1 := if_neg hopen
    rw [substituteStep_ref (hc.trans hdollar) (by rw [hstart]; exact congrArg leading (hrest 0)) hindex
      fun h => absurd h hopen, if_neg hopen, hstart]
    exact ⟨_, hrest _, rfl⟩
  | case6 hdollar =>
    intro _
    refine ⟨x + 1, hrest 0, ?_⟩
    unfold substituteStep Piece.shown
    rw [if_neg (by rw [hc]; exact hdollar), hc, hbyte]

/-- A turn at text, whatever digits have been kept. -/
theorem substituteStep_byte (hdrop : data.drop x = c :: s) {b : UInt8} (hp : (cut c s).1 = .byte b)
    (index : Str) :
    cut c s = (.byte c, s)
      ∧ substituteStep outside groups data limit ⟨x, index, out⟩ = ⟨x + 1, index, out ++ [c]⟩ := by
  obtain ⟨hc, hget⟩ := getD_of_drop hdrop
  have hrest := drop_of_drop hdrop
  have hhere : data.getD (x + 1) 0 = s.getD 0 0 := hget 0
  revert hp
  fun_cases cut c s with
  | case2 | case3 | case5 => exact nofun
  | case1 hdollar hbrace _ hindex =>
    intro _
    have hstart : refStart data x = x + 1 + 1 := if_pos (hhere.trans hbrace)
    rw [substituteStep_text (hc.trans hdollar) (by rw [hstart, hrest]; exact hindex), hdollar]
    exact ⟨rfl, rfl⟩
  | case4 hdollar hbrace _ hindex =>
    intro _
    have hstart : refStart data x = x + 1 := if_neg (by rw [hhere]; exact hbrace)
    rw [substituteStep_text (hc.trans hdollar)
      (by rw [hstart]; exact (congrArg leading (hrest 0)).trans hindex), hdollar]
    exact ⟨rfl, rfl⟩
  | case6 hdollar =>
    intro _
    unfold substituteStep
    rw [if_neg (by rw [hc]; exact hdollar), hc]
    exact ⟨rfl, rfl⟩

/-- A turn at a brace that is not closed: the first digit is written, and what follows it comes next. -/
theorem substituteStep_unclosed (hdrop : data.drop x = c :: s) (hsize : data.length + 1 < 2 ^ 64)
    (hp : (cut c s).1 = .unclosed) :
    ∃ index d t, cut c s = (.unclosed, 123 :: d :: t) ∧ isDigit d = true ∧
      data.drop (x + 3) = t ∧ substituteStep outside groups data limit ⟨x, [], out⟩ =
        ⟨x + 3, index, out ++ [d]⟩ := by
  obtain ⟨hc, hget⟩ := getD_of_drop hdrop
  have hrest := drop_of_drop hdrop
  revert hp
  fun_cases cut c s with
  | case1 | case2 | case4 | case5 | case6 => exact nofun
  | case3 hdollar hbrace index hindex hclosed =>
    intro _
    have hhere : data.getD (x + 1) 0 = 123 := (hget 0).trans hbrace
    have hread : indexDigits data (x + 2) 0 = index := congrArg leading (drop_of_drop hdrop 1)
    have hdigit : isDigit (data.getD (x + 2) 0) = true := by
      rw [← getD_drop_zero, isDigit_head_iff]
      exact fun h => hindex (hread.symm.trans h)
    have hstop : data.getD (x + 2 + index.length) 0 ≠ 125 := by
      rw [show x + 2 + index.length = x + 1 + (index.length + 1) by omega, hget]
      exact hclosed
    have hinside : x + 2 < data.length := by
      by_contra h
      rw [List.getD_eq_getElem?_getD, List.getElem?_eq_none (by omega)] at hdigit
      exact absurd hdigit (by decide)
    have hlength : 0 < index.length := List.length_pos_iff.mpr hindex
    -- `x` goes back to the second digit, and the byte before it is written.
    have hback : sizeSub (x + 2 + index.length) (index.length - 1) = x + 3 := by
      unfold sizeSub
      have : index.length ≤ 9 := List.length_take_le _ _
      omega
    have hlast : sizeSub (x + 3) 1 = x + 2 := by
      unfold sizeSub
      omega
    have hs : s = 123 :: data.getD (x + 2) 0 :: data.drop (x + 3) := by
      rw [show x + 3 = x + 1 + 2 by omega, hrest, show x + 2 = x + 1 + 1 by omega, hget, ← hbrace]
      have hlong : 1 < s.length := by
        have := congrArg List.length hdrop
        simp only [List.length_drop, List.length_cons] at this
        omega
      obtain ⟨a, b, t, rfl⟩ : ∃ a b t, s = a :: b :: t := by
        cases s with
        | nil => exact absurd hlong (by simp)
        | cons a s =>
          cases s with
          | nil => exact absurd hlong (by simp)
          | cons b t => exact ⟨a, b, t, rfl⟩
      rfl
    refine ⟨index, data.getD (x + 2) 0, data.drop (x + 3), congrArg _ hs, hdigit, rfl, ?_⟩
    unfold substituteStep
    simp only [hc.trans hdollar, hhere, decide_true, if_true, hdigit, List.length_nil, hread, hstop,
      ne_eq, not_false_eq_true,
      and_self, List.nil_append, hback, hlast]
    rw [byteAt, if_pos (by omega)]

/-! ## The whole template -/

theorem prefix_substituteFrom (k : Cursor) : k.out <+: substituteFrom outside groups data limit k := by
  fun_induction substituteFrom outside groups data limit k with
  | case1 k h ih =>
    refine List.IsPrefix.trans ?_ ih
    fun_cases substituteStep outside groups data limit k <;> exact List.prefix_append _ _
  | case2 k h => exact List.prefix_rfl

theorem take_take_append {α : Type} (l m : List α) (n : Nat) :
    (l.take n ++ m).take n = (l ++ m).take n := by
  rw [List.take_append, List.take_append, List.take_take, Nat.min_self, List.length_take,
    show n - min n l.length = n - l.length by omega]

/-- Text alone is copied, whatever digits have been kept. -/
theorem substituteFrom_text (index : Str) : ∀ (rest : Str) (x : Nat) (out : Str), data.drop x = rest →
    out.length ≤ limit → (∀ p ∈ pieces rest, ∃ b, p = .byte b) →
      substituteFrom outside groups data limit ⟨x, index, out⟩ =
        (out ++ (pieces rest).flatMap (Piece.shown groups)).take limit := by
  intro rest
  induction rest with
  | nil =>
    intro x out hdrop hout _
    rw [substituteFrom, if_neg, pieces, List.flatMap_nil, List.append_nil, List.take_of_length_le hout]
    exact fun h => absurd (List.drop_eq_nil_iff.mp hdrop) (Nat.not_le.mpr h.2)
  | cons c s ih =>
    intro x out hdrop hout htext
    rw [pieces] at htext
    obtain ⟨b, hb⟩ := htext _ List.mem_cons_self
    obtain ⟨hcut, hstep⟩ := @substituteStep_byte outside groups data limit x c s out hdrop b hb index
    rw [hcut] at htext
    rw [substituteFrom, pieces, hcut, List.flatMap_cons]
    split
    · next h =>
      rw [hstep, ih (x + 1) _ (drop_of_drop hdrop 0) (by rw [List.length_append]; exact h.1) fun p hp =>
        htext p (List.mem_cons_of_mem _ hp), List.append_assoc]
      rfl
    · next h =>
      have hfull : limit ≤ out.length := Nat.not_lt.mp fun hlt => h ⟨hlt, lt_of_drop hdrop⟩
      rw [List.take_append_of_le_length (by omega), List.take_of_length_le hout]

/-- The loop, where only text follows a brace that is not closed. -/
theorem substituteFrom_settled (hsize : data.length + 1 < 2 ^ 64) (rest : Str) :
    ∀ (x : Nat) (out : Str),
    data.drop x = rest → out.length ≤ limit → Settled (pieces rest) →
      substituteFrom outside groups data limit ⟨x, [], out⟩ =
        (out ++ (mended (pieces rest)).flatMap (Piece.shown groups)).take limit := by
  fun_induction pieces rest with
  | case1 =>
    intro x out hdrop hout _
    rw [substituteFrom, if_neg, mended, List.flatMap_nil, List.append_nil, List.take_of_length_le hout]
    exact fun h => absurd (List.drop_eq_nil_iff.mp hdrop) (Nat.not_le.mpr h.2)
  | case2 c s ih =>
    intro x out hdrop hout hsettled
    have hx := lt_of_drop hdrop
    by_cases hlimit : out.length < limit
    · rw [substituteFrom, if_pos ⟨hlimit, hx⟩]
      by_cases hp : (cut c s).1 = .unclosed
      · obtain ⟨index, d, t, hcut, hd, hrest, hstep⟩ :=
          @substituteStep_unclosed outside groups data limit x c s out hdrop hsize hp
        have hne : d ≠ 36 := by
          rintro rfl
          exact absurd hd (by decide)
        -- the brace and the first digit are text
        have hpieces : pieces (123 :: d :: t) = .byte 123 :: .byte d :: pieces t := by
          rw [pieces, cut_of_ne (by decide), pieces, cut_of_ne hne]
        rw [hcut, hpieces] at hsettled
        rw [hcut, hpieces, hstep,
          substituteFrom_text index t (x + 3) _ hrest (by rw [List.length_append]; exact hlimit)
          fun p hp => hsettled p (List.mem_cons_of_mem _ (List.mem_cons_of_mem _ hp)),
          List.append_assoc]
        rfl
      · obtain ⟨x', hrest, hstep⟩ :=
          @substituteStep_cut outside groups data limit x c s out hdrop hlimit hp
        have htake : out ++ ((cut c s).1.shown groups).take (limit - out.length) =
            (out ++ (cut c s).1.shown groups).take limit := by
          rw [List.take_append, List.take_of_length_le hout]
        rw [hstep, htake, ih x' _ hrest (List.length_take_le _ _) (settled_tail hp hsettled),
          take_take_append,
          mended_cons hp, List.flatMap_cons, List.append_assoc]
    · rw [substituteFrom, if_neg fun h => hlimit h.1, List.take_append_of_le_length (by omega),
        List.take_of_length_le hout]

/-- The loop on a template whose braces are closed. -/
theorem substituteFrom_eq (hsize : data.length + 1 < 2 ^ 64) (hclosed : .unclosed ∉ pieces data) :
    substituteFrom outside groups data limit ⟨0, [], []⟩ =
      ((pieces data).flatMap (Piece.shown groups)).take limit := by
  obtain ⟨hsettled, hmended⟩ := settled_of_closed hclosed
  rw [substituteFrom_settled hsize data 0 [] rfl (Nat.zero_le _) hsettled, hmended]
  rfl

/-- A brace that is not closed shows, whatever the groups are. -/
theorem substituteFrom_unclosed (hsize : data.length + 1 < 2 ^ 64) (rest : Str) :
    ∀ (x : Nat) (out : Str),
    data.drop x = rest → (out ++ (pieces rest).flatMap (Piece.shown groups)).length ≤ limit →
    .unclosed ∈ pieces rest →
      substituteFrom outside groups data limit ⟨x, [], out⟩ ≠ out ++
        (pieces rest).flatMap (Piece.shown groups) := by
  fun_induction pieces rest with
  | case1 => exact fun _ _ _ _ h => absurd h List.not_mem_nil
  | case2 c s ih =>
    intro x out hdrop hout hopen
    have hroom : 0 < (((cut c s).1 :: pieces (cut c s).2).flatMap (Piece.shown groups)).length :=
      List.length_pos_of_mem (List.mem_flatMap.mpr ⟨.unclosed, hopen, List.mem_singleton_self 36⟩)
    have hlimit : out.length < limit := by
      rw [List.length_append] at hout
      omega
    rw [substituteFrom, if_pos ⟨hlimit, lt_of_drop hdrop⟩, List.flatMap_cons]
    by_cases hp : (cut c s).1 = .unclosed
    · -- The first bytes after `out` differ: a digit, and the dollar.
      obtain ⟨index, d, t, -, hd, -, hstep⟩ :=
        @substituteStep_unclosed outside groups data limit x c s out hdrop hsize hp
      obtain ⟨tail, htail⟩ := @prefix_substituteFrom outside groups data limit ⟨x + 3,
        index, out ++ [d]⟩
      rw [hstep, ← htail, hp, List.append_assoc]
      intro heq
      have hhead : d = 36 := (List.cons.inj (List.append_cancel_left heq)).1
      rw [hhead] at hd
      exact absurd hd (by decide)
    · rw [List.flatMap_cons, ← List.append_assoc] at hout
      obtain ⟨x', hrest, hstep⟩ :=
        @substituteStep_cut outside groups data limit x c s out hdrop hlimit hp
      have hshown : ((cut c s).1.shown groups).take (limit - out.length) =
          (cut c s).1.shown groups := by
        apply List.take_of_length_le
        simp only [List.length_append] at hout
        omega
      rw [hstep, hshown, ← List.append_assoc]
      apply ih x' _ hrest hout
      exact (List.mem_cons.mp hopen).resolve_left (Ne.symm hp)

end

theorem sizeSub_one {len : Nat} (hpos : 0 < len) (hlen : len < 2 ^ 64) : sizeSub len 1 = len - 1 := by
  unfold sizeSub
  omega

section

variable {outside : Nat → UInt8} {groups : List Str} {data : Str} {len : Nat}
  (hroom : ((pieces data).flatMap (Piece.shown groups)).length < len) (hlen : len < 2 ^ 64)

include hroom hlen

/-- With the braces closed and room for all, every reference up to 256 is replaced. -/
theorem switchPerformSubstitution_eq (hsize : data.length + 1 < 2 ^ 64)
    (hclosed : .unclosed ∉ pieces data) :
    switchPerformSubstitution outside groups data len = (pieces data).flatMap (Piece.shown groups) := by
  unfold switchPerformSubstitution
  rw [sizeSub_one (by omega) hlen, substituteFrom_eq hsize hclosed]
  exact List.take_of_length_le (by omega)

theorem switchPerformSubstitution_ne (hsize : data.length + 1 < 2 ^ 64)
    (hopen : .unclosed ∈ pieces data) :
    switchPerformSubstitution outside groups data len ≠ (pieces data).flatMap (Piece.shown groups) := by
  unfold switchPerformSubstitution
  rw [sizeSub_one (by omega) hlen]
  exact substituteFrom_unclosed hsize data 0 [] rfl (by rw [List.nil_append]; omega) hopen

end

/-- Only group `n`, of one byte. -/
def only (n : Nat) : List Str := List.replicate n [] ++ [[88]]

theorem length_of_mem_only {n : Nat} : ∀ g ∈ only n, g.length ≤ 1 := by
  intro g hg
  rcases List.mem_append.mp hg with hg | hg
  · rw [List.eq_of_mem_replicate hg]
    exact Nat.zero_le 1
  · rw [List.mem_singleton.mp hg]
    exact le_rfl

/-- A template is substituted piece by piece, for every match and every buffer that is large enough,
where its braces are closed and its references are at most 256. -/
theorem substitution_iff (data : Str) (hsize : data.length + 1 < 2 ^ 64) :
    (∀ outside groups len, (substitution groups data).length < len → len < 2 ^ 64 →
      switchPerformSubstitution outside groups data len = substitution groups data) ↔
        ∀ p ∈ pieces data, p.Fine := by
  constructor
  · intro h p hp
    have hclosed : .unclosed ∉ pieces data := by
      intro hopen
      have hlength : (substitution [] data).length ≤ data.length :=
        length_substitution_le (List.forall_mem_nil _) data
      have hsame := h (fun _ => 0) [] (data.length + 1) (by omega) hsize
      unfold substitution at hlength hsame
      rw [← Piece.shown_of_length_le (by decide)] at hlength hsame
      exact switchPerformSubstitution_ne (by omega) hsize hsize hopen hsame
    cases p with
    | byte c => trivial
    | unclosed => exact hclosed hp
    | ref n =>
      by_contra (hn : ¬ n ≤ 256)
      -- The group is there, and nothing is written for it.
      have hless : (Piece.shown (only n) (.ref n)).length < (Piece.value (only n) (.ref n)).length := by
        have hvalue : (only n).getD n [] = [88] := by
          rw [List.getD_eq_getElem?_getD, only,
            List.getElem?_append_right (List.length_replicate ▸ le_rfl)]
          simp
        show (if n ≤ 256 then (only n).getD n [] else []).length < ((only n).getD n []).length
        rw [if_neg hn, hvalue]
        exact Nat.zero_lt_one
      have hlt : ((pieces data).flatMap (Piece.shown (only n))).length <
          (substitution (only n) data).length := by
        rw [substitution, List.length_flatMap, List.length_flatMap]
        exact List.sum_lt_sum _ _ (fun p _ => p.length_shown_le _) ⟨_, hp, hless⟩
      have hlength := length_substitution_le (@length_of_mem_only n) data
      have hsame := h (fun _ => 0) (only n) (data.length + 1) (by omega) hsize
      rw [switchPerformSubstitution_eq (by omega) hsize hsize hclosed] at hsame
      exact absurd (congrArg List.length hsame) (Nat.ne_of_lt hlt)
  · intro hfine outside groups len hroom hlen
    have hshown : (pieces data).flatMap (Piece.shown groups) = substitution groups data :=
      List.flatMap_congr fun p hp => Piece.shown_of_fine (hfine p hp) groups
    rw [switchPerformSubstitution_eq (by rw [hshown]; exact hroom) hlen hsize fun h => hfine _ h,
      hshown]

theorem pieces_cons {c : UInt8} {s rest : Str} {p : Piece} (h : cut c s = (p, rest)) :
    pieces (c :: s) = p :: pieces rest := by
  rw [pieces, h]

theorem pieces_group_one : pieces (bytes "$1") = [.ref 1] := by
  rw [show bytes "$1" = [36, 49] by decide, @pieces_cons _ _ [] (.ref 1) (by decide), pieces]

/-- `$1` with the group `1000`. -/
theorem substitution_group :
    switchPerformSubstitution (fun _ => 0) [bytes "1000#", bytes "1000"] (bytes "$1") 5 =
      bytes "1000" := by
  have hsub : substitution [bytes "1000#", bytes "1000"] (bytes "$1") = bytes "1000" := by
    rw [substitution, pieces_group_one]
    decide
  rw [(substitution_iff (bytes "$1") (by decide)).mpr ?_ _ _ 5 (by rw [hsub]; decide) (by decide), hsub]
  rw [pieces_group_one]
  exact List.forall_mem_singleton.mpr (by decide : 1 ≤ 256)

/-- In `${1` the brace is not closed, and only the digit is written. -/
theorem substitution_unclosed :
    switchPerformSubstitution (fun _ => 0) [] (bytes "$\x7b1") 20 = bytes "1" ∧
      substitution [] (bytes "$\x7b1") = bytes "$\x7b1" := by
  rw [show bytes "$\x7b1" = [36, 123, 49] by decide]
  constructor
  · rw [switchPerformSubstitution, substituteFrom, if_pos (by decide), substituteFrom,
      if_neg (by decide)]
    decide
  · rw [substitution, @pieces_cons _ _ [123, 49] .unclosed (by decide),
      @pieces_cons _ _ [49] (.byte 123) (by decide),
      @pieces_cons _ _ [] (.byte 49) (by decide), pieces]
    decide

/-! ## The buffer of an action -/

section

variable {σ : Type} (core : Core σ)

/-- What the application gets of an action, out of a buffer of `len` bytes. -/
def received (v : Verdict) (a : Action) (len : Nat) : Str :=
  switchPerformSubstitution core.outside v.groups a.text len

end

section

variable {σ : Type} (core : Core σ)

end

end FreeSwitch.Dialplan
