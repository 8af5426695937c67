import FreeSwitch.Lib.Run
import Mathlib.Algebra.BigOperators.Fin

/-!
# Budgets that are spent one unit at a time

Each index has a budget. A draw spends one unit of some budget that is left; when nothing is left at
all, every budget is filled up again first. Which of the budgets is drawn from is left open.

* **`Draws`** — one draw.
* **`count_block`** — whatever the choices, a block of as many draws as the budgets amount to draws from
  each index exactly its budget.
-/

namespace Budgets

open Runs

variable {ι : Type*} [DecidableEq ι]

/-- A unit of the budget of `i` is spent. -/
def Spends (b : ι → Nat) (i : ι) (b' : ι → Nat) : Prop := 0 < b i ∧ b' = Function.update b i (b i - 1)

variable {b : ι → Nat}

theorem count_of_spends {b' : ι → Nat} {l : List ι} (h : Run Spends b l b') (i : ι) :
    l.count i + b' i = b i := by
  induction h with
  | nil _ => exact Nat.zero_add _
  | @cons b b₁ b' a l hstep _ ih =>
    obtain ⟨hpos, rfl⟩ := hstep
    by_cases hi : a = i
    · subst hi
      rw [Function.update_self] at ih
      rw [List.count_cons_self]
      omega
    · rw [Function.update_of_ne (Ne.symm hi)] at ih
      rw [List.count_cons_of_ne hi, ih]

variable [Fintype ι] (w : ι → Nat)

/-- The budgets as they are drawn from: filled up if nothing is left. -/
def filled (b : ι → Nat) : ι → Nat := if ∀ i, b i = 0 then w else b

/-- A unit of the budget of `i` is drawn. -/
def Draws (b : ι → Nat) (i : ι) (b' : ι → Nat) : Prop := Spends (filled w b) i b'

theorem sum_of_spends {b' : ι → Nat} {i : ι} (h : Spends b i b') : ∑ j, b' j + 1 = ∑ j, b j := by
  obtain ⟨hpos, rfl⟩ := h
  have hrest := Finset.sum_eq_add_sum_sdiff_singleton_of_mem (Finset.mem_univ i) b
  rw [Finset.sum_update_of_mem (Finset.mem_univ i), hrest]
  omega

omit [DecidableEq ι] in
theorem filled_of_pos (h : 0 < ∑ i, b i) : filled w b = b := by
  refine if_neg fun hzero => ?_
  rw [Finset.sum_eq_zero fun i _ => hzero i] at h
  exact Nat.lt_irrefl 0 h

/-- As long as something is left of the budgets, nothing is filled up. -/
theorem spends_of_draws {b' : ι → Nat} {l : List ι} (h : Run (Draws w) b l b') (hne : l ≠ [])
    (hle : l.length ≤ ∑ i, filled w b i) : Run Spends (filled w b) l b' := by
  induction h with
  | nil _ => exact absurd rfl hne
  | @cons b b₁ b' a l hstep hrest ih =>
    have hsum := sum_of_spends hstep
    rw [List.length_cons] at hle
    cases l with
    | nil =>
      cases hrest
      exact .cons hstep (.nil _)
    | cons c l =>
      have hpos : 0 < ∑ i, b₁ i := by
        rw [List.length_cons] at hle
        omega
      rw [filled_of_pos w hpos] at ih
      exact .cons hstep (ih (List.cons_ne_nil c l) (by omega))

variable {w}

/-- Nothing or everything is spent. -/
def Between (w b : ι → Nat) : Prop := b = w ∨ ∀ i, b i = 0

omit [DecidableEq ι] in
theorem Between.filled (h : Between w b) : filled w b = w := by
  unfold Budgets.filled
  rcases h with rfl | h
  · exact ite_self b
  · exact if_pos h

/-- One block. -/
theorem Between.block {b' : ι → Nat} {l : List ι} (hb : Between w b) (h : Run (Draws w) b l b')
    (hlen : l.length = ∑ i, w i) : (∀ i, l.count i = w i) ∧ Between w b' := by
  rcases List.eq_nil_or_concat l with rfl | ⟨l', a, hl⟩
  · -- there is nothing to draw
    have hzero : ∀ i, w i = 0 := fun i => Finset.sum_eq_zero_iff.mp hlen.symm i (Finset.mem_univ i)
    cases h
    exact ⟨fun i => (hzero i).symm, hb⟩
  have hspends := spends_of_draws w h (by rw [hl]; simp) (by rw [hb.filled, hlen])
  rw [hb.filled] at hspends
  have hcount := count_of_spends hspends
  have hsum : l.length + ∑ i, b' i = ∑ i, w i := by
    clear hcount hlen hl h hb
    induction hspends with
    | nil _ => exact Nat.zero_add _
    | cons hstep _ ih =>
      rw [← sum_of_spends hstep, ← ih, List.length_cons]
      omega
  have hleft : ∑ i, b' i = 0 := by omega
  have hzero : ∀ i, b' i = 0 := fun i => Finset.sum_eq_zero_iff.mp hleft i (Finset.mem_univ i)
  exact ⟨fun i => by rw [← hcount i, hzero i, Nat.add_zero], .inr hzero⟩

/-- Every block of draws is exact. -/
theorem count_block {k : Nat} {b' : ι → Nat} {l : List ι} (hb : Between w b) (h : Run (Draws w) b l b')
    (hlen : l.length = (k + 1) * ∑ i, w i) (i : ι) : (l.drop (k * ∑ i, w i)).count i = w i := by
  induction k generalizing b l with
  | zero =>
    rw [Nat.zero_mul, List.drop_zero]
    exact (hb.block h (hlen.trans (Nat.one_mul _))).1 i
  | succ k ih =>
    -- the first block is cut off
    have hfirst : (l.take (∑ i, w i)).length = ∑ i, w i := by
      rw [List.length_take, hlen]
      exact Nat.min_eq_left (Nat.le_mul_of_pos_left _ (Nat.succ_pos _))
    rw [← List.take_append_drop (∑ i, w i) l] at h
    obtain ⟨b₁, htake, hdrop⟩ := h.split
    have hlen' : (l.drop (∑ i, w i)).length = (k + 1) * ∑ i, w i := by
      rw [List.length_drop, hlen, Nat.succ_mul (k + 1), Nat.add_sub_cancel]
    have hrest := ih (hb.block htake hfirst).2 hdrop hlen'
    rwa [List.drop_drop, Nat.add_comm, ← Nat.succ_mul] at hrest

end Budgets
