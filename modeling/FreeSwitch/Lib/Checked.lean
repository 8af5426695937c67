import Mathlib.Algebra.BigOperators.Fin
import Mathlib.Tactic.Linarith

/-!
# Sums in a signed word

An `int` of 32 bits has no meaning outside its range, so an addition that leaves the range gives
nothing. `addWhere` is a loop that adds those entries of a list that pass a test.

* **`addWhere_eq`** — such a loop gives the sum, if the sums of all fronts of the list are in the range.
* **`eq_of_addWhere`** — whatever it gives is the sum.
* **`sumWhere_le`**, **`le_sumWhere`** — bounds by the number of entries.
-/

namespace Checked

def InRange (z : Int) : Prop := -2 ^ 31 ≤ z ∧ z < 2 ^ 31

instance (z : Int) : Decidable (InRange z) := inferInstanceAs (Decidable (_ ∧ _))

def add (a b : Int) : Option Int := if InRange (a + b) then some (a + b) else none

theorem add_eq {a b : Int} (h : InRange (a + b)) : add a b = some (a + b) := if_pos h

theorem eq_of_add {a b c : Int} (h : add a b = some c) : c = a + b ∧ InRange c := by
  unfold add at h
  split at h
  · obtain rfl := Option.some.inj h
    exact ⟨rfl, ‹_›⟩
  · exact absurd h (by simp)

section Loops

variable {ι : Type} (g : ι → Bool) (f : ι → Int)

def addWhere (l : List ι) (z : Int) : Option Int :=
  l.foldlM (fun z i => if g i then add z (f i) else some z) z

def sumWhere (l : List ι) : Int := (l.map fun i => if g i then f i else 0).sum

theorem sumWhere_cons (i : ι) (l : List ι) :
    sumWhere g f (i :: l) = (if g i then f i else 0) + sumWhere g f l := by
  unfold sumWhere
  rw [List.map_cons, List.sum_cons]

theorem addWhere_eq {l : List ι} {z : Int} (h : ∀ l₁ l₂, l = l₁ ++ l₂ → InRange (z + sumWhere g f l₁)) :
    addWhere g f l z = some (z + sumWhere g f l) := by
  induction l generalizing z with
  | nil =>
    show some z = some (z + 0)
    rw [Int.add_zero]
  | cons i l ih =>
    -- the value after the first entry, from which the rest goes on
    have hrest : ∀ w, w = z + (if g i then f i else 0) →
        addWhere g f l w = some (w + sumWhere g f l) := by
      rintro w rfl
      refine ih fun l₁ l₂ hl => ?_
      have := h (i :: l₁) l₂ (by rw [hl, List.cons_append])
      rwa [sumWhere_cons, ← Int.add_assoc] at this
    rw [sumWhere_cons, ← Int.add_assoc]
    show (if g i then add z (f i) else some z).bind (addWhere g f l) = _
    by_cases hi : g i = true
    · have hfirst : InRange (z + f i) := by
        have := h [i] l rfl
        rwa [sumWhere_cons, if_pos hi, show sumWhere g f [] = 0 from rfl, Int.add_zero] at this
      rw [if_pos hi, if_pos hi, add_eq hfirst]
      exact hrest _ (by rw [if_pos hi])
    · rw [if_neg hi, if_neg hi]
      exact (hrest z (by rw [if_neg hi, Int.add_zero])).trans (by rw [Int.add_zero])

theorem addWhere_cons {i : ι} {l : List ι} {z w : Int} (h : addWhere g f (i :: l) z = some w) :
    ∃ y, y = z + (if g i then f i else 0) ∧ (InRange z → InRange y) ∧ addWhere g f l y = some w := by
  obtain ⟨y, hy, hw⟩ :=
    Option.bind_eq_some_iff.mp (show (if g i then add z (f i) else some z).bind _ = _ from h)
  refine ⟨y, ?_, ?_, hw⟩
  · split at hy
    next hi => rw [if_pos hi, (eq_of_add hy).1]
    next hi => rw [if_neg hi, Int.add_zero, Option.some.inj hy]
  · intro hz
    split at hy
    · exact (eq_of_add hy).2
    · exact Option.some.inj hy ▸ hz

theorem eq_of_addWhere {l : List ι} {z w : Int} (h : addWhere g f l z = some w) :
    w = z + sumWhere g f l := by
  induction l generalizing z with
  | nil =>
    obtain rfl := Option.some.inj h
    exact (Int.add_zero _).symm
  | cons i l ih =>
    obtain ⟨y, hy, -, hw⟩ := addWhere_cons g f h
    rw [ih hw, sumWhere_cons, ← Int.add_assoc, hy]

theorem inRange_of_addWhere {l : List ι} {z w : Int} (hz : InRange z) (h : addWhere g f l z = some w) :
    InRange w := by
  induction l generalizing z with
  | nil =>
    obtain rfl := Option.some.inj h
    exact hz
  | cons i l ih =>
    obtain ⟨y, -, hy, hw⟩ := addWhere_cons g f h
    exact ih (hy hz) hw

theorem sumWhere_le {b : Int} (hf : ∀ i, f i ≤ b) (l : List ι) : sumWhere g f l ≤ b * l.countP g := by
  induction l with
  | nil => simp [sumWhere]
  | cons i l ih =>
    rw [sumWhere_cons, List.countP_cons]
    have := hf i
    split <;> push_cast <;> linarith

theorem sumWhere_neg (l : List ι) : sumWhere g (fun i => -f i) l = -sumWhere g f l := by
  induction l with
  | nil => rfl
  | cons i l ih =>
    rw [sumWhere_cons, sumWhere_cons, ih]
    split <;> omega

end Loops

theorem sumWhere_finRange {n : Nat} (g : Fin n → Bool) (f : Fin n → Int) :
    sumWhere g f (List.finRange n) = ∑ i, if g i then f i else 0 :=
  (Fin.sum_univ_def _).symm

end Checked
