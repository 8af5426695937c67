import Mathlib.Tactic

/-!
# Chained buckets

A table of `n` chains is a function from indices to lists, of which the first `n` count. What it
holds is `entries n t`, chain by chain.

* **`perm_entries_push`** — putting an entry in front of a chain adds it.
* **`entries_filter`** — filtering one chain filters the whole, if the filter lets the entries of
  the other chains through.
* **`perm_entries_rehash`** — moving every entry of a table to another one keeps what is held.
-/

namespace Buckets

variable {α : Type*}

/-- What the chains `0, …, n - 1` hold. -/
def entries (n : Nat) (t : Nat → List α) : List α := (List.range n).flatMap t

/-- `x` in front of chain `i`. -/
def push (t : Nat → List α) (i : Nat) (x : α) : Nat → List α := Function.update t i (x :: t i)

theorem mem_entries {n : Nat} {t : Nat → List α} {x : α} : x ∈ entries n t ↔ ∃ i < n, x ∈ t i := by
  simp only [entries, List.mem_flatMap, List.mem_range]

theorem entries_succ (n : Nat) (t : Nat → List α) : entries (n + 1) t = entries n t ++ t n := by
  rw [entries, List.range_succ, List.flatMap_append, List.flatMap_singleton]
  rfl

theorem sublist_entries {n i : Nat} (h : i < n) (t : Nat → List α) : (t i).Sublist (entries n t) := by
  rw [entries, List.flatMap_def]
  exact List.sublist_flatten_of_mem (List.mem_map_of_mem (List.mem_range.mpr h))

/-- A chain that does not count may change. -/
theorem entries_update_of_le {n i : Nat} (h : n ≤ i) (t : Nat → List α) (chain : List α) :
    entries n (Function.update t i chain) = entries n t := by
  apply List.flatMap_congr
  intro j hj
  have hne : j ≠ i := by
    have hlt := List.mem_range.mp hj
    omega
  exact Function.update_of_ne hne ..

theorem perm_entries_push {n i : Nat} (h : i < n) (t : Nat → List α) (x : α) :
    (entries n (push t i x)).Perm (x :: entries n t) := by
  induction n with
  | zero => exact absurd h (Nat.not_lt_zero i)
  | succ n ih =>
    rw [entries_succ, entries_succ]
    by_cases heq : i = n
    · subst heq
      rw [push, entries_update_of_le le_rfl, Function.update_self]
      exact List.perm_middle
    · have hn : push t i x n = t n := Function.update_of_ne (fun h => heq h.symm) _ t
      rw [hn]
      exact (ih (by omega)).append_right (t n)

/-- Filtering chain `i` is filtering the whole, if the filter keeps what the other chains hold. -/
theorem entries_filter {n i : Nat} (h : i < n) (t : Nat → List α) (p : α → Bool)
    (hkeep : ∀ j < n, j ≠ i → ∀ x ∈ t j, p x = true) :
    entries n (Function.update t i ((t i).filter p)) = (entries n t).filter p := by
  rw [entries, entries, List.filter_flatMap]
  apply List.flatMap_congr
  intro j hj
  by_cases heq : j = i
  · subst heq
    exact Function.update_self ..
  · rw [Function.update_of_ne heq]
    exact (List.filter_eq_self.mpr (hkeep j (List.mem_range.mp hj) heq)).symm

/-! ## Moving all entries -/

/-- Every entry of `chain` from its front on, to the front of the chain `index` gives. -/
def rehashChain (index : α → Nat) : List α → (Nat → List α) → Nat → List α
  | [], newtable => newtable
  | e :: chain, newtable => rehashChain index chain (push newtable (index e) e)

/-- All chains of the table of `n` chains, one after the other. -/
def rehash (index : α → Nat) (n : Nat) (t : Nat → List α) (newtable : Nat → List α) : Nat → List α :=
  (List.range n).foldl (fun newtable i => rehashChain index (t i) newtable) newtable

variable {index : α → Nat} {m : Nat}

theorem perm_entries_rehashChain (hindex : ∀ e, index e < m) (chain : List α)
    (newtable : Nat → List α) :
    (entries m (rehashChain index chain newtable)).Perm (chain ++ entries m newtable) := by
  induction chain generalizing newtable with
  | nil => exact List.Perm.refl _
  | cons e chain ih =>
    have hpush := (perm_entries_push (hindex e) newtable e).append_left chain
    exact ((ih _).trans hpush).trans List.perm_middle

theorem perm_entries_rehash (hindex : ∀ e, index e < m) (n : Nat) (t newtable : Nat → List α) :
    (entries m (rehash index n t newtable)).Perm (entries n t ++ entries m newtable) := by
  induction n with
  | zero => exact List.Perm.refl _
  | succ n ih =>
    rw [rehash, List.range_succ, List.foldl_append, entries_succ]
    show (entries m (rehashChain index (t n) (rehash index n t newtable))).Perm _
    refine (perm_entries_rehashChain hindex (t n) _).trans ?_
    rw [List.append_assoc]
    exact ((ih.append_left (t n)).trans (List.perm_append_comm_assoc ..))

/-- Every entry stands in the chain its index names. -/
def Placed (index : α → Nat) (t : Nat → List α) : Prop := ∀ i, ∀ e ∈ t i, index e = i

theorem Placed.push {t : Nat → List α} (h : Placed index t) (e : α) :
    Placed index (push t (index e) e) := by
  intro i x hx
  by_cases heq : i = index e
  · subst heq
    rw [Buckets.push, Function.update_self] at hx
    rcases List.mem_cons.mp hx with rfl | hx
    · rfl
    · exact h _ x hx
  · rw [Buckets.push, Function.update_of_ne heq] at hx
    exact h i x hx

theorem Placed.rehashChain (chain : List α) {t : Nat → List α} (h : Placed index t) :
    Placed index (rehashChain index chain t) := by
  induction chain generalizing t with
  | nil => exact h
  | cons e chain ih => exact ih (h.push e)

theorem Placed.rehash (n : Nat) (t : Nat → List α) {newtable : Nat → List α}
    (h : Placed index newtable) :
    Placed index (rehash index n t newtable) := by
  induction n with
  | zero => exact h
  | succ n ih =>
    rw [Buckets.rehash, List.range_succ, List.foldl_append]
    exact ih.rehashChain (t n)

end Buckets
