import Mathlib.Data.List.Basic

/-!
# Bottom-up merge sort

A list is taken as runs of a width, each in order by a key. A pass merges neighbouring runs, so that the
runs get twice as long; a pass with one merge leaves one run.

* **`merge_filter`** — a merge is stable.
* **`Pass`** — what a pass does; **`Pass.perm`**, **`Pass.runs`**, **`Pass.filter`**.
* **`Passes`** — the sort; **`Passes.ordered`**, **`Passes.stable`**, **`Passes.unique`**.
-/

namespace BottomUp

variable {α : Type*} (key : α → Nat)

def byKey (a b : α) : Bool := decide (key a ≤ key b)

def Ordered (l : List α) : Prop := l.Pairwise fun a b => key a ≤ key b

theorem merge_ordered {l m : List α} (hl : Ordered key l) (hm : Ordered key m) :
    Ordered key (l.merge m (byKey key)) := by
  have htrans : ∀ a b c, byKey key a b = true → byKey key b c = true → byKey key a c = true := by
    intro a b c hab hbc
    exact decide_eq_true (Nat.le_trans (of_decide_eq_true hab) (of_decide_eq_true hbc))
  have htotal : ∀ a b, (byKey key a b || byKey key b a) = true := by
    intro a b
    rcases Nat.le_total (key a) (key b) with h | h <;> simp [byKey, h]
  have h := List.pairwise_merge htrans htotal l m (hl.imp decide_eq_true) (hm.imp decide_eq_true)
  exact h.imp of_decide_eq_true

/-- The elements with one key stay in their order. -/
theorem merge_filter {l m : List α} (hl : Ordered key l) (hm : Ordered key m) (k : Nat) :
    (l.merge m (byKey key)).filter (fun a => key a = k) = l.filter (fun a => key a = k) ++
      m.filter (fun a => key a = k) := by
  induction l generalizing m with
  | nil => simp
  | cons a l ihl =>
    induction m with
    | nil => simp
    | cons b m ihm =>
      rw [List.cons_merge_cons]
      split
      · by_cases hk : key a = k <;> simp [hk, ihl hl.of_cons hm]
      · next hab =>
        have hlt : key b < key a := by simpa [byKey] using hab
        by_cases hk : key b = k
        · -- everything in `l` is behind `b`
          have hnone : (a :: l).filter (fun a => key a = k) = [] := by
            rw [List.filter_eq_nil_iff]
            intro c hc
            have hac : key a ≤ key c := by
              rcases List.mem_cons.mp hc with rfl | hc
              · exact Nat.le_refl _
              · exact List.rel_of_pairwise_cons hl hc
            simpa using (by omega : key c ≠ k)
          rw [List.filter_cons_of_pos (by simpa using hk), ihm hm.of_cons, hnone,
            List.filter_cons_of_pos (by simpa using hk)]
          rfl
        · have hskip : ∀ t : List α,
              (b :: t).filter (fun a => key a = k) = t.filter fun a => key a = k :=
            fun t => List.filter_cons_of_neg (by simpa using hk)
          rw [hskip, ihm hm.of_cons, hskip]

/-! ## Passes -/

/-- The runs of width `w` of a list are merged in pairs; the number of merges. -/
inductive Pass (w : Nat) : List α → List α → Nat → Prop where
  | nil : Pass w [] [] 0
  | cons {l out : List α} {n : Nat} (ne : l ≠ []) (h : Pass w (l.drop (w + w)) out n) :
      Pass w l ((l.take w).merge ((l.drop w).take w) (byKey key) ++ out) (n + 1)

/-- Every run of width `w` is in order. -/
def Runs (w : Nat) (l : List α) : Prop := ∀ k, Ordered key ((l.drop (k * w)).take w)

variable {key} {w n : Nat} {l out : List α}

theorem runs_one (l : List α) : Runs key 1 l := by
  intro k
  cases l.drop (k * 1) with
  | nil => exact List.Pairwise.nil
  | cons a l => exact List.pairwise_singleton _ a

theorem Runs.drop (h : Runs key w l) : Runs key w (l.drop (w + w)) := by
  intro k
  have := h (k + 2)
  rw [List.drop_drop]
  rwa [Nat.add_mul, Nat.two_mul, Nat.add_comm] at this

theorem Runs.fst (h : Runs key w l) : Ordered key (l.take w) := by simpa using h 0

theorem Runs.snd (h : Runs key w l) : Ordered key ((l.drop w).take w) := by simpa using h 1

theorem split_runs (w : Nat) (l : List α) : l.take w ++ ((l.drop w).take w ++ l.drop (w + w)) = l := by
  rw [← List.drop_drop, List.take_append_drop, List.take_append_drop]

theorem Pass.perm (h : Pass key w l out n) : out.Perm l := by
  induction h with
  | nil => exact List.Perm.refl []
  | @cons l out n _ _ ih =>
    have hmerge := (@List.merge_perm_append _ (byKey key) (l.take w) ((l.drop w).take w)).append ih
    rwa [List.append_assoc, split_runs] at hmerge

theorem Pass.filter (h : Pass key w l out n) (hruns : Runs key w l) (k : Nat) :
    out.filter (fun a => key a = k) = l.filter (fun a => key a = k) := by
  induction h with
  | nil => rfl
  | @cons l out n _ _ ih =>
    rw [List.filter_append, merge_filter key hruns.fst hruns.snd, ih hruns.drop, ← List.filter_append,
      ← List.filter_append,
      List.append_assoc, split_runs]

/-- A merge makes a run of twice the width, unless it is the last. -/
theorem Pass.full (h : Pass key w (l.drop (w + w)) out n) :
    ((l.take w).merge ((l.drop w).take w) (byKey key)).length = w + w ∨
      ((l.take w).merge ((l.drop w).take w) (byKey key)).length ≤ w + w ∧ out = [] := by
  rw [List.length_merge, List.length_take, List.length_take, List.length_drop]
  by_cases hlong : w + w ≤ l.length
  · left
    omega
  · right
    rw [List.drop_of_length_le (by omega)] at h
    refine ⟨by omega, ?_⟩
    cases h with
    | nil => rfl
    | cons ne _ => exact absurd rfl ne

theorem Pass.runs (h : Pass key w l out n) (hruns : Runs key w l) : Runs key (w + w) out := by
  induction h with
  | nil =>
    intro k
    rw [List.drop_nil, List.take_nil]
    exact List.Pairwise.nil
  | @cons l out n _ h ih =>
    have hmerge := merge_ordered key hruns.fst hruns.snd
    have hfull := h.full
    generalize (l.take w).merge ((l.drop w).take w) (byKey key) = merged at *
    intro k
    cases k with
    | zero =>
      -- the first run is the first merge, which nothing follows if it is short
      rw [Nat.zero_mul, List.drop_zero]
      rcases hfull with hlength | ⟨hle, rfl⟩
      · rw [List.take_append_of_le_length (by omega), List.take_of_length_le (by omega)]
        exact hmerge
      · rw [List.append_nil, List.take_of_length_le hle]
        exact hmerge
    | succ k =>
      -- the others are the runs of the rest
      rw [Nat.succ_mul, Nat.add_comm (k * (w + w)), ← List.drop_drop]
      rcases hfull with hlength | ⟨hle, rfl⟩
      · rw [← hlength, List.drop_left, hlength]
        exact ih hruns.drop k
      · rw [List.append_nil, List.drop_of_length_le hle, List.drop_nil, List.take_nil]
        exact List.Pairwise.nil

theorem Pass.eq_nil (h : Pass key w l out 0) : l = [] := by
  cases h
  rfl

theorem Pass.length_le (h : Pass key w l out n) (hn : n ≤ 1) : l.length ≤ w + w := by
  cases h with
  | nil => exact Nat.zero_le _
  | @cons _ out n _ h =>
    obtain rfl : n = 0 := by omega
    exact List.drop_eq_nil_iff.mp h.eq_nil

theorem Pass.lt_length (h : Pass key w l out n) (hn : 1 < n) : w + w < l.length := by
  cases h with
  | nil => omega
  | @cons _ out n _ h =>
    by_contra hshort
    rw [List.drop_of_length_le (by omega)] at h
    cases h with
    | nil => omega
    | cons ne _ => exact ne rfl

/-- The last pass leaves one run. -/
theorem Pass.ordered (h : Pass key w l out n) (hruns : Runs key w l) (hn : n ≤ 1) :
    Ordered key out := by
  have hlast : out.length ≤ w + w := by
    rw [h.perm.length_eq]
    exact h.length_le hn
  have := h.runs hruns 0
  rwa [Nat.zero_mul, List.drop_zero, List.take_of_length_le hlast] at this

theorem Pass.unique {out' : List α} {n' : Nat} (h : Pass key w l out n) (h' : Pass key w l out' n') :
    out = out' ∧ n = n' := by
  induction h generalizing out' n' with
  | nil =>
    cases h' with
    | nil => exact ⟨rfl, rfl⟩
    | cons ne _ => exact absurd rfl ne
  | cons ne _ ih =>
    cases h' with
    | nil => exact absurd rfl ne
    | cons _ h' =>
      obtain ⟨rfl, rfl⟩ := ih h'
      exact ⟨rfl, rfl⟩

/-! ## The whole sort -/

/-- Passes follow each other with twice the width, until one has done at most one merge. -/
inductive Passes (key : α → Nat) : Nat → List α → List α → Prop where
  | last {w n : Nat} {l out : List α} (h : Pass key w l out n) (hn : n ≤ 1) : Passes key w l out
  | more {w n : Nat} {l out l' : List α} (h : Pass key w l out n) (hn : 1 < n)
      (rest : Passes key (w + w) out l') :
      Passes key w l l'

variable {l' : List α}

theorem Passes.perm (h : Passes key w l l') : l'.Perm l := by
  induction h with
  | last h _ => exact h.perm
  | more h _ _ ih => exact ih.trans h.perm

theorem Passes.ordered (h : Passes key w l l') (hruns : Runs key w l) : Ordered key l' := by
  induction h with
  | last h hn => exact h.ordered hruns hn
  | more h _ _ ih => exact ih (h.runs hruns)

theorem Passes.filter (h : Passes key w l l') (hruns : Runs key w l) (k : Nat) :
    l'.filter (fun a => key a = k) = l.filter fun a => key a = k := by
  induction h with
  | last h _ => exact h.filter hruns k
  | more h _ _ ih => exact (ih (h.runs hruns)).trans (h.filter hruns k)

theorem Passes.unique {m : List α} (h : Passes key w l l') (h' : Passes key w l m) : l' = m := by
  induction h generalizing m with
  | last h hn =>
    cases h' with
    | last h' _ => exact (h.unique h').1
    | more h' hn' _ =>
      have := (h.unique h').2
      omega
  | more h hn _ ih =>
    cases h' with
    | last h' hn' =>
      have := (h.unique h').2
      omega
    | more h' _ rest =>
      obtain ⟨rfl, rfl⟩ := h.unique h'
      exact ih rest

/-- What stands in the order of the sort and was not in the other order before stays so. -/
theorem Passes.stable (h : Passes key w l l') (hruns : Runs key w l) {a b : α} (hab : [a, b].Sublist l)
    (hkey : key a ≤ key b) : [a, b].Sublist l' := by
  rcases Nat.lt_or_eq_of_le hkey with hlt | heq
  · have ha : a ∈ l' := h.perm.mem_iff.mpr (hab.subset (by simp))
    have hb : b ∈ l' := h.perm.mem_iff.mpr (hab.subset (by simp))
    have hordered := h.ordered hruns
    obtain ⟨as, bs, rfl⟩ := List.append_of_mem ha
    rcases List.mem_append.mp hb with hb | hb
    · -- nothing before `a` has a greater key
      have := (List.pairwise_append.mp hordered).2.2 b hb a List.mem_cons_self
      omega
    · rcases List.mem_cons.mp hb with rfl | hb
      · omega
      · exact ((List.singleton_sublist.mpr hb).cons_cons a).trans
          (List.sublist_append_right as (a :: bs))
  · -- with equal keys both are kept when the list is filtered by the key
    have hfilter := hab.filter fun c => key c = key a
    rw [← h.filter hruns (key a)] at hfilter
    rw [List.filter_eq_self.mpr (by simp [heq])] at hfilter
    exact hfilter.trans List.filter_sublist

end BottomUp
