import Mathlib.Tactic

/-!
# The first of the largest

`FirstMax p key l a`: of the elements of `l` that have `p`, `a` has the largest key, and is the
first of those with that key.

* **`FirstMax.cons_of_le`**, **`FirstMax.cons_of_lt`** — how it changes when an element is put in
  front.
* **`FirstMax.unique`** — there is at most one.
* **`firstMax_foldr`** — a walk that goes over to every element with `p` and no smaller key finds it.
* **`Decides.iff_of_find`** — the first element with the key decides, if no larger key has `p`.
* **`Decides.of_iff_above`** — only the elements with keys from that of some element on matter.
-/

namespace Maxima

variable {α : Type*}

/-- Everything before `a` that has `p` has a smaller key, everything behind it none larger. -/
def FirstMax (p : α → Prop) (key : α → Nat) (l : List α) (a : α) : Prop :=
  ∃ before after, l = before ++ a :: after ∧ p a
    ∧ (∀ x ∈ before, p x → key x < key a) ∧ ∀ x ∈ after, p x → key x ≤ key a

variable {p : α → Prop} {key : α → Nat} {l : List α} {a b : α}

theorem FirstMax.mem (h : FirstMax p key l a) : a ∈ l := by
  obtain ⟨before, after, rfl, -, -, -⟩ := h
  exact List.mem_append_right before List.mem_cons_self

theorem FirstMax.has (h : FirstMax p key l a) : p a := by
  obtain ⟨before, after, rfl, hp, -, -⟩ := h
  exact hp

theorem FirstMax.le (h : FirstMax p key l a) {x : α} (hx : x ∈ l) (hp : p x) : key x ≤ key a := by
  obtain ⟨before, after, rfl, -, hbefore, hafter⟩ := h
  rcases List.mem_append.mp hx with hx | hx
  · exact (hbefore x hx hp).le
  · rcases List.mem_cons.mp hx with rfl | hx
    · exact le_rfl
    · exact hafter x hx hp

/-- An element in front with a key that none exceeds. -/
theorem FirstMax.cons_of_le (hp : p b) (hle : ∀ x ∈ l, p x → key x ≤ key b) :
    FirstMax p key (b :: l) b :=
  ⟨[], l, rfl, hp, fun _ hx => absurd hx List.not_mem_nil, hle⟩

/-- An element in front that does not have `p`, or has a smaller key. -/
theorem FirstMax.cons_of_lt (h : FirstMax p key l a) (hlt : p b → key b < key a) :
    FirstMax p key (b :: l) a := by
  obtain ⟨before, after, rfl, hp, hbefore, hafter⟩ := h
  refine ⟨b :: before, after, rfl, hp, fun x hx => ?_, hafter⟩
  rcases List.mem_cons.mp hx with rfl | hx
  · exact hlt
  · exact hbefore x hx

/-- With fewer elements to choose from it is the same one, if it is still among them. -/
theorem FirstMax.mono {p' : α → Prop} (h : FirstMax p key l a) (ha : p' a) (hsub : ∀ x, p' x → p x) :
    FirstMax p' key l a := by
  obtain ⟨before, after, rfl, -, hbefore, hafter⟩ := h
  exact ⟨before, after, rfl, ha, fun x hx hp => hbefore x hx (hsub x hp),
    fun x hx hp => hafter x hx (hsub x hp)⟩

/-- A walk from the back, which keeps the key of the element it holds. -/
theorem firstMax_foldr {σ : Type*} [DecidablePred p] (step : σ → α → σ) (held : σ → Nat) (take : α → σ)
    (hstep : ∀ s a, step s a = if held s ≤ key a ∧ p a then take a else s)
    (htake : ∀ a, held (take a) = key a) (start : σ) (hstart : held start = 0) (l : List α) :
    (∃ a, FirstMax p key l a ∧ l.foldr (fun a s => step s a) start = take a)
      ∨ ((∀ a ∈ l, ¬ p a) ∧ l.foldr (fun a s => step s a) start = start) := by
  induction l with
  | nil => exact Or.inr ⟨fun a ha => absurd ha List.not_mem_nil, rfl⟩
  | cons b l ih =>
    rw [List.foldr_cons, hstep]
    generalize l.foldr (fun a s => step s a) start = s at ih ⊢
    by_cases hgo : held s ≤ key b ∧ p b
    · -- the element takes over, as no key found so far is larger
      rw [if_pos hgo]
      refine Or.inl ⟨b, FirstMax.cons_of_le hgo.2 fun x hx hpx => ?_, rfl⟩
      rcases ih with ⟨a, ha, rfl⟩ | ⟨hnone, -⟩
      · exact (ha.le hx hpx).trans (htake a ▸ hgo.1)
      · exact absurd hpx (hnone x hx)
    · rw [if_neg hgo]
      rcases ih with ⟨a, ha, rfl⟩ | ⟨hnone, rfl⟩
      · refine Or.inl ⟨a, ha.cons_of_lt fun hp => ?_, rfl⟩
        have hmore : ¬ key a ≤ key b := fun hle => hgo ⟨htake a ▸ hle, hp⟩
        omega
      · refine Or.inr ⟨fun x hx => ?_, rfl⟩
        rcases List.mem_cons.mp hx with rfl | hx
        · exact fun hp => hgo ⟨hstart ▸ Nat.zero_le _, hp⟩
        · exact hnone x hx

theorem FirstMax.unique (h : FirstMax p key l a) (h' : FirstMax p key l b) : a = b := by
  obtain ⟨before, after, rfl, hp, hbefore, hafter⟩ := h
  obtain ⟨before', after', heq, hp', hbefore', hafter'⟩ := h'
  -- of two different places, one is before the other
  rcases List.append_eq_append_iff.mp heq with ⟨between, rfl, hbetween⟩ | ⟨between, rfl, hbetween⟩
  · cases between with
    | nil => exact (List.cons.inj hbetween).1
    | cons c between =>
      obtain ⟨rfl, rfl⟩ := List.cons.inj hbetween
      have hlt := hbefore' a (by simp) hp
      have hle := hafter b (by simp) hp'
      omega
  · cases between with
    | nil => exact (List.cons.inj hbetween).1.symm
    | cons c between =>
      obtain ⟨rfl, rfl⟩ := List.cons.inj hbetween
      have hlt := hbefore b (by simp) hp'
      have hle := hafter' a (by simp) hp
      omega

/-- The first element with key `k` that has `p`, if no larger key has. -/
theorem firstMax_of_find {q : α → Bool} {k : Nat} (hq : ∀ x ∈ l, q x = true ↔ p x ∧ key x = k)
    (hle : ∀ x ∈ l, p x → key x ≤ k) (hfind : l.find? q = some a) : FirstMax p key l a := by
  obtain ⟨hqa, before, after, rfl, hbefore⟩ := List.find?_eq_some_iff_append.mp hfind
  obtain ⟨hp, hkey⟩ := (hq a (by simp)).mp hqa
  refine ⟨before, after, rfl, hp, fun x hx hpx => ?_, fun x hx hpx => ?_⟩
  · -- with the same key it would have been found
    have hmem : x ∈ before ++ a :: after := List.mem_append_left _ hx
    have hle := hle x hmem hpx
    have hne : key x ≠ k := by
      intro heq
      have hqx := (hq x hmem).mpr ⟨hpx, heq⟩
      have hnot := hbefore x hx
      rw [hqx] at hnot
      exact absurd hnot (by decide)
    omega
  · have hle := hle x (List.mem_append_right _ (List.mem_cons_of_mem a hx)) hpx
    omega

/-- The value of the first of the largest, or `default` if nothing has `p`. -/
def Decides {β : Type*} (p : α → Prop) (key : α → Nat) (val : α → β) (default : β) (l : List α)
    (v : β) : Prop :=
  (∃ a, FirstMax p key l a ∧ v = val a) ∨ ((∀ x ∈ l, ¬ p x) ∧ v = default)

section Decides

variable {β : Type*} {val : α → β} {default v : β} {p' : α → Prop} {q : α → Bool} {k : Nat}

theorem Decides.iff_of_firstMax (h : FirstMax p key l a) :
    Decides p key val default l v ↔ v = val a := by
  constructor
  · rintro (⟨b, hb, rfl⟩ | ⟨hnone, -⟩)
    · rw [h.unique hb]
    · exact absurd h.has (hnone a h.mem)
  · exact fun hv => Or.inl ⟨a, h, hv⟩

theorem Decides.unique {v' : β} (h : Decides p key val default l v)
    (h' : Decides p key val default l v') : v = v' := by
  rcases h with ⟨a, ha, rfl⟩ | ⟨hnone, rfl⟩
  · exact ((iff_of_firstMax ha).mp h').symm
  · rcases h' with ⟨b, hb, -⟩ | ⟨-, rfl⟩
    · exact absurd hb.has (hnone b hb.mem)
    · rfl

theorem Decides.iff_of_find (hq : ∀ x ∈ l, q x = true ↔ p x ∧ key x = k)
    (hle : ∀ x ∈ l, p x → key x ≤ k) (hfind : l.find? q = some a) :
    Decides p key val default l v ↔ v = val a :=
  Decides.iff_of_firstMax (firstMax_of_find hq hle hfind)

/-- If all that have `p` have one key, the first of them decides. -/
theorem Decides.iff_of_key_eq (hq : ∀ x ∈ l, q x = true ↔ p x) (hkey : ∀ x ∈ l, p x → key x = k) :
    Decides p key val default l v ↔ v = ((l.find? q).map val).getD default := by
  cases hfind : l.find? q with
  | some a =>
    have hq' : ∀ x ∈ l, q x = true ↔ p x ∧ key x = k :=
      fun x hx => (hq x hx).trans ⟨fun hp => ⟨hp, hkey x hx hp⟩, And.left⟩
    exact Decides.iff_of_find hq' (fun x hx hp => (hkey x hx hp).le) hfind
  | none =>
    have hnone : ∀ x ∈ l, ¬ p x := fun x hx hp => List.find?_eq_none.mp hfind x hx ((hq x hx).mpr hp)
    constructor
    · rintro (⟨b, hb, -⟩ | ⟨-, hv⟩)
      · exact absurd hb.has (hnone b hb.mem)
      · exact hv
    · exact fun hv => Or.inr ⟨hnone, hv⟩

/-- Below the key of an element that has `p`, what else has it does not matter. -/
theorem Decides.of_iff_above (h : Decides p key val default l v) (hb : b ∈ l) (hpb : p b)
    (hiff : ∀ x ∈ l, key b ≤ key x → (p x ↔ p' x)) : Decides p' key val default l v := by
  rcases h with ⟨a, ha, rfl⟩ | ⟨hnone, -⟩
  · have hba : key b ≤ key a := ha.le hb hpb
    have hpa := (hiff a ha.mem hba).mp ha.has
    obtain ⟨before, after, rfl, -, hbefore, hafter⟩ := ha
    refine Or.inl ⟨a, ⟨before, after, rfl, hpa, fun x hx hpx => ?_, fun x hx hpx => ?_⟩, rfl⟩
    · by_cases hkey : key b ≤ key x
      · exact hbefore x hx ((hiff x (List.mem_append_left _ hx) hkey).mpr hpx)
      · omega
    · by_cases hkey : key b ≤ key x
      · exact hafter x hx ((hiff x (List.mem_append_right _ (List.mem_cons_of_mem a hx)) hkey).mpr hpx)
      · omega
  · exact absurd hpb (hnone b hb)

end Decides

end Maxima
