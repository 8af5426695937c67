import Mathlib.Tactic

/-!
# Runs of a labelled step relation

A component is driven by calls: `step s a s'` says that call `a`, made in state `s`, can
leave the component in state `s'`. A relation rather than a function, because a call may
depend on choices that are not part of its arguments (an allocation that fails, a random
number), and because a call that never returns has no `s'` at all.

* **`Run`** — the states a sequence of calls can reach.
* **`Guarded`** — the same steps, taken only where a condition holds of the state before
  the call and of the call itself.
* **`EveryState` / `EveryStep`** — a property of all states along a sequence of calls, and
  of all calls in the states they are made in.
* **`Run.invariant`**, **`Run.simulate`** — the induction rules; **`Run.of_eval`** and
  **`Run.of_guarded_eval`** find a run.
* **`everyState_iff_everyStep`** — when one step keeps a property exactly if the step meets
  a condition, then a whole sequence keeps it exactly if every step does.
* **`everyState_iff_prefix`** / **`everyStep_iff_prefix`** — for a step function, both read as
  statements about the prefixes of the sequence; **`prefixes_iff`** puts them together, and
  **`prefixes_exact`** compares two properties of the calls.
-/

namespace Runs

variable {σ τ α : Type*}

inductive Run (step : σ → α → σ → Prop) : σ → List α → σ → Prop where
  | nil (s : σ) : Run step s [] s
  | cons {s s' s'' : σ} {a : α} {as : List α}
      (hstep : step s a s') (hrest : Run step s' as s'') : Run step s (a :: as) s''

/-- The steps of `step` that are taken in a state where `ok` allows them. -/
def Guarded (ok : σ → α → Prop) (step : σ → α → σ → Prop) : σ → α → σ → Prop :=
  fun s a s' => ok s a ∧ step s a s'

/-- `P` holds of every state visited from `s` on, the first and the last included. -/
def EveryState (step : σ → α → σ → Prop) (P : σ → Prop) : σ → List α → Prop
  | s, [] => P s
  | s, a :: as => P s ∧ ∀ s', step s a s' → EveryState step P s' as

/-- `ok` holds of every call of the sequence, in every state it is made in. -/
def EveryStep (step : σ → α → σ → Prop) (ok : σ → α → Prop) : σ → List α → Prop
  | _, [] => True
  | s, a :: as => ok s a ∧ ∀ s', step s a s' → EveryStep step ok s' as

variable {step : σ → α → σ → Prop} {as : List α}

/-- A property that every step preserves holds wherever a run ends. -/
theorem Run.invariant {I : σ → Prop} (hpres : ∀ s a s', I s → step s a s' → I s')
    {s s' : σ} (hrun : Run step s as s') (h : I s) : I s' := by
  induction hrun with
  | nil _ => exact h
  | cons hstep _ ih => exact ih (hpres _ _ _ h hstep)

theorem Run.mono {step' : σ → α → σ → Prop} (h : ∀ s a s', step s a s' → step' s a s') {s s' : σ}
    (hrun : Run step s as s') : Run step' s as s' := by
  induction hrun with
  | nil s => exact .nil s
  | cons hstep _ ih => exact .cons (h _ _ _ hstep) ih

theorem Run.append {s s' s'' : σ} {bs : List α} (h : Run step s as s')
    (h' : Run step s' bs s'') : Run step s (as ++ bs) s'' := by
  induction h with
  | nil _ => exact h'
  | cons hstep _ ih => exact .cons hstep (ih h')

theorem Run.split {bs : List α} {s'' : σ} :
    ∀ {as : List α} {s : σ}, Run step s (as ++ bs) s'' → ∃ s',
      Run step s as s' ∧ Run step s' bs s'' := by
  intro as
  induction as with
  | nil => exact fun {s} h => ⟨s, .nil s, h⟩
  | cons a as ih =>
    intro s h
    cases h with
    | cons hstep hrest =>
      obtain ⟨s', has, hbs⟩ := ih hrest
      exact ⟨s', .cons hstep has, hbs⟩

/-- Where a step has one outcome, a sequence of calls has. -/
theorem Run.unique (hdet : ∀ s a s' s'', step s a s' → step s a s'' → s' = s'')
    {s s' s'' : σ} (h : Run step s as s') (h' : Run step s as s'') : s' = s'' := by
  induction h with
  | nil _ =>
    cases h' with
    | nil _ => rfl
  | cons hstep _ ih =>
    cases h' with
    | cons hstep' hrest' =>
      cases hdet _ _ _ _ hstep hstep'
      exact ih hrest'

/-- Forward simulation: when every step from related states is matched by a step of the
other relation under the same label, every run is matched by a run. -/
theorem Run.simulate {spec : τ → α → τ → Prop} {Rel : σ → τ → Prop}
    (hsim : ∀ s t a s', Rel s t → step s a s' → ∃ t', spec t a t' ∧ Rel s' t')
    {s s' : σ} (hrun : Run step s as s') : ∀ t, Rel s t → ∃ t', Run spec t as t' ∧ Rel s' t' := by
  induction hrun with
  | nil s => exact fun t ht => ⟨t, .nil t, ht⟩
  | cons hstep _ ih =>
    intro t ht
    obtain ⟨t₁, hspec, ht₁⟩ := hsim _ t _ _ ht hstep
    obtain ⟨t', hrest, ht'⟩ := ih t₁ ht₁
    exact ⟨t', .cons hspec hrest, ht'⟩

/-- A run found by evaluation: `f` computes steps, and the state it ends in passes a test. -/
theorem Run.of_eval {f : σ → α → Option σ}
    (hf : ∀ s a s', f s a = some s' → step s a s') {test : σ → Bool} :
    ∀ {as : List α} {s : σ}, (as.foldlM f s).any test = true → ∃ s',
      Run step s as s' ∧ test s' = true := by
  intro as
  induction as with
  | nil => exact fun {s} h => ⟨s, .nil s, h⟩
  | cons a as ih =>
    intro s h
    rw [List.foldlM_cons] at h
    cases hstep : f s a with
    | none =>
      rw [hstep] at h
      cases h
    | some s₁ =>
      rw [hstep] at h
      obtain ⟨s', hrun, htest⟩ := ih h
      exact ⟨s', .cons (hf s a s₁ hstep) hrun, htest⟩

variable {ok : σ → α → Prop}

/-- The same for guarded steps, where `g` tests the guard. -/
theorem Run.of_guarded_eval {f : σ → α → Option σ}
    {g : σ → α → Bool} (hf : ∀ s a s', f s a = some s' → step s a s')
    (hg : ∀ s a, g s a = true → ok s a) {test : σ → Bool} {s : σ}
    (h : (as.foldlM (fun s a => if g s a then f s a else none) s).any test = true) :
    ∃ s', Run (Guarded ok step) s as s' ∧ test s' = true := by
  refine Run.of_eval (fun s a s' h => ?_) h
  split at h
  · next hok => exact ⟨hg s a hok, hf s a s' h⟩
  · cases h

theorem EveryState.head {P : σ → Prop} {s : σ}
    (h : EveryState step P s as) : P s := by
  cases as with
  | nil => exact h
  | cons a as => exact h.1

/-- Step-by-step exactness lifts to runs: `P` is the invariant that carries the induction, `Q`
what is to be seen of every state, `C` what the calls of the sequence have in common. A bad call
is seen by the states it leads to, one of which lacks `Q`. -/
theorem everyState_iff_everyStep {P Q : σ → Prop} {C : α → Prop}
    (hseen : ∀ s, P s → Q s) (hneeds : ∀ s a, C a → P s → (∀ s', step s a s' → Q s') → ok s a)
    (hkeeps : ∀ s a s', C a → P s → step s a s' → ok s a → P s') :
    ∀ (as : List α) (s : σ),
      (∀ a ∈ as, C a) → P s → (EveryState step Q s as ↔ EveryStep step ok s as) := by
  intro as
  induction as with
  | nil => intro s _ hs; exact ⟨fun _ => trivial, fun _ => hseen s hs⟩
  | cons a as ih =>
    intro s hC hs
    obtain ⟨ha, has⟩ := List.forall_mem_cons.mp hC
    constructor
    · rintro ⟨-, hall⟩
      have hok : ok s a := hneeds s a ha hs fun s' hs' => (hall s' hs').head
      refine ⟨hok, fun s' hs' => ?_⟩
      exact (ih s' has (hkeeps s a s' ha hs hs' hok)).mp (hall s' hs')
    · rintro ⟨hok, hall⟩
      refine ⟨hseen s hs, fun s' hs' => ?_⟩
      exact (ih s' has (hkeeps s a s' ha hs hs' hok)).mpr (hall s' hs')

/-- Calls that an invariant allows are allowed all along. -/
theorem everyStep_of_invariant {I : σ → Prop} {C : α → Prop}
    (hpres : ∀ s a s', C a → I s → step s a s' → I s') (hok : ∀ s a, C a → I s → ok s a) :
    ∀ (as : List α) (s : σ), (∀ a ∈ as, C a) → I s → EveryStep step ok s as := by
  intro as
  induction as with
  | nil => intro s _ _; trivial
  | cons a as ih =>
    intro s hC hs
    obtain ⟨ha, has⟩ := List.forall_mem_cons.mp hC
    exact ⟨hok s a ha hs, fun s' hs' => ih s' has (hpres s a s' ha hs hs')⟩

/-! ## Step functions -/

/-- The step relation of a function. -/
def Calls (f : σ → α → σ) : σ → α → σ → Prop := fun s a s' => f s a = s'

theorem everyState_iff_prefix (f : σ → α → σ) (P : σ → Prop) : ∀ (as : List α) (s : σ),
      EveryState (Calls f) P s as ↔ ∀ done rest, as = done ++ rest → P (done.foldl f s) := by
  intro as
  induction as with
  | nil =>
    intro s
    refine ⟨fun h done rest heq => ?_, fun h => h [] [] rfl⟩
    obtain ⟨rfl, rfl⟩ := List.nil_eq_append_iff.mp heq
    exact h
  | cons a as ih =>
    intro s
    constructor
    · rintro ⟨hs, hall⟩ done rest heq
      cases done with
      | nil => exact hs
      | cons b done =>
        obtain ⟨rfl, rfl⟩ := List.cons.inj heq
        exact (ih (f s a)).mp (hall (f s a) rfl) done rest rfl
    · intro h
      refine ⟨h [] (a :: as) rfl, ?_⟩
      rintro s' rfl
      exact (ih (f s a)).mpr fun done rest heq => h (a :: done) rest (by rw [heq]; rfl)

theorem everyStep_iff_prefix (f : σ → α → σ) (ok : σ → α → Prop) :
    ∀ (as : List α) (s : σ), EveryStep (Calls f) ok s as ↔
        ∀ done a rest, as = done ++ a :: rest → ok (done.foldl f s) a := by
  intro as
  induction as with
  | nil => intro s; exact ⟨fun _ done a rest heq => by simp at heq, fun _ => trivial⟩
  | cons a as ih =>
    intro s
    constructor
    · rintro ⟨hs, hall⟩ done b rest heq
      cases done with
      | nil =>
        obtain ⟨rfl, rfl⟩ := List.cons.inj heq
        exact hs
      | cons c done =>
        obtain ⟨rfl, rfl⟩ := List.cons.inj heq
        exact (ih (f s a)).mp (hall (f s a) rfl) done b rest rfl
    · intro h
      refine ⟨h [] a as rfl, ?_⟩
      rintro s' rfl
      exact (ih (f s a)).mpr fun done b rest heq => h (a :: done) b rest (by rw [heq]; rfl)

/-- `everyState_iff_everyStep` for a function. -/
theorem prefixes_iff {f : σ → α → σ} {P Q : σ → Prop}
    (hseen : ∀ s, P s → Q s) (hneeds : ∀ s a, P s → Q (f s a) → ok s a)
    (hkeeps : ∀ s a, P s → ok s a → P (f s a)) (as : List α) (s : σ) (hs : P s) :
    (∀ done rest, as = done ++ rest → Q (done.foldl f s))
      ↔ ∀ done a rest, as = done ++ a :: rest → ok (done.foldl f s) a := by
  rw [← everyState_iff_prefix, ← everyStep_iff_prefix]
  refine everyState_iff_everyStep (C := fun _ => True) hseen ?_ ?_ as s (fun _ _ => trivial) hs
  · intro s a _ hs hall
    exact hneeds s a hs (hall (f s a) rfl)
  · rintro s a s' - hs rfl
    exact hkeeps s a hs

/-- When calls have `good` exactly if they have `ok`, as long as `P` holds, and `ok` keeps `P`, then all
calls of a sequence have the one exactly if they all have the other. -/
theorem prefixes_exact {f : σ → α → σ} {P : σ → Prop} {good : σ → α → Prop}
    (hiff : ∀ s a, P s → (good s a ↔ ok s a)) (hkeeps : ∀ s a, P s → ok s a → P (f s a))
    (as : List α) (s : σ) (hs : P s) : (∀ done a rest, as = done ++ a :: rest → good (done.foldl f s) a)
      ↔ ∀ done a rest, as = done ++ a :: rest → ok (done.foldl f s) a := by
  rw [← everyStep_iff_prefix, ← everyStep_iff_prefix]
  induction as generalizing s with
  | nil => exact Iff.rfl
  | cons a as ih =>
    have hrest : ok s a → ∀ s',
        Calls f s a s' → (EveryStep (Calls f) good s' as ↔ EveryStep (Calls f) ok s' as) := by
      rintro hok s' rfl
      exact ih (f s a) (hkeeps s a hs hok)
    constructor
    · rintro ⟨hgood, hall⟩
      have hok := (hiff s a hs).mp hgood
      exact ⟨hok, fun s' hs' => (hrest hok s' hs').mp (hall s' hs')⟩
    · rintro ⟨hok, hall⟩
      exact ⟨(hiff s a hs).mpr hok, fun s' hs' => (hrest hok s' hs').mpr (hall s' hs')⟩

end Runs
