import FreeSwitch.Lib.Bytes
import Mathlib.Tactic

/-!
# Memory accesses with a bound

Loads and stores that fail, with the offset of the last byte touched, as soon as they touch a byte at
`len` or behind; and loops of such accesses. A loop is a step function that says how to go on or what
the result is.

* **`access_eq_ok_iff`** — inside the bound, and only there, an access is the plain one.
* **`inside_mapM_iff`** — a sequence of accesses stays inside if each of them does.
* **`iterate_isSome`**, **`walk_isSome`** — a loop whose steps decrease a measure ends.
* **`iterate_inside_iff`**, **`walk_inside_iff`** — a loop stays inside from the states that are good,
  for every notion of good that says what one step needs.
-/

namespace Bounded

open Bytes

/-! ## Accesses -/

/-- `n` bytes at `a` are touched. -/
def touch (len a n : Nat) : Except Nat Unit := if a + n ≤ len then .ok () else .error (a + n - 1)

def load8 (len : Nat) (m : Mem) (a : Nat) : Except Nat UInt8 := do
  touch len a 1
  return m a

def load16 (len : Nat) (m : Mem) (a : Nat) : Except Nat UInt16 := do
  touch len a 2
  return m.load16 a

def store16 (len : Nat) (m : Mem) (a : Nat) (v : UInt16) : Except Nat Mem := do
  touch len a 2
  return m.store16 a v

def load32 (len : Nat) (m : Mem) (a : Nat) : Except Nat UInt32 := do
  touch len a 4
  return m.load32 a

def store32 (len : Nat) (m : Mem) (a : Nat) (v : UInt32) : Except Nat Mem := do
  touch len a 4
  return m.write a (bytes32 v)

/-- No access of the computation leaves the bound. -/
def Inside {α : Type*} (x : Except Nat α) : Prop := ∃ a, x = .ok a

@[simp]
theorem inside_ok {α : Type*} (a : α) : Inside (.ok a) := ⟨a, rfl⟩

@[simp]
theorem inside_pure {α : Type} (a : α) : Inside (pure a) := ⟨a, rfl⟩

theorem ok_bind {α β : Type} {a : α} {f : α → Except Nat β} : (.ok a >>= f) = f a := rfl

@[simp]
theorem bind_eq_ok_iff {α β : Type} {x : Except Nat α} {f : α → Except Nat β} {b : β} :
    (x >>= f) = .ok b ↔ ∃ a, x = .ok a ∧ f a = .ok b := by
  cases x with
  | error e => exact ⟨fun h => (nomatch h), fun ⟨_, ha, _⟩ => (nomatch ha)⟩
  | ok a => exact ⟨fun h => ⟨a, rfl, h⟩, fun ⟨_, ha, h⟩ => Except.ok.inj ha ▸ h⟩

@[simp]
theorem inside_bind_iff {α β : Type} {x : Except Nat α} {f : α → Except Nat β} :
    Inside (x >>= f) ↔ ∃ a, x = .ok a ∧ Inside (f a) := by
  constructor
  · rintro ⟨b, hb⟩
    obtain ⟨a, ha, hf⟩ := bind_eq_ok_iff.mp hb
    exact ⟨a, ha, b, hf⟩
  · rintro ⟨a, ha, b, hb⟩
    exact ⟨b, bind_eq_ok_iff.mpr ⟨a, ha, hb⟩⟩

/-- What follows does not matter if it touches nothing outside. -/
theorem inside_bind_of_inside {α β : Type} {x : Except Nat α} {f : α → Except Nat β}
    (hf : ∀ a, Inside (f a)) :
    Inside (x >>= f) ↔ Inside x := by
  rw [inside_bind_iff]
  exact ⟨fun ⟨a, ha, _⟩ => ⟨a, ha⟩, fun ⟨a, ha⟩ => ⟨a, ha, hf a⟩⟩

variable {len a : Nat}

@[simp]
theorem touch_eq_ok_iff {n : Nat} : touch len a n = .ok () ↔ a + n ≤ len := by
  unfold touch
  split <;> simp [*]

/-- An access: the bytes are touched, then the value is there. -/
theorem access_eq_ok_iff {α : Type} {n : Nat} {v w : α} :
    (touch len a n >>= fun _ => pure v) = .ok w ↔ a + n ≤ len ∧ v = w := by
  rw [bind_eq_ok_iff]
  constructor
  · rintro ⟨⟨⟩, htouch, heq⟩
    cases heq
    exact ⟨touch_eq_ok_iff.mp htouch, rfl⟩
  · rintro ⟨hle, rfl⟩
    exact ⟨(), touch_eq_ok_iff.mpr hle, rfl⟩

@[simp]
theorem load8_eq_ok_iff {m : Mem} {v : UInt8} : load8 len m a = .ok v ↔ a + 1 ≤ len ∧ m a = v :=
  access_eq_ok_iff

@[simp]
theorem load16_eq_ok_iff {m : Mem} {v : UInt16} :
    load16 len m a = .ok v ↔ a + 2 ≤ len ∧ m.load16 a = v := access_eq_ok_iff

@[simp]
theorem load32_eq_ok_iff {m : Mem} {v : UInt32} :
    load32 len m a = .ok v ↔ a + 4 ≤ len ∧ m.load32 a = v := access_eq_ok_iff

@[simp]
theorem store16_eq_ok_iff {m m' : Mem} {v : UInt16} :
    store16 len m a v = .ok m' ↔ a + 2 ≤ len ∧ m.store16 a v = m' := access_eq_ok_iff

@[simp]
theorem store32_eq_ok_iff {m m' : Mem} {v : UInt32} :
    store32 len m a v = .ok m' ↔ a + 4 ≤ len ∧ m.write a (bytes32 v) = m' := access_eq_ok_iff

theorem load16_of_le (h : a + 2 ≤ len) (m : Mem) : load16 len m a = .ok (m.load16 a) :=
  load16_eq_ok_iff.mpr ⟨h, rfl⟩

theorem store16_of_le (h : a + 2 ≤ len) (m : Mem) (v : UInt16) :
    store16 len m a v = .ok (m.store16 a v) :=
  store16_eq_ok_iff.mpr ⟨h, rfl⟩

/-- Accesses made one after the other stay inside if each of them does. -/
theorem inside_mapM_iff {α β : Type} {f : α → Except Nat β} {l : List α} :
    Inside (l.mapM f) ↔ ∀ x ∈ l, Inside (f x) := by
  induction l with
  | nil => simp
  | cons x l ih =>
    rw [List.mapM_cons, inside_bind_iff, List.forall_mem_cons, ← ih]
    constructor
    · rintro ⟨b, hb, hrest⟩
      exact ⟨⟨b, hb⟩, (inside_bind_of_inside fun bs => inside_pure _).mp hrest⟩
    · rintro ⟨⟨b, hb⟩, hrest⟩
      exact ⟨b, hb, (inside_bind_of_inside fun bs => inside_pure _).mpr hrest⟩

/-! ## Loops -/

variable {σ ρ : Type*}

/-- A loop: `inl` goes on, `inr` ends it; `none` is a lack of fuel. -/
def iterate (step : σ → Except Nat (σ ⊕ ρ)) : Nat → σ → Option (Except Nat ρ)
  | 0, _ => none
  | n + 1, s =>
    match step s with
    | .error e => some (.error e)
    | .ok (.inr r) => some (.ok r)
    | .ok (.inl s') => iterate step n s'

/-- The loop goes on from `s` to `s'`. -/
def Next (step : σ → Except Nat (σ ⊕ ρ)) (s s' : σ) : Prop := step s = .ok (.inl s')

/-- The loop comes from `s` to `s'`. -/
def Reaches (step : σ → Except Nat (σ ⊕ ρ)) : σ → σ → Prop := Relation.ReflTransGen (Next step)

variable {step : σ → Except Nat (σ ⊕ ρ)}

theorem iterate_isSome {I : σ → Prop} {μ : σ → Nat} (hI : ∀ s s', I s → Next step s s' → I s')
    (hμ : ∀ s s', I s → Next step s s' → μ s' < μ s) :
    ∀ n s, I s → μ s < n → (iterate step n s).isSome = true := by
  intro n
  induction n with
  | zero => intro s _ hlt; omega
  | succ n ih =>
    intro s hs hlt
    rw [iterate]
    split
    · rfl
    · rfl
    · next s' hnext =>
      have hless := hμ s s' hs hnext
      exact ih s' (hI s s' hs hnext) (by omega)

theorem Reaches.invariant {I : σ → Prop} (hI : ∀ s s', I s → Next step s s' → I s') {s s' : σ}
    (h : Reaches step s s') (hs : I s) : I s' := by
  induction h with
  | refl => exact hs
  | tail _ hnext ih => exact hI _ _ ih hnext

/-- `good` says of a state that its step stays inside and goes on to good states only. Then the loop
ends without leaving the bound from exactly the good states. -/
theorem iterate_inside_iff {I good : σ → Prop} {μ : σ → Nat} (hI : ∀ s s', I s → Next step s s' → I s')
    (hμ : ∀ s s', I s → Next step s s' → μ s' < μ s)
    (hgood : ∀ s, I s → (good s ↔ Inside (step s) ∧ ∀ s', Next step s s' → good s')) :
    ∀ n s, I s → μ s < n → ((∃ r, iterate step n s = some (.ok r)) ↔ good s) := by
  intro n
  induction n with
  | zero => intro s _ hlt; omega
  | succ n ih =>
    intro s hs hlt
    rw [hgood s hs, iterate]
    cases hstep : step s with
    | error e => simp [Inside]
    | ok o =>
      cases o with
      | inr r => simp [Next, hstep]
      | inl t =>
        have hless := hμ s t hs hstep
        simp [Next, hstep, ih t (hI s t hs hstep) (by omega)]

/-! ## A prologue and a loop -/

/-- What comes before a loop, which may end the computation as well, and the loop. -/
def walk (begin : Except Nat (σ ⊕ ρ)) (step : σ → Except Nat (σ ⊕ ρ))
    (fuel : Nat) : Option (Except Nat ρ) :=
  match begin with
  | .error a => some (.error a)
  | .ok (.inr r) => some (.ok r)
  | .ok (.inl s) => iterate step fuel s

section Walk

variable {begin : Except Nat (σ ⊕ ρ)} {I : σ → Prop} {μ : σ → Nat} {fuel : Nat}

/-- The prologue stays inside, and leaves the loop in a state that has `I` and is worth the fuel. -/
structure Prepares (begin : Except Nat (σ ⊕ ρ)) (I : σ → Prop) (μ : σ → Nat) (fuel : Nat) : Prop where
  inside : Inside begin
  start : ∀ s, begin = .ok (.inl s) → I s ∧ μ s < fuel

theorem walk_isSome (hbegin : Prepares begin I μ fuel) (hI : ∀ s s', I s → Next step s s' → I s')
    (hμ : ∀ s s', I s → Next step s s' → μ s' < μ s) : (walk begin step fuel).isSome = true := by
  obtain ⟨o, rfl⟩ := hbegin.inside
  cases o with
  | inr r => rfl
  | inl s =>
    obtain ⟨hs, hfuel⟩ := hbegin.start s rfl
    exact iterate_isSome hI hμ fuel s hs hfuel

/-- The whole stays inside exactly if the loop is entered in a good state, or not at all. -/
theorem walk_inside_iff {good : σ → Prop} (hbegin : Prepares begin I μ fuel)
    (hI : ∀ s s', I s → Next step s s' → I s') (hμ : ∀ s s', I s → Next step s s' → μ s' < μ s)
    (hgood : ∀ s, I s → (good s ↔ Inside (step s) ∧ ∀ s', Next step s s' → good s')) :
    (∃ r, walk begin step fuel = some (.ok r)) ↔ ∀ s, begin = .ok (.inl s) → good s := by
  obtain ⟨o, rfl⟩ := hbegin.inside
  cases o with
  | inr r => simp [walk]
  | inl s =>
    obtain ⟨hs, hfuel⟩ := hbegin.start s rfl
    simp [walk, iterate_inside_iff hI hμ hgood fuel s hs hfuel]

end Walk

end Bounded
