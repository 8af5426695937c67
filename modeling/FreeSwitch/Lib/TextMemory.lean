import FreeSwitch.Lib.Bounded
import FreeSwitch.Lib.CString
import Mathlib.Data.List.TakeWhile

/-!
# Texts in a memory

A memory of bytes that is as long as its list, with accesses that fail, with their position, behind its
end; and computations of such accesses with loops.

* **`read_append`**, **`write_append`**, **`occurs_append`** — the accesses, at a place that is given by
  what comes before it.
* **`Access`**, **`loop`** — a computation that makes accesses, and a loop in one.
* **`loop_of_reaches`**, **`loop_of_reaches_error`** — a loop that ends is where its steps come to.
* **`Texts`** — texts that stand one behind the other in a memory, perhaps with gaps.
-/

namespace TextMemory

open CString Bounded

/-! ## Accesses -/

def read (mem : Str) (p : Nat) : Except Nat UInt8 :=
  match mem[p]? with
  | some c => .ok c
  | none => .error p

def write (mem : Str) (p : Nat) (c : UInt8) : Except Nat Str :=
  if p < mem.length then .ok (mem.set p c) else .error p

/-- The bytes are looked at, from the position on, until one is `c` or the end of the text. -/
def find (c : UInt8) : Str → Nat → Except Nat Bool
  | [], p => .error p
  | x :: xs, p => if x = c then .ok true else if x = 0 then .ok false else find c xs (p + 1)

/-- Whether `strchr` finds `c` in the text at `p`. -/
def occurs (mem : Str) (p : Nat) (c : UInt8) : Except Nat Bool := find c (mem.drop p) p

/-- The text at `p`. -/
def text (mem : Str) (p : Nat) : Str := (mem.drop p).takeWhile (· != 0)

theorem read_append (a : Str) (c : UInt8) (b : Str) : read (a ++ c :: b) a.length = .ok c := by
  unfold read
  rw [List.getElem?_append_right le_rfl, Nat.sub_self]
  rfl

variable {mem : Str}

theorem read_of_length_le {p : Nat} (h : mem.length ≤ p) : read mem p = .error p := by
  unfold read
  rw [List.getElem?_eq_none h]

theorem lt_of_read {p : Nat} {c : UInt8} (h : read mem p = .ok c) : p < mem.length := by
  by_contra hle
  rw [read_of_length_le (by omega)] at h
  cases h

theorem length_of_write {mem' : Str} {p : Nat} {c : UInt8} (h : write mem p c = .ok mem') :
    mem'.length = mem.length := by
  unfold write at h
  split at h
  · cases h
    exact List.length_set
  · cases h

theorem write_append (a : Str) (c : UInt8) (b : Str) (x : UInt8) :
    write (a ++ c :: b) a.length x = .ok (a ++ x :: b) := by
  unfold write
  rw [if_pos (by simp), List.set_append_right a.length x le_rfl, Nat.sub_self]
  rfl

theorem find_append {c : UInt8} (hc : c ≠ 0) {s : Str} (hs : 0 ∉ s) (b : Str) (p : Nat) :
    find c (s ++ 0 :: b) p = .ok (decide (c ∈ s)) := by
  induction s generalizing p with
  | nil =>
    show (if (0 : UInt8) = c then _ else _) = _
    rw [if_neg hc.symm, if_pos rfl]
    rfl
  | cons x s ih =>
    have hx : x ≠ 0 := fun hzero => hs (hzero ▸ List.mem_cons_self)
    show (if x = c then _ else _) = _
    by_cases hxc : x = c
    · rw [if_pos hxc, decide_eq_true (hxc ▸ List.mem_cons_self)]
    · rw [if_neg hxc, if_neg hx]
      refine (ih (fun hmem => hs (List.mem_cons_of_mem _ hmem)) (p + 1)).trans ?_
      simp [Ne.symm hxc]

theorem occurs_append {c : UInt8} (hc : c ≠ 0) (a : Str) {s : Str} (hs : 0 ∉ s) (b : Str) :
    occurs (a ++ (s ++ 0 :: b)) a.length c = .ok (decide (c ∈ s)) := by
  unfold occurs
  rw [List.drop_left, find_append hc hs]

theorem text_append (a : Str) {s : Str} (hs : 0 ∉ s) (b : Str) :
    text (a ++ (s ++ 0 :: b)) a.length = s := by
  unfold text
  rw [List.drop_left]
  exact takeWhile_append_stop (fun x hx => bne_iff_ne.mpr fun hzero => hs (hzero ▸ hx)) (by simp)

theorem zero_notMem_text (mem : Str) (p : Nat) :
    0 ∉ text mem p := fun hmem => by simpa using List.mem_takeWhile_imp hmem

/-! ## Computations -/

/-- A computation that makes accesses. It gives nothing if it does not come to its end. -/
abbrev Access := ExceptT Nat Option

namespace Access

variable {α β : Type}

def of (x : Except Nat α) : Access α := some x

@[simp]
theorem of_ok_bind (a : α) (f : α → Access β) : of (.ok a) >>= f = f a := rfl

@[simp]
theorem of_error_bind (e : Nat) (f : α → Access β) : of (.error e) >>= f = of (.error e) := rfl

@[simp]
theorem pure_eq (a : α) : (pure a : Access α) = of (.ok a) := rfl

end Access

section Loops

variable {σ ρ : Type} {step : σ → Except Nat (σ ⊕ ρ)}

def loop (step : σ → Except Nat (σ ⊕ ρ)) (fuel : Nat) (s : σ) : Access ρ := iterate step fuel s

theorem iterate_of_reaches {s s' : σ} (h : Reaches step s s') {n : Nat} {x : Except Nat ρ}
    (hx : iterate step n s = some x) : ∃ m, iterate step (m + 1) s' = some x := by
  induction h using Relation.ReflTransGen.head_induction_on generalizing n with
  | refl =>
    cases n with
    | zero => cases hx
    | succ n => exact ⟨n, hx⟩
  | head hnext _ ih =>
    cases n with
    | zero => cases hx
    | succ n =>
      rw [iterate, show step _ = _ from hnext] at hx
      exact ih hx

theorem loop_of_reaches {s s' : σ} {r : ρ} {fuel : Nat} (hends : (iterate step fuel s).isSome = true)
    (h : Reaches step s s') (hlast : step s' = .ok (.inr r)) : loop step fuel s = .of (.ok r) := by
  obtain ⟨x, hx⟩ := Option.isSome_iff_exists.mp hends
  obtain ⟨m, hm⟩ := iterate_of_reaches h hx
  rw [iterate, hlast] at hm
  exact hx.trans hm.symm

theorem loop_of_reaches_error {s s' : σ} {e fuel : Nat} (hends : (iterate step fuel s).isSome = true)
    (h : Reaches step s s') (hlast : step s' = .error e) : loop step fuel s = .of (.error e) := by
  obtain ⟨x, hx⟩ := Option.isSome_iff_exists.mp hends
  obtain ⟨m, hm⟩ := iterate_of_reaches h hx
  rw [iterate, hlast] at hm
  exact hx.trans hm.symm

end Loops

/-! ## Texts one behind the other -/

/-- The texts stand at their positions, none of which is before `lo`, and do not meet. -/
def Texts (mem : Str) : Nat → List (Nat × Str) → Prop
  | _, [] => True
  | lo, (p, t) :: ts => lo ≤ p ∧ 0 ∉ t ∧ t ++ [0] <+: mem.drop p ∧ Texts mem (p + t.length + 1) ts

theorem isPrefix_drop (a t b : Str) : t ++ [0] <+: (a ++ (t ++ 0 :: b)).drop a.length := by
  rw [List.drop_left]
  exact ⟨b, by simp⟩

/-- A text at a place, with what comes before it and behind it. -/
theorem exists_append_of_isPrefix {t : Str} {p : Nat} (h : t ++ [0] <+: mem.drop p) :
    ∃ a b, mem = a ++ (t ++ 0 :: b) ∧ a.length = p := by
  obtain ⟨b, hb⟩ := h
  have hlt : p < mem.length := by
    have hlen := congrArg List.length hb
    simp only [List.length_append, List.length_cons, List.length_drop] at hlen
    omega
  refine ⟨mem.take p, b, ?_, List.length_take_of_le hlt.le⟩
  rw [show t ++ 0 :: b = mem.drop p by rw [← hb]; simp, List.take_append_drop]

theorem Texts.mono {lo lo' : Nat} (hle : lo' ≤ lo) :
    ∀ {ts : List (Nat × Str)}, Texts mem lo ts → Texts mem lo' ts
  | [], _ => trivial
  | (_, _) :: _, ⟨hp, h⟩ => ⟨hle.trans hp, h⟩

theorem Texts.sublist : ∀ {lo : Nat} {ts us : List (Nat × Str)}, us.Sublist ts → Texts mem lo ts →
      Texts mem lo us
  | _, _, _, .slnil, _ => trivial
  | _, _, _, .cons (p, t) hsub, ⟨hp, _, _, hrest⟩ => (Texts.sublist hsub hrest).mono (by omega)
  | _, _, _, .cons_cons (p, t) hsub,
    ⟨hp, hzero, htext, hrest⟩ => ⟨hp, hzero, htext, Texts.sublist hsub hrest⟩

/-- Texts are not changed by what happens before them. -/
theorem Texts.frame {mem' : Str} {lo : Nat} {ts : List (Nat × Str)} (h : Texts mem lo ts)
    (hsame : mem'.drop lo = mem.drop lo) : Texts mem' lo ts := by
  induction ts generalizing lo with
  | nil => trivial
  | cons pt ts ih =>
    obtain ⟨hp, hzero, htext, hrest⟩ := h
    have hdrop : ∀ q, lo ≤ q → mem'.drop q = mem.drop q := fun q hq => by
      rw [← Nat.add_sub_cancel' hq, ← List.drop_drop, hsame, List.drop_drop]
    exact ⟨hp, hzero, by rwa [hdrop _ hp], ih hrest (hdrop _ (by omega))⟩

theorem isPrefix_drop_of_take {mem' t : Str} {p q : Nat} (h : t ++ [0] <+: mem.drop p)
    (hq : p + t.length + 1 ≤ q) (hsame : mem'.take q = mem.take q) : t ++ [0] <+: mem'.drop p := by
  have hlen : (t ++ [0]).length ≤ q - p := by
    simp only [List.length_append, List.length_cons, List.length_nil]
    omega
  have htake : t ++ [0] <+: (mem'.take q).drop p := by
    rw [hsame, List.drop_take]
    exact List.prefix_take_iff.mpr ⟨h, hlen⟩
  rw [List.drop_take] at htake
  exact (List.prefix_take_iff.mp htake).1

theorem text_of_isPrefix {t : Str} {p : Nat} (hzero : 0 ∉ t) (h : t ++ [0] <+: mem.drop p) :
    text mem p = t := by
  obtain ⟨a, b, rfl, rfl⟩ := exists_append_of_isPrefix h
  exact text_append a hzero b

/-- The texts are what is read at their positions. -/
theorem Texts.map_text : ∀ {lo : Nat} {ps : List Nat} {ts : List Str}, ps.length = ts.length →
    Texts mem lo (ps.zip ts) → ps.map (text mem) = ts
  | _, [], [], _, _ => rfl
  | _, _ :: _, _ :: _, hlen, ⟨_, hzero, htext, hrest⟩ =>
    congrArg₂ List.cons (text_of_isPrefix hzero htext) (hrest.map_text (Nat.succ.inj hlen))

end TextMemory
