import Mathlib.Data.List.AList
import Mathlib.Tactic

/-!
# Pools of recycled cells

A pool hands out cells and never gives them back to the allocator: a cell that is no longer in
use stays in the list and is reused. Cells are known by their address, and the order of the
list is free to change. The list has no two cells at one address, and every address is below
the number of cells allocated so far: both are part of the type.

What a client sees of a pool are the cells in use, `live`, up to their order. A hash table that
finds cells by a key `Indexes` the pool when each entry leads to a cell in use that has the
key; entries may be missing.

* **`Pool`** — with `alloc`, `use`, `free`, `setVal`, `reorder` and `toFront`.
* **`live_alloc`**, **`perm_live_use`**, **`live_free`**, **`live_setVal`** — what each does to
  the cells in use.
* **`Indexes.insert`**, **`Indexes.erase_free`**, **`Indexes.setVal`** — how an index is kept.
-/

namespace Pools

/-- A cell of a pool. -/
structure Cell (α : Type*) where
  addr : Nat
  val : α
  inUse : Bool
  deriving DecidableEq, Repr

structure Pool (α : Type*) where
  cells : List (Cell α)
  allocated : Nat
  nodup : (cells.map Cell.addr).Nodup
  bounded : ∀ c ∈ cells, c.addr < allocated

variable {α κ : Type*}

/-! ## Operations -/

namespace Pool

def empty : Pool α := ⟨[], 0, List.nodup_nil, by simp⟩

def cell? (p : Pool α) (a : Nat) : Option (Cell α) := p.cells.find? (·.addr == a)

def firstFree (p : Pool α) : Option (Cell α) := p.cells.find? (fun c => !c.inUse)

def live (p : Pool α) : List (Cell α) := p.cells.filter (·.inUse)

/-- A new cell in use, at the head of the list. -/
def alloc (p : Pool α) (v : α) : Pool α where
  cells := ⟨p.allocated, v, true⟩ :: p.cells
  allocated := p.allocated + 1
  nodup := by
    rw [List.map_cons, List.nodup_cons]
    refine ⟨fun hmem => ?_, p.nodup⟩
    obtain ⟨c, hc, haddr⟩ := List.mem_map.mp hmem
    exact absurd haddr (Nat.ne_of_lt (p.bounded c hc))
  bounded := by
    intro c hc
    rcases List.mem_cons.mp hc with rfl | hc
    · exact Nat.lt_succ_self p.allocated
    · exact Nat.lt_succ_of_lt (p.bounded c hc)

/-- Write to the cell at address `a`. -/
def write (p : Pool α) (a : Nat) (f : α → α) (u : Bool → Bool) : Pool α where
  cells := p.cells.map fun c => if c.addr = a then ⟨c.addr, f c.val, u c.inUse⟩ else c
  allocated := p.allocated
  nodup := by
    rw [List.map_map]
    refine (List.map_congr_left fun c _ => ?_) ▸ p.nodup
    simp only [Function.comp_apply]
    split <;> rfl
  bounded := by
    intro c hc
    obtain ⟨d, hd, rfl⟩ := List.mem_map.mp hc
    split
    · exact p.bounded d hd
    · exact p.bounded d hd

def use (p : Pool α) (a : Nat) (v : α) : Pool α := p.write a (fun _ => v) (fun _ => true)

def free (p : Pool α) (a : Nat) : Pool α := p.write a id (fun _ => false)

def setVal (p : Pool α) (a : Nat) (f : α → α) : Pool α := p.write a f id

/-- The same cells in another order. -/
def reorder (p : Pool α) (cells : List (Cell α)) (h : cells.Perm p.cells) : Pool α where
  cells := cells
  allocated := p.allocated
  nodup := (h.map Cell.addr).nodup_iff.mpr p.nodup
  bounded := fun c hc => p.bounded c (h.mem_iff.mp hc)

/-- Move the cell at address `a` to the head of the list. -/
def toFront (p : Pool α) (a : Nat) : Pool α :=
  p.reorder (p.cells.filter (fun c => c.addr == a) ++ p.cells.filter (fun c => !(c.addr == a)))
    (List.filter_append_perm _ p.cells)

/-! ## Cells by address -/

variable {p : Pool α} {a : Nat} {c d : Cell α}

theorem eq_of_addr_eq (hc : c ∈ p.cells) (hd : d ∈ p.cells) (h : c.addr = d.addr) : c = d :=
  List.inj_on_of_nodup_map p.nodup hc hd h

theorem cell?_eq_some_iff : p.cell? a = some c ↔ c ∈ p.cells ∧ c.addr = a := by
  constructor
  · intro h
    exact ⟨List.mem_of_find?_eq_some h, by simpa using List.find?_some h⟩
  · rintro ⟨hc, rfl⟩
    cases hfind : p.cell? c.addr with
    | none => simpa using List.find?_eq_none.mp hfind c hc
    | some d =>
      have hd : d.addr = c.addr := by simpa using List.find?_some hfind
      rw [eq_of_addr_eq (List.mem_of_find?_eq_some hfind) hc hd]

theorem mem_live_iff : c ∈ p.live ↔ c ∈ p.cells ∧ c.inUse = true := List.mem_filter

theorem cell?_of_mem_live (hc : c ∈ p.live) : p.cell? c.addr = some c :=
  cell?_eq_some_iff.mpr ⟨(mem_live_iff.mp hc).1, rfl⟩

theorem eq_of_mem_live (hc : c ∈ p.live) (hd : d ∈ p.live) (h : c.addr = d.addr) : c = d :=
  eq_of_addr_eq (mem_live_iff.mp hc).1 (mem_live_iff.mp hd).1 h

theorem cell?_setVal (f : α → α) (h : p.cell? a = some c) :
    (p.setVal a f).cell? a = some { c with val := f c.val } := by
  obtain ⟨hc, rfl⟩ := cell?_eq_some_iff.mp h
  refine cell?_eq_some_iff.mpr ⟨List.mem_map.mpr ⟨c, hc, ?_⟩, rfl⟩
  rw [if_pos rfl]
  rfl

theorem live_nodup (p : Pool α) : (p.live.map Cell.addr).Nodup :=
  p.nodup.sublist (List.Sublist.map _ List.filter_sublist)

/-! ## The cells in use -/

theorem live_alloc (p : Pool α) (v : α) : (p.alloc v).live = ⟨p.allocated, v, true⟩ :: p.live := rfl

theorem live_free (p : Pool α) (a : Nat) :
    (p.free a).live = p.live.filter (fun c => !(c.addr == a)) := by
  simp only [live, free, write, List.filter_filter]
  induction p.cells with
  | nil => rfl
  | cons c cs ih =>
    rw [List.map_cons, List.filter_cons, List.filter_cons, ih]
    by_cases h : c.addr = a <;> cases hu : c.inUse <;> simp [h, hu]

theorem perm_live_free (hc : c ∈ p.live) : p.live.Perm (c :: (p.free c.addr).live) := by
  obtain ⟨front, back, hlive⟩ := List.append_of_mem hc
  have hne : ∀ d ∈ front ++ back, (!(d.addr == c.addr)) = true := by
    have hnodup := p.live_nodup
    rw [hlive, List.map_append, List.map_cons, List.nodup_middle, List.nodup_cons,
      ← List.map_append] at hnodup
    intro d hd
    have haddr : d.addr ≠ c.addr := fun heq => hnodup.1 (heq ▸ List.mem_map_of_mem hd)
    simpa using haddr
  have hrest : (p.free c.addr).live = front ++ back := by
    rw [live_free, hlive, List.filter_append, List.filter_cons_of_neg (by simp),
      ← List.filter_append, List.filter_eq_self.mpr hne]
  rw [hrest, hlive]
  exact List.perm_middle

theorem live_setVal (p : Pool α) (a : Nat) (f : α → α) :
    (p.setVal a f).live = p.live.map fun c => if c.addr = a then { c with val := f c.val } else c := by
  simp only [live, setVal, write]
  induction p.cells with
  | nil => rfl
  | cons c cs ih =>
    rw [List.map_cons, List.filter_cons, List.filter_cons, ih]
    by_cases h : c.addr = a <;> cases hu : c.inUse <;> simp [h, hu]

theorem perm_live_reorder (p : Pool α) (cells : List (Cell α)) (h : cells.Perm p.cells) :
    (p.reorder cells h).live.Perm p.live := h.filter _

theorem perm_live_toFront (p : Pool α) (a : Nat) : (p.toFront a).live.Perm p.live :=
  perm_live_reorder p _ _

/-- A cell that was not in use joins the ones that are. -/
theorem perm_live_use (v : α) (hc : c ∈ p.cells) (hfree : c.inUse = false) :
    (p.use c.addr v).live.Perm (⟨c.addr, v, true⟩ :: p.live) := by
  obtain ⟨front, back, hcells⟩ := List.append_of_mem hc
  have hne : ∀ d ∈ front ++ back, d.addr ≠ c.addr := by
    have hnodup := p.nodup
    rw [hcells, List.map_append, List.map_cons, List.nodup_middle, List.nodup_cons,
      ← List.map_append] at hnodup
    exact fun d hd heq => hnodup.1 (heq ▸ List.mem_map_of_mem hd)
  -- the cells before and after it are left as they are
  have hsame : ∀ l : List (Cell α), (∀ d ∈ l, d.addr ≠ c.addr) →
      l.map (fun d => if d.addr = c.addr then (⟨d.addr, v, true⟩ : Cell α) else d) = l := by
    intro l hl
    conv_rhs => rw [← List.map_id l]
    exact List.map_congr_left fun d hd => if_neg (hl d hd)
  have hlive : (p.use c.addr v).live
      = front.filter (·.inUse) ++ ⟨c.addr, v, true⟩ :: back.filter (·.inUse) := by
    simp only [live, use, write, hcells, List.map_append, List.map_cons, if_true]
    rw [hsame front fun d hd => hne d (List.mem_append_left _ hd),
      hsame back fun d hd => hne d (List.mem_append_right _ hd)]
    simp
  have hold : p.live = front.filter (·.inUse) ++ back.filter (·.inUse) := by
    simp [live, hcells, hfree]
  rw [hlive, hold]
  exact List.perm_middle

theorem mem_cells_of_firstFree (h : p.firstFree = some c) : c ∈ p.cells ∧ c.inUse = false :=
  ⟨List.mem_of_find?_eq_some h, by simpa using List.find?_some h⟩

theorem addr_not_mem_live (hc : c ∈ p.cells) (hfree : c.inUse = false) (hd : d ∈ p.live) :
    d.addr ≠ c.addr := by
  intro heq
  obtain ⟨hd, huse⟩ := mem_live_iff.mp hd
  rw [eq_of_addr_eq hd hc heq, hfree] at huse
  exact absurd huse Bool.false_ne_true

end Pool

/-! ## Indexes -/

/-- Every entry of `h` leads to a cell in use whose value has the key. -/
def Indexes [DecidableEq κ] (h : AList (fun _ : κ => Nat)) (key : α → κ) (p : Pool α) : Prop :=
  ∀ k a, h.lookup k = some a → ∃ c ∈ p.live, c.addr = a ∧ key c.val = k

namespace Indexes

variable [DecidableEq κ] {h : AList (fun _ : κ => Nat)} {key : α → κ} {p q : Pool α}

theorem empty (key : α → κ) (p : Pool α) : Indexes (∅ : AList (fun _ : κ => Nat)) key p := by
  intro k a hk
  simp at hk

theorem of_perm (hindex : Indexes h key p) (hperm : q.live.Perm p.live) : Indexes h key q := by
  intro k a hk
  obtain ⟨c, hc, hca, hck⟩ := hindex k a hk
  exact ⟨c, hperm.mem_iff.mpr hc, hca, hck⟩

/-- A cell that comes into use is entered under its key; an older entry gives way. -/
theorem insert {c : Cell α} (hindex : Indexes h key p) (hperm : q.live.Perm (c :: p.live)) :
    Indexes (h.insert (key c.val) c.addr) key q := by
  intro k a hk
  by_cases heq : k = key c.val
  · subst heq
    rw [AList.lookup_insert] at hk
    exact ⟨c, hperm.mem_iff.mpr List.mem_cons_self, Option.some.inj hk, rfl⟩
  · rw [AList.lookup_insert_ne heq] at hk
    obtain ⟨d, hd, hda, hdk⟩ := hindex k a hk
    exact ⟨d, hperm.mem_iff.mpr (List.mem_cons_of_mem _ hd), hda, hdk⟩

/-- A cell that goes out of use may take with it the entry under its key. -/
theorem erase_free {c : Cell α} (hindex : Indexes h key p) (hc : c ∈ p.cells) :
    Indexes (h.erase (key c.val)) key (p.free c.addr) := by
  intro k a hk
  have hne : k ≠ key c.val := by
    rintro rfl
    simp at hk
  rw [AList.lookup_erase_ne hne] at hk
  obtain ⟨d, hd, hda, hdk⟩ := hindex k a hk
  refine ⟨d, ?_, hda, hdk⟩
  rw [Pool.live_free, List.mem_filter]
  refine ⟨hd, ?_⟩
  -- `d` has another key than `c`, so it is another cell
  have hcell : d.addr ≠ c.addr := by
    intro heq
    rw [Pool.eq_of_addr_eq (Pool.mem_live_iff.mp hd).1 hc heq] at hdk
    exact hne hdk.symm
  simpa using hcell

/-- A cell in use goes away and the entry under some key is erased: that will do if the key is
the one under which the cell is found. -/
theorem erase_other {c : Cell α} {k₀ : κ} (hindex : Indexes h key p) (hc : c ∈ p.live)
    (hkey : h.lookup (key c.val) = some c.addr → k₀ = key c.val)
    (hq : ∀ d ∈ p.live, d.addr ≠ c.addr → d ∈ q.live) : Indexes (h.erase k₀) key q := by
  intro k a hk
  have hne : k ≠ k₀ := by
    rintro rfl
    simp at hk
  rw [AList.lookup_erase_ne hne] at hk
  obtain ⟨d, hd, rfl, rfl⟩ := hindex k a hk
  refine ⟨d, hq d hd fun heq => ?_, rfl, rfl⟩
  -- an entry that leads to the cell is the cell's own
  obtain rfl := Pool.eq_of_mem_live hd hc heq
  exact hne (hkey hk).symm

end Indexes
end Pools
