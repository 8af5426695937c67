import FreeSwitch.Lib.Bytes
import FreeSwitch.Lib.Pool

/-!
# The nodes of a jitter buffer

`switch_jitterbuffer.c` keeps the packets of a stream in a list of nodes. A node is never
freed: once its packet has been read or dropped it is hidden, and the next packet may reuse
it. Two hashes find a node by the sequence number and, in timestamp mode, by the timestamp of
its packet. The functions here are the ones that touch the list, the hashes and the counters
that go with them.

The node list is a `Pool`: a node's address is its `addr`, and its `visible` flag is `inUse`.
Header fields are kept as they stand in the packet, in network order. The node counters are
numbers that wrap only where the source decrements them: 2^32 nodes of 16 kilobytes do not
exist. Nothing in the file reads the body of a packet, so its type is a parameter.

* **`NodeStore`** — the list, the hashes and the counters.
* **`newNode`**, **`hideNode`**, **`hideNodes`**, **`dropTs`**, **`sortNodes`** — the source's
  functions on them.
* **`Indexed`** — every hash entry leads to a visible node with that key; every function of the
  file but the one that rewrites a sequence number keeps it.
-/

namespace FreeSwitch.JitterBuffer

open Bytes Pools

/-- `switch_jb_type_t`. -/
inductive JbType where
  | video
  | audio
  | text
  deriving DecidableEq, Repr

/-- The version of a packet has two bits. -/
scoped instance versionBits : NeZero 4 := ⟨by decide⟩

/-- `switch_rtp_packet_t`: the header fields the buffer reads, in network order, and the body. -/
structure Packet (β : Type) where
  version : Fin 4
  m : Bool
  seq : UInt16
  ts : UInt32
  body : β
  deriving DecidableEq, Repr

/-- What a `switch_jb_node_t` holds. -/
structure Stored (β : Type) where
  packet : Packet β
  len : Nat
  deriving DecidableEq, Repr

abbrev Node (β : Type) := Cell (Stored β)

/-- A `switch_inthash_t`: at most one value for each key. -/
abbrev IntHash (κ ν : Type) := AList (fun _ : κ => ν)

/-- The part of `switch_jb_t` that says which nodes there are; `allocated_nodes` is
`nodeList.allocated`. -/
structure NodeStore (β : Type) where
  nodeList : Pool (Stored β)
  visibleNodes : Nat
  completeFrames : Nat
  nodeHash : IntHash UInt16 Nat
  nodeHashTs : Option (IntHash UInt32 Nat)

variable {β : Type}

/-- `n--` on a `uint32_t`. -/
def dec32 (n : Nat) : Nat := if n = 0 then 2 ^ 32 - 1 else n - 1

def Stored.seq (n : Stored β) : UInt16 := n.packet.seq

def Stored.ts (n : Stored β) : UInt32 := n.packet.ts

/-! ## Sorting -/

/-- `node_cmp(a, b) <= 0`: what decides that `a` goes first. -/
def nodeLe (a b : Node β) : Bool :=
  !a.inUse || (b.inUse && decide (ntohs a.val.seq ≤ ntohs b.val.seq))

/-- The inner loop of `sort_nodes`: two runs become one. Each round takes a node, so the number
of nodes is fuel enough. -/
def mergeRuns : Nat → List (Node β) → List (Node β) → List (Node β)
  | 0, p, q => p ++ q
  | _ + 1, [], q => q
  | _ + 1, p, [] => p
  | fuel + 1, e :: p, f :: q =>
    if nodeLe e f then e :: mergeRuns fuel p (f :: q) else f :: mergeRuns fuel (e :: p) q

/-- One pass of `sort_nodes`: neighbouring runs of `insize` nodes are merged, and the merges
are counted. Each merge takes a node, so the length of the list is fuel enough. -/
def mergePass (insize : Nat) : Nat → List (Node β) → List (Node β) × Nat
  | 0, list => (list, 0)
  | _ + 1, [] => ([], 0)
  | fuel + 1, p :: list =>
    let merged := mergeRuns (2 * insize) ((p :: list).take insize)
      (((p :: list).drop insize).take insize)
    let (rest, nmerges) := mergePass insize fuel ((p :: list).drop (2 * insize))
    (merged ++ rest, nmerges + 1)

/-- The `while (1)` of `sort_nodes`, which ends with a pass of at most one merge. `insize`
doubles each time, so there are no more passes than nodes. -/
def sortLoop : Nat → Nat → List (Node β) → List (Node β)
  | 0, _, list => list
  | fuel + 1, insize, list =>
    let (list, nmerges) := mergePass insize list.length list
    if nmerges ≤ 1 then list else sortLoop fuel (insize * 2) list

def sortNodes (list : List (Node β)) : List (Node β) := sortLoop list.length 1 list

theorem mergeRuns_perm : ∀ (fuel : Nat) (p q : List (Node β)), (mergeRuns fuel p q).Perm (p ++ q) := by
  intro fuel
  induction fuel with
  | zero => exact fun p q => List.Perm.refl (p ++ q)
  | succ fuel ih =>
    intro p q
    cases p with
    | nil => exact List.Perm.of_eq (by simp [mergeRuns])
    | cons e p =>
      cases q with
      | nil => exact List.Perm.of_eq (by simp [mergeRuns])
      | cons f q =>
        simp only [mergeRuns]
        split
        · exact (ih p (f :: q)).cons e
        · exact ((ih (e :: p) q).cons f).trans List.perm_middle.symm

theorem mergePass_perm (insize : Nat) :
    ∀ (fuel : Nat) (list : List (Node β)), (mergePass insize fuel list).1.Perm list := by
  intro fuel
  induction fuel with
  | zero => intro list; exact List.Perm.refl list
  | succ fuel ih =>
    intro list
    cases list with
    | nil => exact List.Perm.refl []
    | cons p list =>
      have hmerge := mergeRuns_perm (2 * insize) ((p :: list).take insize)
        (((p :: list).drop insize).take insize)
      -- the two runs and what is left make up the list again
      have hsplit : (p :: list).take insize ++ ((p :: list).drop insize).take insize
          ++ (p :: list).drop (2 * insize) = p :: list := by
        rw [List.append_assoc, show 2 * insize = insize + insize by omega, ← List.drop_drop,
          List.take_append_drop, List.take_append_drop]
      exact (hmerge.append (ih _)).trans (List.Perm.of_eq hsplit)

theorem sortLoop_perm : ∀ (fuel insize : Nat) (list : List (Node β)),
      (sortLoop fuel insize list).Perm list := by
  intro fuel
  induction fuel with
  | zero => intro insize list; exact List.Perm.refl list
  | succ fuel ih =>
    intro insize list
    have hpass := mergePass_perm insize list.length list
    simp only [sortLoop]
    split
    · exact hpass
    · exact (ih _ _).trans hpass

theorem sortNodes_perm (list : List (Node β)) : (sortNodes list).Perm list :=
  sortLoop_perm _ _ list

namespace NodeStore

/-! ## The functions on nodes -/

/-- A buffer without nodes; timestamp mode has the second hash. -/
def empty (tsMode : Bool) : NodeStore β :=
  ⟨Pool.empty, 0, 0, ∅, if tsMode then some ∅ else none⟩

/-- `switch_core_inthash_find(jb->node_hash, seq)`. -/
def findSeq (st : NodeStore β) (seq : UInt16) : Option (Node β) :=
  (st.nodeHash.lookup seq).bind st.nodeList.cell?

/-- `switch_core_inthash_find(jb->node_hash_ts, ts)`. -/
def findTs (st : NodeStore β) (ts : UInt32) : Option (Node β) :=
  (st.nodeHashTs.bind (·.lookup ts)).bind st.nodeList.cell?

/-- The list after `new_node`, and the address of the node it hands out: the first hidden one,
else a new one at the head of the list, unless more than `limit` nodes exist already. The
packet is copied to the node at once, which `add_node` does first of all. -/
def newNode (st : NodeStore β) (limit : Nat) (n : Stored β) : Option (NodeStore β × Nat) :=
  match st.nodeList.firstFree with
  | some np =>
    some ({ st with
      nodeList := st.nodeList.use np.addr n
      visibleNodes := st.visibleNodes + 1 }, np.addr)
  | none =>
    if limit < st.nodeList.allocated then none
    else
      some ({ st with
        nodeList := st.nodeList.alloc n
        visibleNodes := st.visibleNodes + 1 }, st.nodeList.allocated)

/-- The two `switch_core_inthash_insert` of `add_node`. -/
def enter (st : NodeStore β) (a : Nat) (n : Stored β) : NodeStore β :=
  { st with
    nodeHash := st.nodeHash.insert n.seq a
    nodeHashTs := st.nodeHashTs.map (·.insert n.ts a) }

def hideNode (st : NodeStore β) (type : JbType) (a : Nat) (pop : Bool) : NodeStore β :=
  match st.nodeList.cell? a with
  | none => st
  | some node =>
    let nodeList := if node.inUse then st.nodeList.free a else st.nodeList
    { nodeList := if node.inUse && pop then nodeList.toFront a else nodeList
      visibleNodes := if node.inUse then dec32 st.visibleNodes else st.visibleNodes
      nodeHashTs := st.nodeHashTs.map (·.erase node.val.ts)
      nodeHash := st.nodeHash.erase node.val.seq
      -- counted down only when the delete found something
      completeFrames :=
        if (st.nodeHash.lookup node.val.seq).isSome && node.val.packet.version = 1 && type = .video
        then dec32 st.completeFrames else st.completeFrames }

def sortFreeNodes (st : NodeStore β) : NodeStore β :=
  { st with nodeList := st.nodeList.reorder (sortNodes st.nodeList.cells) (sortNodes_perm _) }

/-- Every node of the list, the hidden ones too. -/
def hideNodes (st : NodeStore β) (type : JbType) : NodeStore β :=
  st.nodeList.cells.foldl (fun st np => st.hideNode type np.addr false) st

/-- The body of the loop of `drop_ts`; the number counts the nodes it has hidden. -/
def dropStep (type : JbType) (ts : UInt32) (acc : NodeStore β × Nat) (np : Node β) :
    NodeStore β × Nat :=
  match acc.1.nodeList.cell? np.addr with
  | none => acc
  | some node =>
    if node.inUse && ts = node.val.ts then (acc.1.hideNode type node.addr false, acc.2 + 1)
    else acc

def dropTs (st : NodeStore β) (type : JbType) (ts : UInt32) : NodeStore β :=
  let (st, x) := st.nodeList.cells.foldl (dropStep type ts) (st, 0)
  if x ≠ 0 then st.sortFreeNodes else st

/-- The first visible node that `below` puts under all others before it. -/
def lowest (below : Node β → Node β → Bool) (wanted : Node β → Bool) (st : NodeStore β) :
    Option (Node β) :=
  st.nodeList.cells.foldl (fun low np =>
    if !np.inUse then low
    else if !wanted np then low
    else match low with
      | none => some np
      | some l => if below np l then some np else low) none

def jbFindLowestSeq (st : NodeStore β) (ts : UInt32) : Option (Node β) :=
  st.lowest (fun np low => decide (ntohs np.val.seq < ntohs low.val.seq))
    (fun np => decide (ts = 0 ∨ ts = np.val.ts))

def jbFindLowestNode (st : NodeStore β) : Option (Node β) :=
  st.lowest (fun np low => decide (ntohl np.val.ts < ntohl low.val.ts)) (fun _ => true)

def jbFindLowestTs (st : NodeStore β) : UInt32 :=
  match st.jbFindLowestNode with
  | some low => low.val.ts
  | none => 0

def dropOldestFrame (st : NodeStore β) (type : JbType) : NodeStore β :=
  st.dropTs type st.jbFindLowestTs

/-- `node->packet.header.version = 1` and the count of it. -/
def mark (st : NodeStore β) (a : Nat) : NodeStore β :=
  { st with
    nodeList := st.nodeList.setVal a fun n => { n with packet := { n.packet with version := 1 } }
    completeFrames := st.completeFrames + 1 }

/-- `node->packet.header.seq = seq`. -/
def setSeq (st : NodeStore β) (a : Nat) (seq : UInt16) : NodeStore β :=
  { st with
    nodeList := st.nodeList.setVal a fun n => { n with packet := { n.packet with seq := seq } } }

/-- The nodes that hold a packet. -/
def visible (st : NodeStore β) : List (Node β) := st.nodeList.live

/-! ## What they do to the visible nodes -/

variable {st st' : NodeStore β} {type : JbType}

/-- Hiding takes the node away from the visible ones, and nothing else. -/
theorem hideNode_visible (st : NodeStore β) (type : JbType) (a : Nat) (pop : Bool) :
    (st.hideNode type a pop).visible.Perm (st.nodeList.free a).live := by
  rw [Pool.live_free]
  unfold hideNode visible
  cases hcell : st.nodeList.cell? a with
  | none =>
    apply List.Perm.of_eq
    symm
    rw [List.filter_eq_self]
    intro n hn
    have hne : n.addr ≠ a := by
      rintro rfl
      rw [Pool.cell?_of_mem_live hn] at hcell
      exact absurd hcell (by simp)
    simpa using hne
  | some node =>
    obtain ⟨hnode, rfl⟩ := Pool.cell?_eq_some_iff.mp hcell
    cases huse : node.inUse with
    | false =>
      -- a hidden node is not among the visible ones
      apply List.Perm.of_eq
      symm
      simp only [huse, Bool.false_and, Bool.false_eq_true, if_false]
      rw [List.filter_eq_self]
      intro n hn
      simpa using Pool.addr_not_mem_live hnode huse hn
    | true =>
      rw [← Pool.live_free]
      cases pop with
      | false => simp only [huse, Bool.and_false, Bool.false_eq_true, if_false, if_true]; rfl
      | true =>
        simp only [huse, Bool.and_self, if_true]
        exact Pool.perm_live_toFront _ _

variable {a : Nat} {pop : Bool}

theorem mem_hideNode_visible {n : Node β} :
    n ∈ (st.hideNode type a pop).visible ↔ n ∈ st.visible ∧ n.addr ≠ a := by
  rw [(hideNode_visible st type a pop).mem_iff, Pool.live_free, List.mem_filter]
  simp [visible]

variable {node : Node β}

theorem hideNode_nodeHash (h : st.nodeList.cell? a = some node) :
    (st.hideNode type a pop).nodeHash = st.nodeHash.erase node.val.seq := by
  simp [hideNode, h]

theorem hideNode_nodeHashTs (h : st.nodeList.cell? a = some node) :
    (st.hideNode type a pop).nodeHashTs = st.nodeHashTs.map (·.erase node.val.ts) := by
  simp [hideNode, h]

theorem hideNode_completeFrames (h : st.nodeList.cell? a = some node) :
    (st.hideNode type a pop).completeFrames
      = if (st.nodeHash.lookup node.val.seq).isSome && node.val.packet.version = 1 && type = .video
        then dec32 st.completeFrames else st.completeFrames := by
  simp [hideNode, h]

theorem sortFreeNodes_visible (st : NodeStore β) : st.sortFreeNodes.visible.Perm st.visible :=
  Pool.perm_live_reorder _ _ (sortNodes_perm _)

/-- What hiding a visible node and sorting keep, `drop_ts` keeps. -/
theorem dropTs_induct {P : NodeStore β → Prop} (type : JbType) (ts : UInt32)
    (hhide : ∀ st n, n ∈ st.visible → P st → P (st.hideNode type n.addr false))
    (hsort : ∀ st, P st → P st.sortFreeNodes) (h : P st) : P (st.dropTs type ts) := by
  have hdone : P (st.nodeList.cells.foldl (dropStep type ts) (st, 0)).1 := by
    apply List.foldlRecOn (motive := fun acc : NodeStore β × Nat => P acc.1) _ _ h
    intro acc hacc np _
    unfold dropStep
    cases hcell : acc.1.nodeList.cell? np.addr with
    | none => exact hacc
    | some node =>
      dsimp only
      split
      · rename_i hdrop
        have huse : node.inUse = true := (Bool.and_eq_true_iff.mp hdrop).1
        have hmem := (Pool.cell?_eq_some_iff.mp hcell).1
        exact hhide acc.1 node (Pool.mem_live_iff.mpr ⟨hmem, huse⟩) hacc
      · exact hacc
  unfold dropTs
  dsimp only
  split
  · exact hsort _ hdone
  · exact hdone

/-- What hiding any node keeps, `hide_nodes` keeps. -/
theorem hideNodes_induct {P : NodeStore β → Prop} (type : JbType)
    (hhide : ∀ st a, P st → P (st.hideNode type a false)) (h : P st) : P (st.hideNodes type) :=
  List.foldlRecOn st.nodeList.cells _ h fun st hst np _ => hhide st np.addr hst

/-- After `hide_nodes` no node is visible. -/
theorem hideNodes_visible (st : NodeStore β) (type : JbType) : (st.hideNodes type).visible = [] := by
  -- a node that is still visible after part of the loop is none of those the loop has seen
  have hloop : ∀ (list : List (Node β)) (st : NodeStore β) (n : Node β),
      n ∈ (list.foldl (fun st np => st.hideNode type np.addr false) st).visible →
        n ∈ st.visible ∧ ∀ c ∈ list, n.addr ≠ c.addr := by
    intro list
    induction list with
    | nil => exact fun st n hn => ⟨hn, by simp⟩
    | cons np list ih =>
      intro st n hn
      obtain ⟨hvis, hrest⟩ := ih _ n hn
      obtain ⟨hvis, hne⟩ := mem_hideNode_visible.mp hvis
      refine ⟨hvis, fun c hc => ?_⟩
      rcases List.mem_cons.mp hc with rfl | hc
      · exact hne
      · exact hrest c hc
  rw [List.eq_nil_iff_forall_not_mem]
  intro n hn
  obtain ⟨hvis, hne⟩ := hloop _ st n hn
  exact hne n (Pool.mem_live_iff.mp hvis).1 rfl

/-- The node that `new_node` hands out joins the visible ones; hashes and frames stay. -/
theorem newNode_some {limit : Nat} {n : Stored β} (h : st.newNode limit n = some (st', a)) :
    st'.visible.Perm (⟨a, n, true⟩ :: st.visible) ∧ st'.nodeHash = st.nodeHash
      ∧ st'.nodeHashTs = st.nodeHashTs ∧ st'.completeFrames = st.completeFrames := by
  unfold newNode at h
  cases hfree : st.nodeList.firstFree with
  | some np =>
    rw [hfree] at h
    obtain ⟨rfl, rfl⟩ := Prod.mk.inj (Option.some.inj h)
    obtain ⟨hmem, huse⟩ := Pool.mem_cells_of_firstFree hfree
    exact ⟨Pool.perm_live_use n hmem huse, rfl, rfl, rfl⟩
  | none =>
    rw [hfree] at h
    dsimp only at h
    split at h
    · cases h
    · obtain ⟨rfl, rfl⟩ := Prod.mk.inj (Option.some.inj h)
      exact ⟨List.Perm.of_eq (Pool.live_alloc _ n), rfl, rfl, rfl⟩

/-- It was not one of them before. -/
theorem newNode_fresh {limit : Nat} {n : Stored β} (h : st.newNode limit n = some (st', a)) :
    ∀ c ∈ st.visible, c.addr ≠ a := by
  have hnodup := ((newNode_some h).1.map Cell.addr).nodup_iff.mp (Pool.live_nodup st'.nodeList)
  rw [List.map_cons, List.nodup_cons] at hnodup
  rintro c hc rfl
  exact hnodup.1 (List.mem_map.mpr ⟨c, hc, rfl⟩)

theorem lowest_visible {below : Node β → Node β → Bool} {wanted : Node β → Bool} {n : Node β}
    (h : st.lowest below wanted = some n) : n ∈ st.visible := by
  -- what the loop holds is a visible node it has seen
  have hloop : ∀ low, low ∈ st.lowest below wanted → low ∈ st.visible := by
    unfold lowest
    refine List.foldlRecOn (motive := fun low => ∀ l, l ∈ low → l ∈ st.visible)
      st.nodeList.cells _ (fun l hl => by cases hl) fun low hlow np hnp => ?_
    intro l hl
    split at hl
    · exact hlow l hl
    · rename_i huse
      split at hl
      · exact hlow l hl
      · have hvis : np ∈ st.visible := Pool.mem_live_iff.mpr ⟨hnp, by simpa using huse⟩
        split at hl
        · cases hl; exact hvis
        · split at hl
          · cases hl; exact hvis
          · exact hlow l hl
  exact hloop n h

/-- The cell of a visible node whose sequence number has been overwritten. -/
theorem setSeq_cell (seq : UInt16) (hnode : node ∈ st.visible) :
    (st.setSeq node.addr seq).nodeList.cell? node.addr
      = some { node with val := { node.val with packet := { node.val.packet with seq := seq } } } :=
  Pool.cell?_setVal _ (Pool.cell?_of_mem_live hnode)

theorem setSeq_hideNode_nodeHash (seq : UInt16) (hnode : node ∈ st.visible) :
    ((st.setSeq node.addr seq).hideNode type node.addr pop).nodeHash = st.nodeHash.erase seq :=
  hideNode_nodeHash (setSeq_cell seq hnode)

theorem setSeq_hideNode_nodeHashTs (seq : UInt16) (hnode : node ∈ st.visible) :
    ((st.setSeq node.addr seq).hideNode type node.addr pop).nodeHashTs
      = st.nodeHashTs.map (·.erase node.val.ts) := by
  rw [hideNode_nodeHashTs (setSeq_cell seq hnode)]
  rfl

theorem mem_setSeq_hideNode {n : Node β} {seq : UInt16} :
    n ∈ ((st.setSeq node.addr seq).hideNode type node.addr pop).visible ↔ n ∈ st.visible
    ∧ n.addr ≠ node.addr := by
  rw [mem_hideNode_visible]
  refine and_congr_left fun hne => ?_
  -- away from the node itself nothing was written
  show n ∈ (st.nodeList.setVal _ _).live ↔ n ∈ st.nodeList.live
  rw [Pool.live_setVal, List.mem_map]
  constructor
  · rintro ⟨c, hc, rfl⟩
    split at hne
    · rename_i heq
      exact absurd heq hne
    · rename_i hother
      rwa [if_neg hother]
  · intro hn
    exact ⟨n, hn, if_neg hne⟩

/-! ## The hashes -/

/-- Every entry of the timestamp hash leads to a visible node with that timestamp. -/
def IndexedTs (st : NodeStore β) : Prop :=
  ∀ h, st.nodeHashTs = some h → Indexes h Stored.ts st.nodeList

/-- Every entry of the two hashes leads to a visible node with that key. -/
structure Indexed (st : NodeStore β) : Prop where
  seq : Indexes st.nodeHash Stored.seq st.nodeList
  ts : ∀ h, st.nodeHashTs = some h → Indexes h Stored.ts st.nodeList

theorem indexed_empty (tsMode : Bool) : (empty tsMode : NodeStore β).Indexed := by
  refine ⟨Indexes.empty _ _, fun h hh => ?_⟩
  cases tsMode with
  | false => cases hh
  | true => cases hh; exact Indexes.empty _ _

theorem IndexedTs.of_perm (hst : st.IndexedTs) (hvis : st'.visible.Perm st.visible)
    (hts : st'.nodeHashTs = st.nodeHashTs) : st'.IndexedTs :=
  fun h hh => (hst h (hts ▸ hh)).of_perm hvis

theorem Indexed.of_perm (hst : st.Indexed) (hvis : st'.visible.Perm st.visible)
    (hseq : st'.nodeHash = st.nodeHash) (hts : st'.nodeHashTs = st.nodeHashTs) : st'.Indexed :=
  ⟨hseq ▸ hst.seq.of_perm hvis, IndexedTs.of_perm hst.ts hvis hts⟩

theorem Indexed.sortFreeNodes (hst : st.Indexed) : st.sortFreeNodes.Indexed :=
  hst.of_perm (sortFreeNodes_visible st) rfl rfl

theorem hideNode_of_none (h : st.nodeList.cell? a = none) : st.hideNode type a pop = st := by
  unfold hideNode
  rw [h]

theorem IndexedTs.hideNode (hst : st.IndexedTs) (a : Nat) (pop : Bool) :
    (st.hideNode type a pop).IndexedTs := by
  have hvis := hideNode_visible st type a pop
  cases hcell : st.nodeList.cell? a with
  | none =>
    rw [hideNode_of_none hcell]
    exact hst
  | some node =>
    obtain ⟨hnode, rfl⟩ := Pool.cell?_eq_some_iff.mp hcell
    intro h hh
    rw [hideNode_nodeHashTs hcell] at hh
    obtain ⟨h₀, hh₀, rfl⟩ := Option.map_eq_some_iff.mp hh
    exact ((hst h₀ hh₀).erase_free hnode).of_perm hvis

theorem Indexed.hideNode (hst : st.Indexed) (a : Nat) (pop : Bool) :
    (st.hideNode type a pop).Indexed := by
  refine ⟨?_, IndexedTs.hideNode hst.ts a pop⟩
  cases hcell : st.nodeList.cell? a with
  | none =>
    rw [hideNode_of_none hcell]
    exact hst.seq
  | some node =>
    obtain ⟨hnode, rfl⟩ := Pool.cell?_eq_some_iff.mp hcell
    rw [hideNode_nodeHash hcell]
    exact (hst.seq.erase_free hnode).of_perm (hideNode_visible st type node.addr pop)

theorem Indexed.dropTs (hst : st.Indexed) (ts : UInt32) : (st.dropTs type ts).Indexed :=
  dropTs_induct type ts (fun _ n _ h => h.hideNode n.addr false) (fun _ h => h.sortFreeNodes) hst

theorem IndexedTs.hideNodes (hst : st.IndexedTs) : (st.hideNodes type).IndexedTs :=
  hideNodes_induct type (fun _ a h => IndexedTs.hideNode h a false) hst

theorem Indexed.hideNodes (hst : st.Indexed) : (st.hideNodes type).Indexed :=
  hideNodes_induct type (fun _ a h => h.hideNode a false) hst

/-- A new node, entered in the hashes. -/
theorem IndexedTs.enter {n : Stored β} {added : NodeStore β} (hst : st.IndexedTs)
    (hvis : added.visible.Perm (⟨a, n, true⟩ :: st.visible))
    (hts : added.nodeHashTs = st.nodeHashTs) : (added.enter a n).IndexedTs := by
  intro h hh
  have hh : added.nodeHashTs.map (·.insert n.ts a) = some h := hh
  rw [hts] at hh
  obtain ⟨h₀, hh₀, rfl⟩ := Option.map_eq_some_iff.mp hh
  exact Indexes.insert (hst h₀ hh₀) hvis

theorem Indexed.enter {n : Stored β} {added : NodeStore β} (hst : st.Indexed)
    (hvis : added.visible.Perm (⟨a, n, true⟩ :: st.visible)) (hseq : added.nodeHash = st.nodeHash)
    (hts : added.nodeHashTs = st.nodeHashTs) : (added.enter a n).Indexed := by
  refine ⟨?_, IndexedTs.enter hst.ts hvis hts⟩
  show Indexes (added.nodeHash.insert n.seq a) _ _
  rw [hseq]
  exact Indexes.insert hst.seq hvis

/-- To the timestamp hash it is the same whether the sequence number is overwritten or not. -/
theorem IndexedTs.setSeq_hideNode {seq : UInt16} (hst : st.IndexedTs)
    (hnode : node ∈ st.visible) :
    ((st.setSeq node.addr seq).hideNode type node.addr pop).IndexedTs := by
  intro h hh
  rw [setSeq_hideNode_nodeHashTs seq hnode] at hh
  obtain ⟨h₀, hh₀, rfl⟩ := Option.map_eq_some_iff.mp hh
  exact (hst h₀ hh₀).erase_other hnode (fun _ => rfl) fun d hd hne =>
    mem_setSeq_hideNode.mpr ⟨hd, hne⟩

/-- A node is hidden after its sequence number has been overwritten. The entry that leads to it,
if there is one, is the entry that is deleted. -/
theorem Indexed.setSeq_hideNode {seq : UInt16} (hst : st.Indexed)
    (hnode : node ∈ st.visible)
    (hkey : st.nodeHash.lookup node.val.seq = some node.addr → seq = node.val.seq) :
    ((st.setSeq node.addr seq).hideNode type node.addr pop).Indexed := by
  refine ⟨?_, IndexedTs.setSeq_hideNode hst.ts hnode⟩
  rw [setSeq_hideNode_nodeHash seq hnode]
  exact hst.seq.erase_other hnode hkey fun d hd hne => mem_setSeq_hideNode.mpr ⟨hd, hne⟩

theorem Indexed.findSeq (hst : st.Indexed) {seq : UInt16} {n : Node β} (h : st.findSeq seq = some n) :
    n ∈ st.visible ∧ n.val.seq = seq ∧ st.nodeHash.lookup seq = some n.addr := by
  obtain ⟨a, hlookup, hcell⟩ := Option.bind_eq_some_iff.mp h
  obtain ⟨c, hc, rfl, hseq⟩ := hst.seq seq a hlookup
  rw [Pool.cell?_of_mem_live hc] at hcell
  cases hcell
  exact ⟨hc, hseq, hlookup⟩

theorem IndexedTs.findTs (hst : st.IndexedTs) {ts : UInt32} {n : Node β}
    (h : st.findTs ts = some n) : n ∈ st.visible := by
  obtain ⟨a, hlookup, hcell⟩ := Option.bind_eq_some_iff.mp h
  obtain ⟨hash, hhash, hlookup⟩ := Option.bind_eq_some_iff.mp hlookup
  obtain ⟨c, hc, rfl, -⟩ := hst hash hhash ts a hlookup
  rw [Pool.cell?_of_mem_live hc] at hcell
  cases hcell
  exact hc

end NodeStore
end FreeSwitch.JitterBuffer
