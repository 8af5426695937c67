import FreeSwitch.JitterBuffer.Effects
import FreeSwitch.Lib.Run

/-!
# The frame count of a video buffer

`add_node` counts a frame when its first packet comes in, and marks the node with version 1.
`hide_node` counts it off when such a node is hidden, but only if the delete of its sequence
number from `node_hash` finds an entry. So the count is right as long as every marked node has
an entry to be deleted, which no other node takes away.

A retransmitted packet breaks that: the entry of its sequence number leads to the newer node,
and when that is hidden, the marked one loses its entry. A packet that comes in with version 1
in its header breaks it at once.

* **`Counted`** — the invariant: the count, and an entry for each marked node that no visible
  node shares.
* **`Counted.hideNode`**, **`Counted.store`** — what hiding and storing a node do to it.
* **`SafePut`** — the condition on a put, in terms of the state before it.
* **`complete_frames_counted`** — in every run whose calls are safe, the count is the number of
  marked nodes.
-/

namespace FreeSwitch.JitterBuffer

open Bytes Pools

variable {β : Type}

/-- The node holds the first packet of a frame. -/
def marked (n : Node β) : Bool := decide (n.val.packet.version = 1)

namespace SwitchJb

inductive Step : SwitchJb β → Call β → SwitchJb β → Prop where
  | put {jb jb' : SwitchJb β} {packet : Packet β} {len fuel : Nat} {behind : Nat → UInt8} {fate : Fate}
      (h : jb.switchJbPutPacket fuel behind packet len = some (jb', fate)) :
        Step jb (.put packet len) jb'
  | get {jb : SwitchJb β} : Step jb .get jb.switchJbGetPacket.1
  | reset {jb : SwitchJb β} : Step jb .reset jb.switchJbReset

/-- A step as a function of the fuel for a put, with zeros behind the packet. -/
def exec (fuel : Nat) (jb : SwitchJb β) : Call β → Option (SwitchJb β)
  | .put packet len => (jb.switchJbPutPacket fuel (fun _ => 0) packet len).map Prod.fst
  | .get => some jb.switchJbGetPacket.1
  | .reset => some jb.switchJbReset

theorem exec_step {fuel : Nat} (jb : SwitchJb β) (call : Call β) (jb' : SwitchJb β)
    (h : jb.exec fuel call = some jb') : Step jb call jb' := by
  cases call with
  | put packet len =>
    obtain ⟨put, hput, rfl⟩ := Option.map_eq_some_iff.mp h
    exact .put hput
  | get => cases h; exact .get
  | reset => cases h; exact .reset

/-- The packet leaves so large a gap behind the number that is expected that the buffer is reset
before the packet is stored. -/
def gapResets (jb : SwitchJb β) (packet : Packet β) : Bool :=
  let got := (ntohs packet.seq).toNat
  let want := if jb.nextSeq = 0 then got else (ntohs jb.nextSeq).toNat
  !jb.queueOnly && decide (want < got)
    && decide (jb.maxFrameLen.toNat < got - want ∧ 17 < got - want)

/-- The packet fits into a node. Unless it is ignored or hidden again by a reset, it has version 1
only if it starts a frame, and no visible node has its sequence number when either of the two
starts a frame. -/
structure SafePut (jb : SwitchJb β) (packet : Packet β) (len : Nat) : Prop where
  fits : len ≤ bodyRoom
  version : jb.alreadyDropped packet = false → packet.version = 1 →
    jb.gapResets packet = false ∧ (jb.punts packet = false → jb.startsFrame packet = true)
  alone : jb.alreadyDropped packet = false → jb.gapResets packet = false → jb.punts packet = false →
    ∀ n ∈ jb.store.visible, n.val.seq = packet.seq → marked n = false ∧ jb.startsFrame packet = false

end SwitchJb

/-! ## The invariant -/

structure Counted (st : NodeStore β) : Prop where
  indexed : st.Indexed
  frames : st.completeFrames = st.visible.countP marked
  entered : ∀ n ∈ st.visible, marked n = true → (st.nodeHash.lookup n.val.seq).isSome = true
  alone : ∀ n ∈ st.visible, ∀ c ∈ st.visible, marked n = true → n.val.seq = c.val.seq → n = c

variable {st st' added : NodeStore β}

theorem Counted.sortFreeNodes (h : Counted st) : Counted st.sortFreeNodes := by
  have hperm := NodeStore.sortFreeNodes_visible st
  refine ⟨h.indexed.sortFreeNodes, ?_, fun n hn => h.entered n (hperm.mem_iff.mp hn),
    fun n hn c hc => h.alone n (hperm.mem_iff.mp hn) c (hperm.mem_iff.mp hc)⟩
  rw [hperm.countP_eq]
  exact h.frames

/-- Without one node, the marked ones are one fewer if the node is marked. -/
theorem countP_hideNode {node : Node β} (type : JbType) (pop : Bool) (hnode : node ∈ st.visible) :
    st.visible.countP marked = (st.hideNode type node.addr pop).visible.countP marked
      + if marked node then 1 else 0 := by
  have hsplit : st.visible.Perm (node :: (st.nodeList.free node.addr).live) :=
    Pool.perm_live_free hnode
  rw [hsplit.countP_eq, List.countP_cons, (NodeStore.hideNode_visible st type node.addr pop).countP_eq]

theorem Counted.hideNode {node : Node β} {pop : Bool} (h : Counted st) (hnode : node ∈ st.visible) :
    Counted (st.hideNode .video node.addr pop) := by
  have hcell := Pool.cell?_of_mem_live hnode
  have hvis : ∀ n ∈ (st.hideNode .video node.addr pop).visible, n ∈ st.visible ∧ n.addr ≠ node.addr :=
    fun n hn => NodeStore.mem_hideNode_visible.mp hn
  refine ⟨h.indexed.hideNode _ pop, ?_, fun n hn hmark => ?_,
    fun n hn c hc => h.alone n (hvis n hn).1 c (hvis c hc).1⟩
  · -- the count goes down exactly when the node is marked, since then its entry is there
    have hcount := countP_hideNode .video pop hnode
    rw [← h.frames] at hcount
    rw [NodeStore.hideNode_completeFrames hcell]
    cases hmark : marked node with
    | true =>
      have hversion : node.val.packet.version = 1 := of_decide_eq_true hmark
      rw [hmark, if_pos rfl] at hcount
      rw [h.entered node hnode hmark, hversion]
      simp only [decide_true, Bool.and_self, if_true, dec32]
      rw [if_neg (by omega)]
      omega
    | false =>
      have hversion : node.val.packet.version ≠ 1 := of_decide_eq_false hmark
      rw [hmark] at hcount
      simp only [hversion, decide_false, Bool.and_false, Bool.false_and, Bool.false_eq_true, if_false]
      simpa using hcount
  · -- another marked node has another number, so its entry stays
    have hne : n.val.seq ≠ node.val.seq := by
      intro heq
      exact (hvis n hn).2 (congrArg Cell.addr (h.alone n (hvis n hn).1 node hnode hmark heq))
    rw [NodeStore.hideNode_nodeHash hcell, AList.lookup_erase_ne hne]
    exact h.entered n (hvis n hn).1 hmark

theorem Counted.dropTs (h : Counted st) (ts : UInt32) : Counted (st.dropTs .video ts) :=
  NodeStore.dropTs_induct .video ts (fun _ _ hn h => h.hideNode hn) (fun _ h => h.sortFreeNodes) h

theorem Counted.trimmed (h : Counted st) (htrim : SwitchJb.Trimmed .video st st') : Counted st' := by
  induction htrim with
  | refl => exact h
  | tail _ hdrop ih =>
    obtain ⟨ts, rfl⟩ := hdrop
    exact ih.dropTs ts

/-- A node is added and entered in the hashes, counted if it is marked. It shares its number
with no visible node if one of the two is marked. -/
theorem Counted.enter {a : Nat} {n : Stored β} (h : Counted st)
    (hvis : added.visible.Perm (⟨a, n, true⟩ :: st.visible)) (hhash : added.nodeHash = st.nodeHash)
    (hhashTs : added.nodeHashTs = st.nodeHashTs)
    (hframes : added.completeFrames
      = st.completeFrames + if marked (⟨a, n, true⟩ : Node β) then 1 else 0)
    (hseq : ∀ c ∈ st.visible, c.val.seq = n.seq → marked c = false
      ∧ marked (⟨a, n, true⟩ : Node β) = false) :
    Counted (added.enter a n) := by
  have hmem : ∀ c ∈ (added.enter a n).visible, c = ⟨a, n, true⟩ ∨ c ∈ st.visible := fun c hc =>
    List.mem_cons.mp (hvis.mem_iff.mp hc)
  refine ⟨h.indexed.enter hvis hhash hhashTs, ?_, fun c hc hmark => ?_, fun c hc d hd hmark heq => ?_⟩
  · show added.completeFrames = added.visible.countP marked
    rw [hframes, h.frames, hvis.countP_eq, List.countP_cons]
  · show ((added.nodeHash.insert n.seq a).lookup c.val.seq).isSome = true
    by_cases heq : c.val.seq = n.seq
    · rw [heq, AList.lookup_insert]
      rfl
    · rw [AList.lookup_insert_ne heq, hhash]
      rcases hmem c hc with rfl | hc
      · exact absurd rfl heq
      · exact h.entered c hc hmark
  · rcases hmem c hc with rfl | hc
    · rcases hmem d hd with rfl | hd
      · rfl
      · rw [(hseq d hd heq.symm).2] at hmark
        cases hmark
    · rcases hmem d hd with rfl | hd
      · rw [(hseq c hc heq).1] at hmark
        cases hmark
      · exact h.alone c hc d hd hmark heq

/-- The new node after `mark`; the old ones are as they were. -/
theorem mark_visible {a limit : Nat} {n : Stored β} (hnew : st.newNode limit n = some (added, a)) :
    (added.mark a).visible.Perm
      (⟨a, { n with packet := { n.packet with version := 1 } }, true⟩ :: st.visible) := by
  have hvis := (NodeStore.newNode_some hnew).1
  have hfresh := NodeStore.newNode_fresh hnew
  show (added.nodeList.setVal _ _).live.Perm _
  rw [Pool.live_setVal]
  refine (hvis.map _).trans (List.Perm.of_eq ?_)
  rw [List.map_cons, if_pos rfl]
  congr 1
  conv_rhs => rw [← List.map_id st.visible]
  exact List.map_congr_left fun c hc => if_neg (hfresh c hc)

/-- A packet is stored and counted by `add_node`. -/
theorem Counted.store {jb : SwitchJb β} {a limit : Nat} {n : Stored β} (hvideo : jb.type = .video)
    (h : Counted st) (hnew : st.newNode limit n = some (added, a))
    (hversion : n.packet.version = 1 → jb.startsFrame n.packet = true)
    (hseq : ∀ c ∈ st.visible, c.val.seq = n.seq → marked c = false ∧ jb.startsFrame n.packet = false) :
    Counted (jb.countStored n.packet a (added.enter a n)) := by
  obtain ⟨hvis, hhash, hhashTs, hframes⟩ := NodeStore.newNode_some hnew
  unfold SwitchJb.countStored
  rw [if_pos hvideo]
  cases hstarts : jb.startsFrame n.packet with
  | false =>
    have hplain : marked (⟨a, n, true⟩ : Node β) = false := by
      apply decide_eq_false
      intro hone
      rw [hversion hone] at hstarts
      cases hstarts
    rw [if_neg Bool.false_ne_true]
    refine h.enter hvis hhash hhashTs ?_ fun c hc heq => ⟨(hseq c hc heq).1, hplain⟩
    rw [hplain]
    exact hframes
  | true =>
    -- marking the node and entering it may change places
    rw [if_pos rfl]
    show Counted ((added.mark a).enter a { n with packet := { n.packet with version := 1 } })
    refine h.enter (mark_visible hnew) hhash hhashTs ?_ fun c hc heq => ?_
    · show added.completeFrames + 1 = _
      rw [hframes]
      rfl
    · have hno := (hseq c hc heq).2
      rw [hstarts] at hno
      cases hno

/-! ## One call -/

namespace SwitchJb

variable {jb jb' : SwitchJb β}

/-- What `add_node` looks at when it tells frames apart is as it was. -/
structure SameWrote (jb jb' : SwitchJb β) : Prop where
  type : jb'.type = jb.type
  store : jb'.store = jb.store
  writeInit : jb'.writeInit = jb.writeInit
  highestWroteSeq : jb'.highestWroteSeq = jb.highestWroteSeq
  highestWroteTs : jb'.highestWroteTs = jb.highestWroteTs

theorem SameWrote.punts (h : SameWrote jb jb') (packet : Packet β) :
    jb'.punts packet = jb.punts packet := by
  unfold SwitchJb.punts seqDiff tsDiff
  rw [h.type, h.writeInit, h.highestWroteSeq, h.highestWroteTs]

theorem SameWrote.startsFrame (h : SameWrote jb jb') (packet : Packet β) :
    jb'.startsFrame packet = jb.startsFrame packet := by
  unfold SwitchJb.startsFrame noteWroteSeq
  dsimp only
  rw [h.writeInit, h.highestWroteSeq]
  unfold marks
  split
  · rw [h.highestWroteTs]
  · rw [h.writeInit, h.highestWroteSeq, h.highestWroteTs]

theorem SameWrote.trans {jb₁ : SwitchJb β} (h : SameWrote jb jb₁) (h' : SameWrote jb₁ jb') :
    SameWrote jb jb' :=
  ⟨h'.type.trans h.type, h'.store.trans h.store, h'.writeInit.trans h.writeInit,
    h'.highestWroteSeq.trans h.highestWroteSeq, h'.highestWroteTs.trans h.highestWroteTs⟩

theorem noteGap_wrote (jb : SwitchJb β) (want got : Nat) :
    if want < got ∧ jb.maxFrameLen.toNat < got - want ∧ 17 < got - want then
      jb.noteGap want got = jb.switchJbReset
    else SameWrote jb (jb.noteGap want got) := by
  unfold noteGap
  split
  · next hgap => rw [if_pos hgap.1, if_pos hgap.2]
  · next hgap =>
    split
    · next hlt =>
      rw [if_neg fun h => hgap ⟨hlt, h⟩]
      dsimp only
      split
      · exact ⟨rfl, rfl, rfl, rfl, rfl⟩
      · exact ⟨rfl, rfl, rfl, rfl, rfl⟩
    · exact ⟨rfl, rfl, rfl, rfl, rfl⟩

theorem noteLate_wrote (jb : SwitchJb β) (packet : Packet β) :
    SameWrote jb (jb.noteLate packet) ∧ (jb.noteLate packet).maxFrameLen = jb.maxFrameLen := by
  unfold noteLate
  dsimp only
  split
  · exact ⟨⟨rfl, rfl, rfl, rfl, rfl⟩, rfl⟩
  · exact ⟨⟨rfl, rfl, rfl, rfl, rfl⟩, rfl⟩

theorem noteSeq_wrote (jb : SwitchJb β) (packet : Packet β) (hvideo : jb.type = .video) :
    if jb.gapResets packet then
      (jb.noteSeq packet).writeInit = false ∧ (jb.noteSeq packet).store = jb.store.reset .video
    else SameWrote jb (jb.noteSeq packet) := by
  unfold noteSeq gapResets
  extract_lets got want next gapped
  have hcond : (jb.queueOnly || decide (jb.type = .audio) || decide (jb.type = .text))
      = jb.queueOnly := by
    rw [hvideo]
    simp
  rw [hcond]
  by_cases hqueue : jb.queueOnly = true
  · rw [if_pos hqueue, hqueue]
    exact ⟨rfl, rfl, rfl, rfl, rfl⟩
  · obtain ⟨hlate, hmax⟩ := noteLate_wrote jb packet
    have hgap := noteGap_wrote (jb.noteLate packet) want got
    have hnext : SameWrote gapped
        (if want ≤ got ∨ 1000 < want - got then { gapped with nextSeq := next } else gapped) := by
      split
      · exact ⟨rfl, rfl, rfl, rfl, rfl⟩
      · exact ⟨rfl, rfl, rfl, rfl, rfl⟩
    rw [hmax] at hgap
    rw [if_neg hqueue, Bool.eq_false_iff.mpr hqueue]
    simp only [Bool.not_false, Bool.true_and, Bool.and_eq_true, decide_eq_true_eq]
    split
    · next hbig =>
      rw [if_pos hbig] at hgap
      have hgapped : gapped = (jb.noteLate packet).switchJbReset := hgap
      rw [hnext.writeInit, hnext.store, hgapped, switchJbReset_store, hlate.store, hlate.type, hvideo]
      exact ⟨rfl, rfl⟩
    · next hbig =>
      rw [if_neg hbig] at hgap
      exact (hlate.trans hgap).trans hnext

/-- What a safe packet finds when it is stored. -/
theorem SafePut.prepared {packet : Packet β} {len : Nat} (h : jb.SafePut packet len)
    (hvideo : jb.type = .video) (hkept : jb.alreadyDropped packet = false)
    (hpunt : (jb.putPrepare packet).punts packet = false) :
    (packet.version = 1 → (jb.putPrepare packet).startsFrame packet = true)
      ∧ ∀ n ∈ (jb.putPrepare packet).store.visible, n.val.seq = packet.seq →
          marked n = false ∧ (jb.putPrepare packet).startsFrame packet = false := by
  have hwrote := noteSeq_wrote { jb with highestDroppedTs := 0 } packet hvideo
  have hundropped : SameWrote jb { jb with highestDroppedTs := 0 } := ⟨rfl, rfl, rfl, rfl, rfl⟩
  cases hgap : jb.gapResets packet with
  | true =>
    have hwrote := (if_pos hgap).mp hwrote
    refine ⟨fun hone => ?_, fun n hn => ?_⟩
    · have := (h.version hkept hone).1
      rw [hgap] at this
      cases this
    · have hvis : (jb.putPrepare packet).store.visible = [] :=
        hwrote.2 ▸ NodeStore.hideNodes_visible jb.store .video
      exact absurd (hvis ▸ hn) List.not_mem_nil
  | false =>
    have hsame : SameWrote jb (jb.putPrepare packet) :=
      hundropped.trans ((if_neg (Bool.eq_false_iff.mp hgap)).mp hwrote)
    rw [hsame.punts] at hpunt
    rw [hsame.startsFrame, hsame.store]
    exact ⟨fun hone => (h.version hkept hone).2 hpunt, h.alone hkept hgap hpunt⟩

end SwitchJb

end FreeSwitch.JitterBuffer
