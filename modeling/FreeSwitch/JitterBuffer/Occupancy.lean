import FreeSwitch.JitterBuffer.Frames

/-!
# How full an audio buffer is

`switch_jb_get_packet` compares `complete_frames` with `frame_len` to tell whether it must go on
buffering. In an audio buffer every packet is a frame, so the count should be the number of visible
nodes. It is kept in other places than `visible_nodes`: `add_node` and `new_node` count a packet in,
`switch_jb_get_packet` and `hide_node` count it out, and a reset clears the one and counts down the
other.

The two stay together as long as a read takes a visible node. In sequence mode `node_hash` leads to
visible nodes only. In timestamp mode it does not, but there a read looks in `node_hash_ts`.

* **`Occupied`** — both counters are the number of visible nodes.
* **`Occupied.take`**, **`Occupied.store`**, **`occupied_reset`** — what the calls do to it.
* **`complete_frames_eq_visible`** — it holds in every state of an audio buffer, as long as each packet
  fits into a node, and so a get starts to read exactly when that many packets are held.
* **`complete_frames_overrun`** — a longer packet is copied over the `visible` of its node.
-/

namespace FreeSwitch.JitterBuffer

open Bytes Pools

variable {β : Type}

/-! ## The node counter -/

namespace NodeStore

variable {st added : NodeStore β} {type : JbType}

theorem length_hideNode {node : Node β} (type : JbType) (pop : Bool) (hnode : node ∈ st.visible) :
    st.visible.length = (st.hideNode type node.addr pop).visible.length + 1 := by
  have hsplit : st.visible.Perm (node :: (st.nodeList.free node.addr).live) := Pool.perm_live_free hnode
  rw [hsplit.length_eq, List.length_cons, (hideNode_visible st type node.addr pop).length_eq]

/-- A node that is hidden already is not counted off again. -/
theorem hideNode_visibleNodes (h : st.visibleNodes = st.visible.length) (a : Nat) (pop : Bool) :
    (st.hideNode type a pop).visibleNodes = (st.hideNode type a pop).visible.length := by
  cases hcell : st.nodeList.cell? a with
  | none =>
    rw [hideNode_of_none hcell]
    exact h
  | some node =>
    obtain ⟨hnode, rfl⟩ := Pool.cell?_eq_some_iff.mp hcell
    have hcount : (st.hideNode type node.addr pop).visibleNodes
        = if node.inUse then dec32 st.visibleNodes else st.visibleNodes := by
      simp [hideNode, hcell]
    rw [hcount]
    cases huse : node.inUse with
    | true =>
      have hlen := length_hideNode type pop (Pool.mem_live_iff.mpr ⟨hnode, huse⟩)
      rw [if_pos rfl, dec32, if_neg (by omega)]
      omega
    | false =>
      have hfree : (st.nodeList.free node.addr).live = st.visible := by
        rw [Pool.live_free]
        exact List.filter_eq_self.mpr fun n hn => by simpa using Pool.addr_not_mem_live hnode huse hn
      rw [if_neg Bool.false_ne_true, (hideNode_visible st type node.addr pop).length_eq, hfree]
      exact h

theorem newNode_visibleNodes {limit a : Nat} {n : Stored β} (h : st.newNode limit n = some (added, a)) :
    added.visibleNodes = st.visibleNodes + 1 := by
  unfold newNode at h
  split at h
  · cases h
    rfl
  · split at h
    · cases h
    · cases h
      rfl

theorem length_setSeq_visible (st : NodeStore β) (a : Nat) (seq : UInt16) :
    (st.setSeq a seq).visible.length = st.visible.length := by
  show (st.nodeList.setVal a _).live.length = st.nodeList.live.length
  rw [Pool.live_setVal, List.length_map]

end NodeStore

/-! ## The invariant -/

structure Occupied (st : NodeStore β) : Prop where
  nodes : st.visibleNodes = st.visible.length
  frames : st.completeFrames = st.visible.length

variable {st st' added : NodeStore β} {type : JbType}

theorem occupied_reset (h : st.visibleNodes = st.visible.length) : Occupied (st.reset type) := by
  have hvis : (st.reset type).visible = [] := NodeStore.hideNodes_visible st type
  have hnodes : (st.hideNodes type).visibleNodes = (st.hideNodes type).visible.length :=
    NodeStore.hideNodes_induct (P := fun st => st.visibleNodes = st.visible.length) type
      (fun _ a h => NodeStore.hideNode_visibleNodes h a false) h
  exact ⟨hnodes, by rw [hvis]; rfl⟩

/-- The packet is counted twice, by `new_node` and by `add_node`. -/
theorem Occupied.store {limit a : Nat} {n : Stored β} (h : Occupied st)
    (hnew : st.newNode limit n = some (added, a)) :
    Occupied { added.enter a n with completeFrames := (added.enter a n).completeFrames + 1 } := by
  obtain ⟨hvis, -, -, hframes⟩ := NodeStore.newNode_some hnew
  have hlen : added.visible.length = st.visible.length + 1 := hvis.length_eq
  constructor
  · show added.visibleNodes = added.visible.length
    rw [NodeStore.newNode_visibleNodes hnew, h.nodes, hlen]
  · show added.completeFrames + 1 = added.visible.length
    rw [hframes, h.frames, hlen]

theorem Occupied.setSeq (h : Occupied st) (a : Nat) (seq : UInt16) : Occupied (st.setSeq a seq) := by
  have hlen := NodeStore.length_setSeq_visible st a seq
  exact ⟨h.nodes.trans hlen.symm, h.frames.trans hlen.symm⟩

/-- A visible node whose frame has been counted off is hidden. -/
theorem occupied_hideNode {node : Node β} (hnode : node ∈ st.visible)
    (hnodes : st.visibleNodes = st.visible.length)
    (hframes : st.completeFrames + 1 = st.visible.length) :
    Occupied (st.hideNode .audio node.addr true) := by
  have hlen := NodeStore.length_hideNode .audio true hnode
  refine ⟨NodeStore.hideNode_visibleNodes hnodes node.addr true, ?_⟩
  -- outside video buffers the version of the packet does not matter
  rw [NodeStore.hideNode_completeFrames (Pool.cell?_of_mem_live hnode), if_neg (by simp)]
  omega

theorem Occupied.take {node : Node β} (h : Occupied st) (hnode : node ∈ st.visible) :
    Occupied ((st.countRead .audio).hideNode .audio node.addr true) := by
  have hpos : 0 < st.visible.length := List.length_pos_of_mem hnode
  refine @occupied_hideNode _ (st.countRead .audio) node hnode h.nodes ?_
  show dec32 st.completeFrames + 1 = st.visible.length
  rw [h.frames, dec32, if_neg hpos.ne']
  omega

/-- In timestamp mode the node has been given another sequence number first. -/
theorem Occupied.take_setSeq {node : Node β} {seq : UInt16} (h : Occupied st)
    (hnode : node ∈ st.visible) :
    Occupied (((st.setSeq node.addr seq).countRead .audio).hideNode .audio node.addr true) := by
  obtain ⟨hmem, -⟩ := Pool.cell?_eq_some_iff.mp (NodeStore.setSeq_cell seq hnode)
  have huse := (Pool.mem_live_iff.mp hnode).2
  have htake := (h.setSeq node.addr seq).take (Pool.mem_live_iff.mpr ⟨hmem, huse⟩)
  exact htake

/-! ## One call -/

namespace SwitchJb

variable {jb jb' : SwitchJb β}

/-- What holds of an audio buffer in every state. -/
structure Occupies (jb : SwitchJb β) : Prop where
  audio : jb.type = .audio
  unmeasured : jb.maxPacketLen = 0
  calm : jb.flush = false
  searchable : jb.Searchable
  occupied : Occupied jb.store

theorem Occupies.not_video (h : Occupies jb) : jb.type ≠ .video := by
  rw [h.audio]
  exact nofun

/-- A call keeps it if it does so for the nodes. -/
theorem Occupies.of_store (h : Occupies jb) (hkeeps : Keeps jb jb')
    (hseq : jb.samplesPerFrame = 0 → jb'.store.Indexed)
    (hts : jb.samplesPerFrame ≠ 0 → jb'.store.IndexedTs) (hoccupied : Occupied jb'.store) :
    Occupies jb' where
  audio := hkeeps.type.trans h.audio
  unmeasured := (hkeeps.maxPacketLen h.not_video).trans h.unmeasured
  calm := hkeeps.flush (by rw [h.audio]; exact nofun) h.calm
  searchable := ⟨fun hmode => hseq (hkeeps.samplesPerFrame.symm.trans hmode),
    fun hmode => hts (hkeeps.samplesPerFrame ▸ hmode)⟩
  occupied := hoccupied

theorem Occupies.reset (h : Occupies jb) : Occupies jb.switchJbReset := by
  refine h.of_store (switchJbReset_keeps jb) (fun hmode => ?_) (fun hmode => ?_)
    (occupied_reset h.occupied.nodes)
  · exact ⟨(h.searchable.bySeq hmode).hideNodes.seq, (h.searchable.bySeq hmode).hideNodes.ts⟩
  · exact (h.searchable.byTs hmode).hideNodes

/-- An audio buffer is not reset before a packet is added, and never makes room for one. -/
theorem Occupies.put_store {packet : Packet β} {len fuel : Nat} {behind : Nat → UInt8} {fate : Fate}
    (h : Occupies jb) (hlen : len ≤ bodyRoom)
    (hput : jb.switchJbPutPacket fuel behind packet len = some (jb', fate)) :
    (jb.putPrepare packet).store = jb.store ∧ PutEffect jb packet len jb'.store fate := by
  have hprep : (jb.putPrepare packet).store = jb.store :=
    (putPrepare_prepared jb packet).2.resolve_right fun hvideo => h.not_video hvideo.1
  refine ⟨hprep, ?_⟩
  rw [switchJbPutPacket_unmeasured hlen fuel behind packet h.unmeasured h.not_video] at hput
  split at hput
  · cases hput
    exact .ignored
  · have heffect := (addNode_effect hlen behind jb packet).2
    rw [Option.some.inj hput] at heffect
    exact heffect

theorem Occupies.put {packet : Packet β} {len fuel : Nat} {behind : Nat → UInt8} {fate : Fate}
    (h : Occupies jb) (hlen : len ≤ bodyRoom)
    (hput : jb.switchJbPutPacket fuel behind packet len = some (jb', fate)) : Occupies jb' := by
  obtain ⟨hprep, heffect⟩ := h.put_store hlen hput
  have hkeeps := (switchJbPutPacket_effect hlen hput).1
  generalize hst : jb'.store = st at heffect
  cases heffect with
  | ignored =>
    have hsearch := h.searchable
    exact h.of_store hkeeps (fun hmode => hst ▸ hsearch.bySeq hmode)
      (fun hmode => hst ▸ hsearch.byTs hmode)
      (hst ▸ h.occupied)
  | refused =>
    rw [hprep] at hst
    have hreset := h.reset
    refine h.of_store hkeeps (fun hmode => ?_) (fun hmode => ?_) ?_
    · exact hst ▸ hreset.searchable.bySeq hmode
    · exact hst ▸ hreset.searchable.byTs hmode
    · exact hst ▸ hreset.occupied
  | punted hvideo _ => exact absurd hvideo h.not_video
  | stored hnew =>
    have htype : (jb.putPrepare packet).type ≠ .video := by
      rw [(putPrepare_prepared jb packet).1.type]
      exact h.not_video
    unfold countStored at hst
    rw [if_neg htype] at hst
    rw [hprep] at hnew
    obtain ⟨hvis, hhash, hhashTs, -⟩ := NodeStore.newNode_some hnew
    refine h.of_store hkeeps (fun hmode => ?_) (fun hmode => ?_) (hst ▸ h.occupied.store hnew)
    · have hindexed := (h.searchable.bySeq hmode).enter hvis hhash hhashTs
      rw [hst]
      exact ⟨hindexed.seq, hindexed.ts⟩
    · rw [hst]
      exact (h.searchable.byTs hmode).enter hvis hhashTs

theorem Occupies.get (h : Occupies jb) : Occupies jb.switchJbGetPacket.1 := by
  obtain ⟨hkeeps, st, heffect, hstore⟩ := switchJbGetPacket_effect jb h.searchable
  have hstore : jb.switchJbGetPacket.1.store = st :=
    hstore.resolve_right fun hvideo => h.not_video hvideo.1
  have hskimmed : ∀ st, jb.Skimmed st → st = jb.store := fun st hst =>
    hst.resolve_right fun hvideo => h.not_video hvideo.1
  have hframes (st : NodeStore β) (a : Nat) := NodeStore.countRead_hideNode st .audio a true
  generalize jb.switchJbGetPacket.2.packet = returned at heffect
  cases heffect with
  | nothing hst =>
    rw [hskimmed st hst] at hstore
    exact h.of_store hkeeps (fun hmode => hstore ▸ h.searchable.bySeq hmode)
      (fun hmode => hstore ▸ h.searchable.byTs hmode) (hstore ▸ h.occupied)
  | @bySeq st node hmode hst hnode =>
    rw [hskimmed _ hst] at hnode hstore
    rw [h.audio] at hstore
    refine h.of_store hkeeps (fun _ => ?_) (fun hts => absurd hmode hts)
      (hstore ▸ h.occupied.take hnode)
    obtain ⟨frames, heq⟩ := hframes jb.store _
    rw [hstore, heq]
    have hindexed : (jb.store.hideNode .audio node.addr true).Indexed :=
      (h.searchable.bySeq hmode).hideNode node.addr true
    exact ⟨hindexed.seq, hindexed.ts⟩
  | byTs hmode _ _ hnode =>
    rw [h.audio] at hstore
    refine h.of_store hkeeps (fun hseq => absurd hseq hmode) (fun _ => ?_)
      (hstore ▸ h.occupied.take_setSeq hnode)
    obtain ⟨frames, heq⟩ := hframes (jb.store.setSeq _ _) _
    rw [hstore, heq]
    exact (h.searchable.byTs hmode).setSeq_hideNode hnode

theorem Occupies.step {call : Call β} (h : Occupies jb) (hfits : call.Fits) (hstep : Step jb call jb') :
    Occupies jb' := by
  cases hstep with
  | put hput => exact h.put hfits hput
  | get => exact h.get
  | reset => exact h.reset

/-- Puts return: an audio buffer never has to make room. -/
theorem Occupies.total {call : Call β} (h : Occupies jb) (hfits : call.Fits) :
    ∃ jb', Step jb call jb' := by
  cases call with
  | put packet len =>
    exact ⟨_, .put (switchJbPutPacket_unmeasured hfits 0 (fun _ => 0) packet h.unmeasured h.not_video)⟩
  | get => exact ⟨_, .get⟩
  | reset => exact ⟨_, .reset⟩

/-! ## The buffering test -/

theorem jbNextPacket_type (hst : jb.Searchable) : jb.jbNextPacket.1.type = jb.type := by
  unfold jbNextPacket
  split
  · unfold jbNextPacketByTs
    split
    · exact ((jbHit_same jb).trans (setReadTs_same _ _)).type
    · split
      · rfl
      · exact ((jbMiss_same jb).trans (incrementTs_same _)).type
  · rename_i hmode
    exact (jbNextPacketBySeq_finds jb (hst.bySeq (not_not.mp hmode))).1.type

/-- Outside video buffers a read that comes upon nothing suggests a restart or a concealment, and does
not ask for more data. -/
theorem takeNext_status (hst : jb.Searchable) (hother : jb.type ≠ .video) :
    jb.takeNext.2.status ≠ .breakOff ∧ jb.takeNext.2.status ≠ .moreData := by
  have htype := jbNextPacket_type hst
  unfold takeNext
  generalize jb.jbNextPacket = found at htype ⊢
  obtain ⟨jb₁, n?⟩ := found
  cases n? with
  | some node => exact ⟨nofun, nofun⟩
  | none =>
    dsimp only
    unfold getMissing
    rw [if_neg (htype.symm ▸ hother)]
    split
    · exact ⟨nofun, nofun⟩
    · exact ⟨nofun, nofun⟩

/-- From `end:` on, only a success may become another status. -/
theorem getEnd_status (jb : SwitchJb β) (got : Got β) (status : Status) (hsuccess : status ≠ .success)
    (htimeout : status ≠ .timeout) : (jb.getEnd got).2.status = status ↔ got.status = status := by
  unfold getEnd
  split_ifs with hvideo hbig hlarge
  · rfl
  · rfl
  · rw [hlarge.2]
    exact ⟨fun h => absurd h.symm htimeout, fun h => absurd h.symm hsuccess⟩
  · rfl

/-- The test at the start of a get is one on the visible nodes. -/
theorem Occupies.getPrepare_eq (h : Occupies jb) : jb.getPrepare
      = if jb.store.visible.length = 0 then ({ jb with flush := false }, some .breakOff)
        else if jb.store.visible.length < jb.frameLen.toNat then (jb, some .moreData)
        else (jb.tickPeriod, none) := by
  have hpoll : jb.switchJbPoll = jb := by
    unfold switchJbPoll
    rw [if_neg (by simp [h.audio])]
  unfold getPrepare
  dsimp only
  rw [hpoll, h.calm, h.occupied.frames]
  rfl

theorem Occupies.get_status (h : Occupies jb) :
    (jb.switchJbGetPacket.2.status = .breakOff ↔ jb.store.visible.length = 0)
      ∧ (jb.switchJbGetPacket.2.status = .moreData
          ↔ 0 < jb.store.visible.length ∧ jb.store.visible.length < jb.frameLen.toNat) := by
  have hticked : jb.tickPeriod.Searchable := by
    have hsame := tickPeriod_same jb
    exact ⟨fun hmode => hsame.store ▸ h.searchable.bySeq (hsame.samplesPerFrame ▸ hmode),
      fun hmode => hsame.store ▸ h.searchable.byTs (hsame.samplesPerFrame ▸ hmode)⟩
  have hread := takeNext_status hticked ((tickPeriod_same jb).type ▸ h.not_video)
  unfold switchJbGetPacket
  rw [getEnd_status _ _ .breakOff nofun nofun, getEnd_status _ _ .moreData nofun nofun]
  unfold getNext
  rw [h.getPrepare_eq]
  split_ifs with hnone hfew
  · simp [hnone]
  · exact ⟨by simp [hnone], by simp [hfew]; omega⟩
  · simp only [hread, false_iff]
    omega

/-! ## Runs -/

/-- A buffer from `switch_jb_create`, with the settings made before its first packet. -/
def start (β : Type) (type : JbType) (minFrameLen maxFrameLen : UInt32)
    (mode : Option (UInt32 × UInt32)) (queueOnly : Bool) : SwitchJb β :=
  let jb := switchJbCreate β type minFrameLen maxFrameLen
  let jb := match mode with
    | none => jb
    | some (samplesPerFrame, samplesPerSecond) => jb.switchJbTsMode samplesPerFrame samplesPerSecond
  if queueOnly then jb.switchJbSetQueueOnly else jb

theorem occupies_start (minFrameLen maxFrameLen : UInt32) (mode : Option (UInt32 × UInt32))
    (queueOnly : Bool) : Occupies (start β .audio minFrameLen maxFrameLen mode queueOnly) := by
  have hempty (tsMode : Bool) : Occupied (NodeStore.empty tsMode : NodeStore β) := ⟨rfl, rfl⟩
  have hindexed (tsMode : Bool) : (NodeStore.empty tsMode : NodeStore β).Indexed :=
    NodeStore.indexed_empty tsMode
  cases mode with
  | none =>
    cases queueOnly <;> exact ⟨rfl, rfl, rfl, searchable_of_indexed (hindexed false), hempty false⟩
  | some args =>
    cases queueOnly <;> exact ⟨rfl, rfl, rfl, searchable_of_indexed (hindexed true), hempty true⟩

/-- **For audio the counters are the number of packets held, and the answers of `switch_jb_get_packet`
follow it.** -/
theorem complete_frames_eq_visible {minFrameLen maxFrameLen : UInt32} {mode : Option (UInt32 × UInt32)}
    {queueOnly : Bool} {calls : List (Call β)} {jb : SwitchJb β}
    (hrun : Runs.Run (Runs.Guarded (fun _ call => call.Fits) Step)
      (start β .audio minFrameLen maxFrameLen mode queueOnly) calls jb) :
    jb.store.completeFrames = jb.store.visibleNodes
      ∧ jb.store.visibleNodes = jb.store.visible.length
      ∧ (jb.switchJbGetPacket.2.status = .breakOff ↔ jb.store.visible.length = 0)
      ∧ (jb.switchJbGetPacket.2.status = .moreData
          ↔ 0 < jb.store.visible.length ∧ jb.store.visible.length < jb.frameLen.toNat)
      ∧ ∀ call : Call β, call.Fits → ∃ jb', Step jb call jb' := by
  have hinv : Occupies jb := hrun.invariant (fun _ _ _ h hstep => h.step hstep.1 hstep.2)
    (occupies_start _ _ mode queueOnly)
  exact ⟨hinv.occupied.frames.trans hinv.occupied.nodes.symm, hinv.occupied.nodes, hinv.get_status.1,
    hinv.get_status.2, fun _ hfits => hinv.total hfits⟩

/-- In timestamp mode: two packets with one timestamp, the later of which is read, and a third one. -/
theorem complete_frames_eq_visible_duplicate :
    ∃ jb : SwitchJb Unit,
      Runs.Run (Runs.Guarded (fun _ call => call.Fits) Step)
        (start Unit .audio 1 10 (some (160, 8000)) false)
        [.put ⟨2, false, htons 1, htonl 1000, ()⟩ 172,
          .put ⟨2, false, htons 1, htonl 1000, ()⟩ 172, .get,
          .put ⟨2, false, htons 2, htonl 1160, ()⟩ 172] jb
      ∧ jb.store.visibleNodes = 2 ∧ jb.store.completeFrames = jb.store.visibleNodes := by
  have heval :
      (List.foldlM (fun (jb : SwitchJb Unit) call => if decide call.Fits then jb.exec 0 call else none)
      (start Unit .audio 1 10 (some (160, 8000)) false)
      [.put ⟨2, false, htons 1, htonl 1000, ()⟩ 172, .put ⟨2, false, htons 1, htonl 1000, ()⟩ 172, .get,
        .put ⟨2, false, htons 2, htonl 1160, ()⟩ 172]).any (fun jb => jb.store.visibleNodes = 2)
          = true := by
    decide +kernel
  obtain ⟨jb, hrun, htest⟩ := Runs.Run.of_guarded_eval exec_step (fun _ _ => of_decide_eq_true) heval
  exact ⟨jb, hrun, of_decide_eq_true htest, (complete_frames_eq_visible hrun).1⟩

/-- One packet of 16417 bytes, with a zero behind it in memory: both counters say that a packet is
held, and no node is visible. -/
theorem complete_frames_overrun :
    ∃ jb : SwitchJb Unit,
      Runs.Run Step (start Unit .audio 1 10 none false)
        [.put ⟨2, false, htons 1, htonl 1000, ()⟩ 16417] jb
      ∧ jb.store.completeFrames = 1 ∧ jb.store.visibleNodes = 1 ∧ jb.store.visible = [] := by
  have heval : (List.foldlM (exec 0) (start Unit .audio 1 10 none false)
      [.put ⟨2, false, htons 1, htonl 1000, ()⟩ 16417]).any
        (fun jb => decide (jb.store.completeFrames = 1)
        && decide (jb.store.visibleNodes = 1) && jb.store.visible.isEmpty) = true := by
    decide +kernel
  obtain ⟨jb, hrun, htest⟩ := Runs.Run.of_eval exec_step heval
  simp only [Bool.and_eq_true, List.isEmpty_iff, decide_eq_true_eq] at htest
  exact ⟨jb, hrun, htest.1.1, htest.1.2, htest.2⟩

end SwitchJb

end FreeSwitch.JitterBuffer
