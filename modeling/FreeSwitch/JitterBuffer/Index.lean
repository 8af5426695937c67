import FreeSwitch.JitterBuffer.Effects
import FreeSwitch.Lib.Run

/-!
# What the sequence hash of an audio buffer says

`switch_jb_get_packet_by_seq` and `switch_jb_peek_frame` look a packet up in `node_hash`. They
may hand out what they find only if the entries are true: an entry for a sequence number leads
to a node that holds a packet put with that number and not yet read or dropped.

To say so, a `Session` numbers the packets as they are put, and keeps those that are held: put
and stored, not yet returned by a get, and not dropped by a reset.

In sequence mode the hash is `Truthful` in every state, as long as no packet is longer than a
node has room for. In timestamp mode it is not:
`jb_next_packet_by_ts` overwrites the sequence number of the node it returns, and `hide_node`
then deletes the entry of the new number, not the node's own. The entry that stays leads to a
hidden node.

* **`Tracks`** — the invariant that carries the proof.
* **`node_hash_truthful_iff`** — where all packets fit, the hash is truthful in every state exactly
  if every read by timestamp of a node that the hash finds writes back the number it had; and
  always in sequence mode.
-/

namespace FreeSwitch.JitterBuffer

open Bytes Pools

/-- A body, and the number of the put that brought it. -/
structure Numbered (β : Type) where
  put : Nat
  body : β
  deriving DecidableEq, Repr

/-- A buffer in use: how many packets were put, and which of them are held. -/
structure Session (β : Type) where
  jb : SwitchJb (Numbered β)
  puts : Nat
  held : List (Stored (Numbered β))

variable {β : Type}

def Packet.numbered (packet : Packet β) (put : Nat) : Packet (Numbered β) :=
  ⟨packet.version, packet.m, packet.seq, packet.ts, put, packet.body⟩

namespace Session

/-- A buffer from `switch_jb_create`, in timestamp mode if `mode` gives its two arguments. -/
def start (β : Type) (minFrameLen maxFrameLen : UInt32) (mode : Option (UInt32 × UInt32)) : Session β :=
  let jb := SwitchJb.switchJbCreate (Numbered β) .audio minFrameLen maxFrameLen
  ⟨match mode with
    | none => jb
    | some (samplesPerFrame, samplesPerSecond) => jb.switchJbTsMode samplesPerFrame samplesPerSecond,
    0, []⟩

/-- The packets held after a put: the new one too if it was stored, none after a reset. -/
def holding (held : List (Stored (Numbered β))) (n : Stored (Numbered β)) :
    Fate → List (Stored (Numbered β))
  | .ignored => held
  | .refused => []
  | .punted => []
  | .stored => n :: held

/-- The packets held after a get: all but the one it returned. -/
def returning (held : List (Stored (Numbered β))) : Option (Packet (Numbered β) × Nat) →
    List (Stored (Numbered β))
  | none => held
  | some (packet, _) => held.filter fun n => n.packet.body.put ≠ packet.body.put

inductive Step : Session β → Call β → Session β → Prop where
  | put {s : Session β} {packet : Packet β} {len fuel : Nat} {behind : Nat → UInt8}
      {jb : SwitchJb (Numbered β)} {fate : Fate}
      (h : s.jb.switchJbPutPacket fuel behind (packet.numbered s.puts) len = some (jb, fate)) :
      Step s (.put packet len)
        ⟨jb, s.puts + 1, holding s.held ⟨packet.numbered s.puts, min len packetSize⟩ fate⟩
  | get {s : Session β} :
      Step s .get
        ⟨s.jb.switchJbGetPacket.1, s.puts, returning s.held s.jb.switchJbGetPacket.2.packet⟩
  | reset {s : Session β} : Step s .reset ⟨s.jb.switchJbReset, s.puts, []⟩

/-- A step as a function of the fuel for a put, with zeros behind the packet. -/
def exec (fuel : Nat) (s : Session β) : Call β → Option (Session β)
  | .put packet len =>
    (s.jb.switchJbPutPacket fuel (fun _ => 0) (packet.numbered s.puts) len).map fun put =>
      ⟨put.1, s.puts + 1, holding s.held ⟨packet.numbered s.puts, min len packetSize⟩ put.2⟩
  | .get => some
      ⟨s.jb.switchJbGetPacket.1, s.puts, returning s.held s.jb.switchJbGetPacket.2.packet⟩
  | .reset => some ⟨s.jb.switchJbReset, s.puts, []⟩

theorem exec_step {fuel : Nat} (s : Session β) (call : Call β) (s' : Session β)
    (h : s.exec fuel call = some s') : Step s call s' := by
  cases call with
  | put packet len =>
    obtain ⟨put, hput, rfl⟩ := Option.map_eq_some_iff.mp h
    exact .put hput
  | get => cases h; exact .get
  | reset => cases h; exact .reset

/-- The hash says what is held, and so do the two calls that read it. -/
structure Truthful (s : Session β) : Prop where
  entry : ∀ seq a, s.jb.store.nodeHash.lookup seq = some a →
    ∃ n ∈ s.jb.store.visible, n.addr = a ∧ n.val ∈ s.held ∧ n.val.seq = seq
  bySeq : ∀ seq packet len, s.jb.switchJbGetPacketBySeq seq = some (packet, len) →
    ∃ n ∈ s.held, n.seq = seq ∧ n.len = len ∧ packet = { n.packet with version := 2 }
  peek : ∀ ts seq peek buflen frame, seq ≠ 0 →
    s.jb.switchJbPeekFrame ts seq peek buflen = some frame →
    ∃ n ∈ s.held, n.seq = htons (seq + UInt16.ofInt peek) ∧ frame = SwitchJb.frameOf n buflen

/-- A read by timestamp of a node that the hash finds writes back the number the node has. -/
def KeepsKey (s : Session β) : Call β → Prop
  | .get => ∀ jb₁ node, s.jb.samplesPerFrame ≠ 0 → s.jb.getPrepare = (jb₁, none) →
      jb₁.nextByTs = some node → s.jb.store.nodeHash.lookup node.val.seq = some node.addr →
      jb₁.readSeq node = node.val.seq
  | _ => True

/-! ## The invariant -/

/-- Every visible node holds a packet that is held, no two of them the same. -/
structure Tracked (st : NodeStore (Numbered β)) (puts : Nat) (held : List (Stored (Numbered β))) :
    Prop where
  indexed : st.Indexed
  held : ∀ n ∈ st.visible, n.val ∈ held
  numbered : ∀ n ∈ st.visible, n.val.packet.body.put < puts
  distinct : ∀ n ∈ st.visible, ∀ n' ∈ st.visible,
    n.val.packet.body.put = n'.val.packet.body.put → n = n'

structure Tracks (s : Session β) : Prop where
  audio : s.jb.type = .audio
  unmeasured : s.jb.maxPacketLen = 0
  tracked : Tracked s.jb.store s.puts s.held

section Tracked

variable {st st' : NodeStore (Numbered β)} {puts : Nat} {held : List (Stored (Numbered β))}
  {type : JbType}

/-- Fewer visible nodes. -/
theorem Tracked.mono (h : Tracked st puts held) (hindexed : st'.Indexed)
    (hvis : ∀ n ∈ st'.visible, n ∈ st.visible) : Tracked st' puts held where
  indexed := hindexed
  held := fun n hn => h.held n (hvis n hn)
  numbered := fun n hn => h.numbered n (hvis n hn)
  distinct := fun n hn n' hn' => h.distinct n (hvis n hn) n' (hvis n' hn')

theorem Tracked.hideNode (h : Tracked st puts held) (a : Nat) (pop : Bool) :
    Tracked (st.hideNode type a pop) puts held :=
  h.mono (h.indexed.hideNode a pop) fun _ hn => (NodeStore.mem_hideNode_visible.mp hn).1

theorem Tracked.dropTs (h : Tracked st puts held) (ts : UInt32) :
    Tracked (st.dropTs type ts) puts held := by
  refine NodeStore.dropTs_induct (P := fun st => Tracked st puts held) type ts
    (fun st n _ h => h.hideNode n.addr false) ?_ h
  intro st h
  exact h.mono h.indexed.sortFreeNodes fun n hn => (NodeStore.sortFreeNodes_visible st).mem_iff.mp hn

theorem Tracked.trimmed (h : Tracked st puts held) (htrim : SwitchJb.Trimmed type st st') :
    Tracked st' puts held := by
  induction htrim with
  | refl => exact h
  | tail _ hdrop ih =>
    obtain ⟨ts, rfl⟩ := hdrop
    exact ih.dropTs ts

theorem tracked_of_visible_nil (hindexed : st.Indexed) (hvis : st.visible = []) :
    Tracked st puts held := by
  have hnone : ∀ n ∈ st.visible, False := fun n hn => List.not_mem_nil (hvis ▸ hn)
  exact ⟨hindexed, fun n hn => (hnone n hn).elim, fun n hn => (hnone n hn).elim,
    fun n hn => (hnone n hn).elim⟩

/-- After a reset nothing is visible, so nothing need be held. -/
theorem tracked_reset (hindexed : st.Indexed) : Tracked (st.reset type) puts held := by
  have hst : (st.hideNodes type).Indexed := hindexed.hideNodes
  exact tracked_of_visible_nil ⟨hst.seq, hst.ts⟩ (NodeStore.hideNodes_visible st type)

/-- A packet with a new number is stored and entered in the hashes. -/
theorem Tracked.enter {added : NodeStore (Numbered β)} {a limit : Nat} {n : Stored (Numbered β)}
    (h : Tracked st puts held) (hnumber : n.packet.body.put = puts)
    (hnew : st.newNode limit n = some (added, a)) :
    Tracked (added.enter a n) (puts + 1) (n :: held) := by
  obtain ⟨hvis, hseq, hts, -⟩ := NodeStore.newNode_some hnew
  have hmem : ∀ c ∈ (added.enter a n).visible, c = ⟨a, n, true⟩ ∨ c ∈ st.visible := fun c hc =>
    List.mem_cons.mp (hvis.mem_iff.mp hc)
  refine ⟨h.indexed.enter hvis hseq hts, fun c hc => ?_, fun c hc => ?_, fun c hc d hd heq => ?_⟩
  · rcases hmem c hc with rfl | hc
    · exact List.mem_cons_self
    · exact List.mem_cons_of_mem _ (h.held c hc)
  · rcases hmem c hc with rfl | hc
    · exact hnumber ▸ Nat.lt_succ_self _
    · exact Nat.lt_succ_of_lt (h.numbered c hc)
  · -- the new number is above all others
    rcases hmem c hc with rfl | hc
    · rcases hmem d hd with rfl | hd
      · rfl
      · exact absurd (heq.symm.trans hnumber) (Nat.ne_of_lt (h.numbered d hd))
    · rcases hmem d hd with rfl | hd
      · exact absurd (heq.trans hnumber) (Nat.ne_of_lt (h.numbered c hc))
      · exact h.distinct c hc d hd heq

/-- A node that has been returned is no longer visible, so its packet need not be held. -/
theorem Tracked.returned {node : Node (Numbered β)} {packet : Packet (Numbered β)} (len : Nat)
    (h : Tracked st puts held) (hindexed : st'.Indexed) (hnode : node ∈ st.visible)
    (hvis : ∀ n ∈ st'.visible, n ∈ st.visible ∧ n.addr ≠ node.addr)
    (hpacket : packet.body = node.val.packet.body) :
    Tracked st' puts (returning held (some (packet, len))) := by
  have hmono := h.mono hindexed fun n hn => (hvis n hn).1
  refine ⟨hindexed, fun n hn => ?_, hmono.numbered, hmono.distinct⟩
  refine List.mem_filter.mpr ⟨hmono.held n hn, ?_⟩
  have hne : n.val.packet.body.put ≠ packet.body.put := by
    intro heq
    rw [hpacket] at heq
    exact (hvis n hn).2 (congrArg Cell.addr (h.distinct n (hvis n hn).1 node hnode heq))
  simpa using hne

/-- The frame count is no part of it. -/
theorem Tracked.frames (h : Tracked st puts held) (n : Nat) :
    Tracked { st with completeFrames := n } puts held :=
  ⟨⟨h.indexed.seq, h.indexed.ts⟩, h.held, h.numbered, h.distinct⟩

end Tracked

/-! ## One call -/

variable {s s' : Session β}

theorem Tracks.not_video (h : Tracks s) : s.jb.type ≠ .video := by
  rw [h.audio]
  exact nofun

theorem Tracks.putPrepare (h : Tracks s) (packet : Packet (Numbered β)) :
    (s.jb.putPrepare packet).store = s.jb.store := by
  rcases (SwitchJb.putPrepare_prepared s.jb packet).2 with heq | ⟨hvideo, -⟩
  · exact heq
  · exact absurd hvideo h.not_video

theorem Tracks.put {packet : Packet β} {len fuel : Nat} {behind : Nat → UInt8}
    {jb : SwitchJb (Numbered β)} {fate : Fate} (h : Tracks s) (hlen : len ≤ bodyRoom)
    (hput : s.jb.switchJbPutPacket fuel behind (packet.numbered s.puts) len = some (jb, fate)) :
    Tracks ⟨jb, s.puts + 1, holding s.held ⟨packet.numbered s.puts, min len packetSize⟩ fate⟩ := by
  obtain ⟨hkeeps, st, heffect, htrim⟩ := SwitchJb.switchJbPutPacket_effect hlen hput
  rw [min_eq_left (hlen.trans (by decide))]
  refine ⟨hkeeps.type.trans h.audio, (hkeeps.maxPacketLen h.not_video).trans h.unmeasured, ?_⟩
  refine Tracked.trimmed ?_ htrim
  cases heffect with
  | ignored =>
    exact ⟨h.tracked.indexed, h.tracked.held, fun n hn => Nat.lt_succ_of_lt (h.tracked.numbered n hn),
      h.tracked.distinct⟩
  | refused =>
    rw [h.putPrepare]
    exact tracked_reset h.tracked.indexed
  | punted hvideo _ => exact absurd hvideo h.not_video
  | stored hnew =>
    rw [h.putPrepare] at hnew
    have htype : (s.jb.putPrepare (packet.numbered s.puts)).type ≠ .video := by
      rw [(SwitchJb.putPrepare_prepared s.jb _).1.type]
      exact h.not_video
    unfold SwitchJb.countStored
    rw [if_neg htype]
    exact (h.tracked.enter rfl hnew).frames _

theorem Tracks.get (h : Tracks s) (hkey : KeepsKey s .get) :
    Tracks ⟨s.jb.switchJbGetPacket.1, s.puts, returning s.held s.jb.switchJbGetPacket.2.packet⟩ := by
  obtain ⟨hkeeps, st, heffect, hstore⟩ :=
    SwitchJb.switchJbGetPacket_effect s.jb (SwitchJb.searchable_of_indexed h.tracked.indexed)
  have hstore : s.jb.switchJbGetPacket.1.store = st := by
    rcases hstore with heq | ⟨hvideo, -⟩
    · exact heq
    · exact absurd hvideo h.not_video
  have hskim : ∀ st, s.jb.Skimmed st → st = s.jb.store := by
    rintro st (heq | ⟨hvideo, -⟩)
    · exact heq
    · exact absurd hvideo h.not_video
  refine ⟨hkeeps.type.trans h.audio, (hkeeps.maxPacketLen h.not_video).trans h.unmeasured, ?_⟩
  show Tracked s.jb.switchJbGetPacket.1.store _ _
  rw [hstore]
  generalize s.jb.switchJbGetPacket.2.packet = returned at heffect
  cases heffect with
  | nothing hst =>
    rw [hskim _ hst]
    exact h.tracked
  | @bySeq _ node hmode hst hnode =>
    obtain rfl := hskim _ hst
    obtain ⟨frames, heq⟩ := NodeStore.countRead_hideNode s.jb.store s.jb.type _ true
    rw [heq]
    apply Tracked.frames
    refine h.tracked.returned node.val.len (h.tracked.indexed.hideNode _ true) hnode ?_ rfl
    exact fun n hn => NodeStore.mem_hideNode_visible.mp hn
  | @byTs _ node hmode hprep hnext hnode =>
    obtain ⟨frames, heq⟩ := NodeStore.countRead_hideNode (s.jb.store.setSeq _ _) s.jb.type _ true
    rw [heq]
    apply Tracked.frames
    refine h.tracked.returned node.val.len ?_ hnode ?_ rfl
    · exact h.tracked.indexed.setSeq_hideNode hnode (hkey _ _ hmode hprep hnext)
    · exact fun n hn => NodeStore.mem_setSeq_hideNode.mp hn

theorem Tracks.step {call : Call β} (h : Tracks s) (hfits : call.Fits) (hstep : Step s call s')
    (hok : KeepsKey s call) : Tracks s' := by
  cases hstep with
  | put hput => exact h.put hfits hput
  | get => exact h.get hok
  | reset => exact ⟨h.audio, h.unmeasured, tracked_reset h.tracked.indexed⟩

theorem Tracks.truthful (h : Tracks s) : Truthful s := by
  have hfind : ∀ {seq n}, s.jb.store.findSeq seq = some n → n.val ∈ s.held ∧ n.val.seq = seq := by
    intro seq n hn
    obtain ⟨hvis, hseq, -⟩ := h.tracked.indexed.findSeq hn
    exact ⟨h.tracked.held n hvis, hseq⟩
  constructor
  case entry =>
    intro seq a hlookup
    obtain ⟨n, hn, haddr, hseq⟩ := h.tracked.indexed.seq seq a hlookup
    exact ⟨n, hn, haddr, h.tracked.held n hn, hseq⟩
  case bySeq =>
    intro seq packet len hget
    obtain ⟨n, hn, heq⟩ := Option.map_eq_some_iff.mp hget
    obtain ⟨hheld, hseq⟩ := hfind hn
    cases heq
    exact ⟨n.val, hheld, hseq, rfl, rfl⟩
  case peek =>
    intro ts seq peek buflen frame hne hpeek
    unfold SwitchJb.switchJbPeekFrame at hpeek
    rw [if_pos hne] at hpeek
    obtain ⟨n, hn, rfl⟩ := Option.map_eq_some_iff.mp hpeek
    obtain ⟨hheld, hseq⟩ := hfind hn
    exact ⟨n.val, hheld, hseq, rfl⟩

/-- A call that leaves the hash truthful has kept the key. -/
theorem Tracks.keepsKey {call : Call β} (h : Tracks s) (htrue : ∀ s', Step s call s' → Truthful s') :
    KeepsKey s call := by
  cases call with
  | put _ _ => trivial
  | reset => trivial
  | get =>
    have htrue := htrue _ .get
    intro jb₁ node hmode hprep hnext hlookup
    have hnode : node ∈ s.jb.store.visible := by
      have hsame := SwitchJb.getPrepare_same s.jb
      rw [hprep] at hsame
      exact hsame.store ▸ SwitchJb.nextByTs_visible (hsame.store.symm ▸ h.tracked.indexed.ts) hnext
    by_contra hne
    -- the entry for the node's own number is still there, and the node is hidden
    obtain ⟨frames, heq⟩ := NodeStore.countRead_hideNode
      (s.jb.store.setSeq node.addr (jb₁.readSeq node)) s.jb.type node.addr true
    have hstore := (SwitchJb.switchJbGetPacket_ts h.not_video hmode hprep hnext).trans heq
    have hstale : s.jb.switchJbGetPacket.1.store.nodeHash.lookup node.val.seq = some node.addr := by
      rw [hstore]
      show AList.lookup _ (NodeStore.hideNode _ _ _ _).nodeHash = _
      rw [NodeStore.setSeq_hideNode_nodeHash _ hnode, AList.lookup_erase_ne (Ne.symm hne)]
      exact hlookup
    obtain ⟨n, hn, haddr, -⟩ := htrue.entry _ _ hstale
    have hn : n ∈ s.jb.switchJbGetPacket.1.store.visible := hn
    rw [hstore] at hn
    exact (NodeStore.mem_setSeq_hideNode.mp hn).2 haddr

/-! ## Runs -/

theorem tracks_start (minFrameLen maxFrameLen : UInt32) (mode : Option (UInt32 × UInt32)) :
    Tracks (start β minFrameLen maxFrameLen mode) := by
  cases mode with
  | none => exact ⟨rfl, rfl, tracked_of_visible_nil (NodeStore.indexed_empty false) rfl⟩
  | some args => exact ⟨rfl, rfl, tracked_of_visible_nil (NodeStore.indexed_empty true) rfl⟩

/-- **The index by sequence number is right in every state exactly if every read by timestamp keeps the
number of its node.** In sequence mode it always is. -/
theorem node_hash_truthful_iff (minFrameLen maxFrameLen : UInt32) (calls : List (Call β))
    (hfits : ∀ call ∈ calls, call.Fits) :
    (∀ mode, Runs.EveryState Step Truthful (start β minFrameLen maxFrameLen mode) calls
      ↔ Runs.EveryStep Step KeepsKey (start β minFrameLen maxFrameLen mode) calls)
    ∧ Runs.EveryState Step Truthful (start β minFrameLen maxFrameLen none) calls := by
  have hiff : ∀ mode, Runs.EveryState Step Truthful (start β minFrameLen maxFrameLen mode) calls
      ↔ Runs.EveryStep Step KeepsKey (start β minFrameLen maxFrameLen mode) calls := fun mode =>
    Runs.everyState_iff_everyStep (C := Call.Fits) (fun _ h => h.truthful)
      (fun _ _ _ h hall => h.keepsKey hall)
      (fun _ _ _ hfits h hstep hok => h.step hfits hstep hok) calls _ hfits (tracks_start _ _ mode)
  refine ⟨hiff, (hiff none).mpr ?_⟩
  -- no call changes the mode, and in sequence mode there is nothing to keep
  have hseq : ∀ (s : Session β) call, s.jb.samplesPerFrame = 0 → KeepsKey s call := by
    intro s call hmode
    cases call with
    | get => exact fun _ _ hts => absurd hmode hts
    | put _ _ => trivial
    | reset => trivial
  refine Runs.everyStep_of_invariant (I := fun s => Tracks s ∧ s.jb.samplesPerFrame = 0)
    (C := Call.Fits) ?_ (fun s call _ h => hseq s call h.2) calls _ hfits ⟨tracks_start _ _ none, rfl⟩
  rintro s call s' hcall ⟨h, hmode⟩ hstep
  refine ⟨h.step hcall hstep (hseq s call hmode), ?_⟩
  cases hstep with
  | put hput => exact (SwitchJb.switchJbPutPacket_effect hcall hput).1.samplesPerFrame.trans hmode
  | get =>
    have hsearch := SwitchJb.searchable_of_indexed h.tracked.indexed
    exact (SwitchJb.switchJbGetPacket_effect s.jb hsearch).1.samplesPerFrame.trans hmode
  | reset => exact hmode

/-- Two packets with one number, one of which is read. -/
theorem node_hash_truthful_repeated :
    Runs.EveryState Step Truthful (start Unit 1 10 none)
      [.put ⟨2, false, htons 100, htonl 1000, ()⟩ 172,
        .put ⟨2, false, htons 100, htonl 1000, ()⟩ 16412, .get] :=
  (node_hash_truthful_iff 1 10 _ (by decide)).2

/-- One packet of number 100 put and read in timestamp mode: nothing is held any more, and the
packet can still be had by its number. -/
theorem node_hash_stale_after_ts_read :
    ∃ s : Session Unit,
      Runs.Run Step (start Unit 1 10 (some (160, 8000)))
        [.put ⟨2, false, htons 100, htonl 1000, ()⟩ 172, .get] s
      ∧ s.held = [] ∧ s.jb.store.visible = []
      ∧ (s.jb.switchJbGetPacketBySeq (htons 100)).isSome = true := by
  have heval : (List.foldlM (exec 0) (start Unit 1 10 (some (160, 8000)))
      [.put ⟨2, false, htons 100, htonl 1000, ()⟩ 172, .get]).any
        (fun s => s.held.isEmpty && s.jb.store.visible.isEmpty
          && (s.jb.switchJbGetPacketBySeq (htons 100)).isSome) = true := by
    decide +kernel
  obtain ⟨s, hrun, htest⟩ := Runs.Run.of_eval exec_step heval
  simp only [Bool.and_eq_true, List.isEmpty_iff] at htest
  exact ⟨s, hrun, htest.1.1, htest.1.2, htest.2⟩

end Session
end FreeSwitch.JitterBuffer
