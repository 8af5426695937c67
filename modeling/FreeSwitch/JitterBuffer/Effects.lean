import FreeSwitch.JitterBuffer.Calls

/-!
# What the calls do to the nodes

Most of what a call on the jitter buffer does is bookkeeping that no node takes part in. This
module says once what each call can do to the nodes, the hashes and the frame count, so that an
invariant of them needs to look at nothing else.

* **`Keeps`** — the settings that no call changes.
* **`PutEffect`**, **`switchJbPutPacket_effect`** — what a put does to the node store.
* **`GetEffect`**, **`switchJbGetPacket_effect`** — what a get does to it, and what it returns.
-/

namespace FreeSwitch.JitterBuffer

open Bytes Pools

variable {β : Type}

/-- `switch_jb_reset`, seen from the nodes. -/
def NodeStore.reset (st : NodeStore β) (type : JbType) : NodeStore β :=
  { st.hideNodes type with completeFrames := 0 }

/-- `complete_frames--` for a frame that is read, in any buffer but a video one. -/
def NodeStore.countRead (st : NodeStore β) (type : JbType) : NodeStore β :=
  if type ≠ .video then { st with completeFrames := dec32 st.completeFrames } else st

/-- To the nodes and hashes it is the same whether the frame is counted or not. -/
theorem NodeStore.countRead_hideNode (st : NodeStore β) (type : JbType) (a : Nat) (pop : Bool) :
    ∃ frames, (st.countRead type).hideNode type a pop
      = { st.hideNode type a pop with completeFrames := frames } := by
  unfold countRead
  split
  · unfold hideNode
    dsimp only
    split
    · exact ⟨_, rfl⟩
    · exact ⟨_, rfl⟩
  · exact ⟨_, rfl⟩

namespace SwitchJb

/-! ## Bookkeeping -/

/-- The settings are those of `jb`, and the packet length seen so far too unless the buffer is
a video buffer, which is the only one that measures it. Only a text buffer is ever told to flush. -/
structure Keeps (jb jb' : SwitchJb β) : Prop where
  type : jb'.type = jb.type
  queueOnly : jb'.queueOnly = jb.queueOnly
  samplesPerFrame : jb'.samplesPerFrame = jb.samplesPerFrame
  maxPacketLen : jb.type ≠ .video → jb'.maxPacketLen = jb.maxPacketLen
  flush : jb.type ≠ .text → jb.flush = false → jb'.flush = false

variable {jb jb₁ jb₂ : SwitchJb β}

theorem Keeps.refl (jb : SwitchJb β) : Keeps jb jb := ⟨rfl, rfl, rfl, fun _ => rfl, fun _ h => h⟩

theorem Keeps.trans (h₁ : Keeps jb jb₁) (h₂ : Keeps jb₁ jb₂) : Keeps jb jb₂ where
  type := h₂.type.trans h₁.type
  queueOnly := h₂.queueOnly.trans h₁.queueOnly
  samplesPerFrame := h₂.samplesPerFrame.trans h₁.samplesPerFrame
  maxPacketLen := fun hv =>
    (h₂.maxPacketLen (by rw [h₁.type]; exact hv)).trans (h₁.maxPacketLen hv)
  flush := fun ht hf => h₂.flush (by rw [h₁.type]; exact ht) (h₁.flush ht hf)

/-- Bookkeeping: settings and nodes are those of `jb`. -/
structure SameNodes (jb jb' : SwitchJb β) : Prop extends Keeps jb jb' where
  store : jb'.store = jb.store

theorem SameNodes.refl (jb : SwitchJb β) : SameNodes jb jb := ⟨Keeps.refl jb, rfl⟩

theorem SameNodes.trans (h₁ : SameNodes jb jb₁) (h₂ : SameNodes jb₁ jb₂) : SameNodes jb jb₂ :=
  ⟨h₁.toKeeps.trans h₂.toKeeps, h₂.store.trans h₁.store⟩

theorem SameNodes.ite {c : Prop} [Decidable c] (h₁ : SameNodes jb jb₁) (h₂ : SameNodes jb jb₂) :
    SameNodes jb (if c then jb₁ else jb₂) := by
  split
  · exact h₁
  · exact h₂

theorem jbHit_same (jb : SwitchJb β) :
    SameNodes jb jb.jbHit := ⟨⟨rfl, rfl, rfl, fun _ => rfl, fun _ h => h⟩, rfl⟩

theorem jbMiss_same (jb : SwitchJb β) : SameNodes jb jb.jbMiss :=
  ⟨⟨rfl, rfl, rfl, fun _ => rfl, fun _ h => h⟩, rfl⟩

theorem jbFrameInc_same (jb : SwitchJb β) (i : Int) : SameNodes jb (jb.jbFrameInc i) :=
  ⟨⟨rfl, rfl, rfl, fun _ => rfl, fun _ h => h⟩, rfl⟩

theorem setReadSeq_same (jb : SwitchJb β) (seq : UInt16) : SameNodes jb (jb.setReadSeq seq) :=
  ⟨⟨rfl, rfl, rfl, fun _ => rfl, fun _ h => h⟩, rfl⟩

theorem incrementSeq_same (jb : SwitchJb β) : SameNodes jb jb.incrementSeq :=
  ⟨⟨rfl, rfl, rfl, fun _ => rfl, fun _ h => h⟩, rfl⟩

theorem setReadTs_same (jb : SwitchJb β) (ts : UInt32) : SameNodes jb (jb.setReadTs ts) := by
  unfold setReadTs
  split
  · exact .refl jb
  · exact ⟨⟨rfl, rfl, rfl, fun _ => rfl, fun _ h => h⟩, rfl⟩

theorem incrementTs_same (jb : SwitchJb β) : SameNodes jb jb.incrementTs := by
  unfold incrementTs
  split
  · exact .refl jb
  · exact ⟨⟨rfl, rfl, rfl, fun _ => rfl, fun _ h => h⟩, rfl⟩

theorem resync_same (jb : SwitchJb β) : SameNodes jb jb.resync := by
  unfold resync
  split
  · exact ⟨⟨rfl, rfl, rfl, fun _ => rfl, fun _ h => h⟩, rfl⟩
  · exact .refl jb

theorem noteWroteSeq_same (jb : SwitchJb β) (packet : Packet β) :
    SameNodes jb (jb.noteWroteSeq packet) := by
  unfold noteWroteSeq
  dsimp only
  split
  · exact ⟨⟨rfl, rfl, rfl, fun _ => rfl, fun _ h => h⟩, rfl⟩
  · exact .refl jb

theorem switchJbPoll_same (jb : SwitchJb β) : SameNodes jb jb.switchJbPoll := by
  unfold switchJbPoll
  split
  · rename_i htext
    apply SameNodes.ite
    · exact ⟨⟨rfl, rfl, rfl, fun _ => rfl, fun _ h => h⟩, rfl⟩
    · exact ⟨⟨rfl, rfl, rfl, fun _ => rfl, fun hother _ => absurd htext.1 hother⟩, rfl⟩
  · exact .refl jb

theorem shrinkFrame_same (jb : SwitchJb β) : SameNodes jb jb.shrinkFrame :=
  .ite (jbFrameInc_same jb (-1)) (.refl jb)

theorem tickPeriod_same (jb : SwitchJb β) : SameNodes jb jb.tickPeriod := by
  have hshrink := shrinkFrame_same { jb with periodCount := jb.periodCount + 1 }
  unfold tickPeriod
  apply SameNodes.ite
  · exact ⟨⟨hshrink.type, hshrink.queueOnly, hshrink.samplesPerFrame, hshrink.maxPacketLen,
      hshrink.flush⟩, hshrink.store⟩
  · exact ⟨⟨rfl, rfl, rfl, fun _ => rfl, fun _ h => h⟩, rfl⟩

theorem getPrepare_same (jb : SwitchJb β) : SameNodes jb jb.getPrepare.1 := by
  unfold getPrepare
  split
  · exact ⟨⟨rfl, rfl, rfl, fun _ => rfl, fun _ _ => rfl⟩, rfl⟩
  · split
    · dsimp only
      split
      · exact (switchJbPoll_same jb).trans (tickPeriod_same _)
      · exact switchJbPoll_same jb
    · exact tickPeriod_same jb

theorem seek_same : ∀ (x : Nat) (jb : SwitchJb β), SameNodes jb (seek x jb).1 := by
  intro x
  induction x with
  | zero => exact fun jb => .refl jb
  | succ x ih =>
    intro jb
    unfold seek
    dsimp only
    split
    · exact incrementSeq_same jb
    · exact (incrementSeq_same jb).trans (ih _)

theorem switchJbReset_keeps (jb : SwitchJb β) : Keeps jb jb.switchJbReset :=
  ⟨rfl, rfl, rfl, fun _ => rfl, fun _ h => h⟩

theorem switchJbReset_store (jb : SwitchJb β) : jb.switchJbReset.store = jb.store.reset jb.type := rfl

/-! ## Put -/

/-- Nodes as before, or all hidden by a reset, which only a video buffer makes there. -/
def Prepared (jb : SwitchJb β) (st : NodeStore β) : Prop :=
  st = jb.store ∨ jb.type = .video ∧ st = jb.store.reset jb.type

theorem Prepared.of_same {st : NodeStore β} (h : SameNodes jb jb₁) (hst : jb₁.Prepared st) :
    jb.Prepared st := by
  unfold Prepared at hst ⊢
  rwa [h.store, h.type] at hst

theorem noteLate_same (jb : SwitchJb β) (packet : Packet β) : SameNodes jb (jb.noteLate packet) := by
  unfold noteLate
  dsimp only
  split
  · exact ⟨⟨rfl, rfl, rfl, fun _ => rfl, fun _ h => h⟩, rfl⟩
  · exact ⟨⟨rfl, rfl, rfl, fun _ => rfl, fun _ h => h⟩, rfl⟩

theorem noteGap_prepared (jb : SwitchJb β) (want got : Nat) (hvideo : jb.type = .video) :
    Keeps jb (jb.noteGap want got) ∧ jb.Prepared (jb.noteGap want got).store := by
  unfold noteGap
  split
  · split
    · exact ⟨switchJbReset_keeps jb, .inr ⟨hvideo, switchJbReset_store jb⟩⟩
    · dsimp only
      split
      · exact ⟨⟨rfl, rfl, rfl, fun _ => rfl, fun _ h => h⟩, .inl rfl⟩
      · exact ⟨⟨rfl, rfl, rfl, fun _ => rfl, fun _ h => h⟩, .inl rfl⟩
  · exact ⟨.refl jb, .inl rfl⟩

theorem noteSeq_prepared (jb : SwitchJb β) (packet : Packet β) :
    Keeps jb (jb.noteSeq packet) ∧ jb.Prepared (jb.noteSeq packet).store := by
  unfold noteSeq
  extract_lets got want next gapped
  split
  · exact ⟨⟨rfl, rfl, rfl, fun _ => rfl, fun _ h => h⟩, .inl rfl⟩
  · rename_i hother
    have hvideo : jb.type = .video := by
      cases htype : jb.type <;> simp_all
    have hlate := noteLate_same jb packet
    obtain ⟨hkeeps, hprep⟩ := noteGap_prepared (jb.noteLate packet) want got (hlate.type.trans hvideo)
    have hkeeps : Keeps jb gapped := hlate.toKeeps.trans hkeeps
    have hprep : jb.Prepared gapped.store := hprep.of_same hlate
    split
    · exact ⟨hkeeps.trans ⟨rfl, rfl, rfl, fun _ => rfl, fun _ h => h⟩, hprep⟩
    · exact ⟨hkeeps, hprep⟩

theorem putPrepare_prepared (jb : SwitchJb β) (packet : Packet β) :
    Keeps jb (jb.putPrepare packet) ∧ jb.Prepared (jb.putPrepare packet).store := by
  obtain ⟨hkeeps, hprep⟩ := noteSeq_prepared { jb with highestDroppedTs := 0 } packet
  have hsame : SameNodes jb { jb with highestDroppedTs := 0 } :=
    ⟨⟨rfl, rfl, rfl, fun _ => rfl, fun _ h => h⟩, rfl⟩
  exact ⟨hsame.toKeeps.trans hkeeps, hprep.of_same hsame⟩

/-- The packet is the first one of a frame, as `add_node` sees it. -/
def startsFrame (jb : SwitchJb β) (packet : Packet β) : Bool := (jb.noteWroteSeq packet).marks packet

/-- The frame count for a packet that has been stored at `a`. -/
def countStored (jb : SwitchJb β) (packet : Packet β) (a : Nat) (st : NodeStore β) : NodeStore β :=
  if jb.type = .video then (if jb.startsFrame packet then st.mark a else st)
  else { st with completeFrames := st.completeFrames + 1 }

theorem startsFrame_store (jb : SwitchJb β) (packet : Packet β) (st : NodeStore β) :
    startsFrame { jb with store := st } packet = jb.startsFrame packet := by
  unfold startsFrame noteWroteSeq
  dsimp only
  split
  · rfl
  · rfl

theorem countPacket_same (jb : SwitchJb β) : SameNodes jb jb.countPacket :=
  .ite (.refl jb) ⟨⟨rfl, rfl, rfl, fun _ => rfl, fun _ h => h⟩, rfl⟩

/-- Counting the packet does not bear on whether it starts a frame. -/
theorem countPacket_marks (jb : SwitchJb β) (packet : Packet β) :
    jb.countPacket.marks packet = jb.marks packet := by
  unfold countPacket
  split
  · rfl
  · rfl

theorem measurePackets_spec (jb : SwitchJb β) (hvideo : jb.type = .video) :
    Keeps jb jb.measurePackets ∧ jb.measurePackets.store = jb.store := by
  unfold measurePackets
  split
  · exact ⟨.refl jb, rfl⟩
  · exact ⟨⟨rfl, rfl, rfl, fun h => absurd hvideo h, fun _ h => h⟩, rfl⟩

theorem countVideo_spec (jb : SwitchJb β) (packet : Packet β) (a : Nat) (hvideo : jb.type = .video) :
    Keeps jb (jb.countVideo packet a)
      ∧ (jb.countVideo packet a).store = if jb.marks packet then jb.store.mark a else jb.store := by
  have hsame := countPacket_same jb
  rw [← countPacket_marks jb packet, ← hsame.store]
  unfold countVideo
  generalize jb.countPacket = jb₁ at hsame ⊢
  dsimp only
  split
  · generalize hmarked : { jb₁ with highestWroteTs := packet.ts, store := jb₁.store.mark a } = marked
    have hkeeps : Keeps jb marked := by
      rw [← hmarked]
      exact hsame.toKeeps.trans ⟨rfl, rfl, rfl, fun _ => rfl, fun _ h => h⟩
    have hstore : marked.store = jb₁.store.mark a := by rw [← hmarked]
    obtain ⟨hmeasure, hst⟩ := measurePackets_spec marked (hkeeps.type.trans hvideo)
    exact ⟨hkeeps.trans hmeasure, hst.trans hstore⟩
  · split
    · exact ⟨hsame.toKeeps.trans ⟨rfl, rfl, rfl, fun _ => rfl, fun _ h => h⟩, rfl⟩
    · exact ⟨hsame.toKeeps, rfl⟩

theorem countOther_spec (jb : SwitchJb β) (packet : Packet β) (hother : jb.type ≠ .video) :
    Keeps jb (jb.countOther packet) ∧ (jb.countOther packet).store
        = { jb.store with completeFrames := jb.store.completeFrames + 1 } := by
  have hcond : (jb.writeInit || decide (jb.type = .text) || decide (jb.type = .audio)) = true := by
    cases htype : jb.type <;> simp_all
  unfold countOther
  rw [if_pos hcond]
  exact ⟨⟨rfl, rfl, rfl, fun _ => rfl, fun _ h => h⟩, rfl⟩

/-- A packet that is not taken for a jump is counted as `countStored` says. -/
theorem noteNode_stored (jb : SwitchJb β) (packet : Packet β) (a : Nat) (h : jb.punts packet = false) :
    (jb.noteNode packet a).2 = .stored ∧ Keeps jb (jb.noteNode packet a).1
      ∧ (jb.noteNode packet a).1.store = jb.countStored packet a jb.store := by
  have hsame := noteWroteSeq_same jb packet
  unfold noteNode countStored
  simp only [h, Bool.false_eq_true, if_false]
  by_cases hvideo : jb.type = .video
  · obtain ⟨hkeeps, hstore⟩ := countVideo_spec _ packet a (hsame.type.trans hvideo)
    rw [if_pos (hsame.type.trans hvideo), if_pos hvideo]
    refine ⟨trivial, (hsame.toKeeps.trans hkeeps).trans ⟨rfl, rfl, rfl, fun _ => rfl, fun _ h => h⟩, ?_⟩
    rw [hsame.store] at hstore
    exact hstore
  · have hother : (jb.noteWroteSeq packet).type ≠ .video := by rw [hsame.type]; exact hvideo
    obtain ⟨hkeeps, hstore⟩ := countOther_spec _ packet hother
    rw [if_neg hother, if_neg hvideo]
    refine ⟨trivial, (hsame.toKeeps.trans hkeeps).trans ⟨rfl, rfl, rfl, fun _ => rfl, fun _ h => h⟩, ?_⟩
    rw [hsame.store] at hstore
    exact hstore

/-- A jump resets the buffer, the new node with it, and the packet then starts no frame. -/
theorem noteNode_punted (jb : SwitchJb β) (packet : Packet β) (a : Nat) (h : jb.punts packet = true) :
    (jb.noteNode packet a).2 = .punted ∧ Keeps jb (jb.noteNode packet a).1
      ∧ (jb.noteNode packet a).1.store = jb.store.reset jb.type := by
  have hvideo : jb.type = .video := by
    unfold punts at h
    simp only [Bool.and_eq_true, decide_eq_true_eq] at h
    exact h.1.2
  have hsame := noteWroteSeq_same jb.switchJbReset packet
  have hnomark : (jb.switchJbReset.noteWroteSeq packet).marks packet = false := by
    unfold marks noteWroteSeq
    rfl
  obtain ⟨hkeeps, hstore⟩ := countVideo_spec _ packet a (hsame.type.trans hvideo)
  rw [hnomark, hsame.store] at hstore
  unfold noteNode
  simp only [h, if_true]
  rw [if_pos (hsame.type.trans hvideo)]
  exact ⟨trivial, (((switchJbReset_keeps jb).trans hsame.toKeeps).trans hkeeps).trans
    ⟨rfl, rfl, rfl, fun _ => rfl, fun _ h => h⟩, hstore⟩

/-- What a put does with the packet, before old frames make room. The last argument of each
case is the packet's fate. -/
inductive PutEffect (jb : SwitchJb β) (packet : Packet β) (len : Nat) : NodeStore β → Fate → Prop where
  | ignored : PutEffect jb packet len jb.store .ignored
  | refused : PutEffect jb packet len ((jb.putPrepare packet).store.reset jb.type) .refused
  | punted {added : NodeStore β} {a limit : Nat} (hvideo : jb.type = .video)
      (hnew : (jb.putPrepare packet).store.newNode limit ⟨packet, len⟩ = some (added, a)) :
      PutEffect jb packet len ((added.enter a ⟨packet, len⟩).reset jb.type) .punted
  | stored {added : NodeStore β} {a limit : Nat}
      (hnew : (jb.putPrepare packet).store.newNode limit ⟨packet, len⟩ = some (added, a))
      (hpunt : (jb.putPrepare packet).punts packet = false) :
      PutEffect jb packet len
        ((jb.putPrepare packet).countStored packet a (added.enter a ⟨packet, len⟩)) .stored

/-- Frames dropped one after the other. -/
def Trimmed (type : JbType) : NodeStore β → NodeStore β → Prop :=
  Relation.ReflTransGen fun st st' => ∃ ts, st' = st.dropTs type ts

theorem addNode_effect {len : Nat} (hlen : len ≤ bodyRoom) (behind : Nat → UInt8) (jb : SwitchJb β)
    (packet : Packet β) :
    Keeps jb ((jb.putPrepare packet).addNode behind packet len).1
      ∧ PutEffect jb packet len ((jb.putPrepare packet).addNode behind packet len).1.store
          ((jb.putPrepare packet).addNode behind packet len).2 := by
  obtain ⟨hkeeps, -⟩ := putPrepare_prepared jb packet
  unfold addNode
  cases hnew : (jb.putPrepare packet).store.newNode (jb.putPrepare packet).nodeLimit ⟨packet, len⟩ with
  | none =>
    refine ⟨hkeeps.trans (switchJbReset_keeps _), ?_⟩
    show PutEffect jb packet len (jb.putPrepare packet).switchJbReset.store .refused
    rw [switchJbReset_store, hkeeps.type]
    exact .refused
  | some found =>
    obtain ⟨added, a⟩ := found
    dsimp only
    rw [copyBody_of_le hlen]
    generalize hentered : { jb.putPrepare packet with store := added.enter a ⟨packet, len⟩ } = entered
    have hkeeps : Keeps jb entered := by
      rw [← hentered]
      exact hkeeps.trans ⟨rfl, rfl, rfl, fun _ => rfl, fun _ h => h⟩
    have hstore : entered.store = added.enter a ⟨packet, len⟩ := by rw [← hentered]
    cases hpunt : entered.punts packet with
    | true =>
      obtain ⟨hfate, hk, hst⟩ := noteNode_punted entered packet a hpunt
      refine ⟨hkeeps.trans hk, ?_⟩
      rw [hfate, hst, hstore, hkeeps.type]
      refine .punted ?_ hnew
      unfold punts at hpunt
      simp only [Bool.and_eq_true, decide_eq_true_eq] at hpunt
      exact hkeeps.type.symm.trans hpunt.1.2
    | false =>
      obtain ⟨hfate, hk, hst⟩ := noteNode_stored entered packet a hpunt
      refine ⟨hkeeps.trans hk, ?_⟩
      have hcount : entered.countStored packet a = (jb.putPrepare packet).countStored packet a := by
        rw [← hentered]
        unfold countStored
        rw [startsFrame_store]
      rw [hfate, hst, hstore, hcount]
      rw [← hentered] at hpunt
      exact .stored hnew hpunt

theorem dropLoop_trimmed : ∀ (fuel : Nat) (jb jb' : SwitchJb β), jb.dropLoop fuel = some jb' →
    Keeps jb jb' ∧ Trimmed jb.type jb.store jb'.store := by
  intro fuel
  induction fuel with
  | zero => intro jb jb' h; cases h
  | succ fuel ih =>
    intro jb jb' h
    unfold dropLoop at h
    split at h
    · obtain ⟨hkeeps, htrim⟩ := ih _ jb' h
      have hdrop : Keeps jb { jb with store := jb.store.dropOldestFrame jb.type } :=
        ⟨rfl, rfl, rfl, fun _ => rfl, fun _ h => h⟩
      exact ⟨hdrop.trans hkeeps, .head ⟨_, rfl⟩ htrim⟩
    · cases h
      exact ⟨.refl jb, .refl⟩

theorem makeRoom_trimmed {fuel : Nat} {jb jb' : SwitchJb β} (h : makeRoom fuel jb = some jb') :
    Keeps jb jb' ∧ Trimmed jb.type jb.store jb'.store := by
  unfold makeRoom at h
  split at h
  · exact dropLoop_trimmed fuel jb jb' h
  · cases h
    exact ⟨.refl jb, .refl⟩

/-- A buffer that has not measured any packet makes no room, so a put to it returns. -/
theorem makeRoom_of_zero (fuel : Nat) (h : jb.maxPacketLen = 0) : makeRoom fuel jb = some jb := by
  unfold makeRoom
  simp [h]

/-- A packet that the node has room for is copied as a whole, and no other field with it. -/
theorem switchJbPutPacket_of_le {len : Nat} (hlen : len ≤ bodyRoom) (fuel : Nat)
    (behind : Nat → UInt8) (jb : SwitchJb β) (packet : Packet β) :
    jb.switchJbPutPacket fuel behind packet len
      = if jb.alreadyDropped packet then some (jb, .ignored)
        else (makeRoom fuel ((jb.putPrepare packet).addNode behind packet len).1).map fun jb' =>
          (jb', ((jb.putPrepare packet).addNode behind packet len).2) := by
  have hmin : min len packetSize = len := min_eq_left (hlen.trans (by decide))
  have hroom (fate : Fate) : ¬ (fate ≠ .refused ∧ bodyRoom + 8 < len) := by omega
  unfold switchJbPutPacket
  dsimp only
  rw [hmin, if_neg (hroom _)]

theorem switchJbPutPacket_effect {fuel len : Nat} {behind : Nat → UInt8} {packet : Packet β}
    {jb' : SwitchJb β} {fate : Fate} (hlen : len ≤ bodyRoom)
    (h : jb.switchJbPutPacket fuel behind packet len = some (jb', fate)) :
    Keeps jb jb' ∧ ∃ st, PutEffect jb packet len st fate ∧ Trimmed jb.type st jb'.store := by
  rw [switchJbPutPacket_of_le hlen] at h
  split at h
  · cases h
    exact ⟨.refl jb, jb.store, .ignored, .refl⟩
  · obtain ⟨room, hroom, heq⟩ := Option.map_eq_some_iff.mp h
    cases heq
    obtain ⟨hkeeps, heffect⟩ := addNode_effect hlen behind jb packet
    obtain ⟨hk, htrim⟩ := makeRoom_trimmed hroom
    rw [hkeeps.type] at htrim
    exact ⟨hkeeps.trans hk, _, heffect, htrim⟩

/-- A buffer that has measured no packet makes no room either, so every amount of fuel will do. -/
theorem switchJbPutPacket_unmeasured {len : Nat} (hlen : len ≤ bodyRoom) (fuel : Nat)
    (behind : Nat → UInt8) (packet : Packet β) (hmeasured : jb.maxPacketLen = 0)
    (hother : jb.type ≠ .video) :
    jb.switchJbPutPacket fuel behind packet len = some (if jb.alreadyDropped packet then (jb, .ignored)
      else (jb.putPrepare packet).addNode behind packet len) := by
  obtain ⟨hkeeps, -⟩ := addNode_effect hlen behind jb packet
  rw [switchJbPutPacket_of_le hlen,
    makeRoom_of_zero fuel ((hkeeps.maxPacketLen hother).trans hmeasured)]
  split
  · rfl
  · rfl

/-! ## Get -/

/-- The nodes a read finds: those of `jb`, or those left when a video buffer drops a frame. -/
def Skimmed (jb : SwitchJb β) (st : NodeStore β) : Prop :=
  st = jb.store ∨ jb.type = .video ∧ ∃ ts, st = jb.store.dropTs jb.type ts

/-- What a get does to the nodes, before the buffer is tested for being too big, and the packet
it returns. -/
inductive GetEffect (jb : SwitchJb β) : NodeStore β → Option (Packet β × Nat) → Prop where
  | nothing {st : NodeStore β} (hst : jb.Skimmed st) : GetEffect jb st none
  | bySeq {st : NodeStore β} {node : Node β} (hmode : jb.samplesPerFrame = 0) (hst : jb.Skimmed st)
      (hnode : node ∈ st.visible) :
      GetEffect jb ((st.countRead jb.type).hideNode jb.type node.addr true)
        (some ({ node.val.packet with version := 2 }, node.val.len))
  | byTs {jb₁ : SwitchJb β} {node : Node β} (hmode : jb.samplesPerFrame ≠ 0)
      (hprep : jb.getPrepare = (jb₁, none)) (hnext : jb₁.nextByTs = some node)
      (hnode : node ∈ jb.store.visible) :
      GetEffect jb
        (((jb.store.setSeq node.addr (jb₁.readSeq node)).countRead jb.type).hideNode jb.type
          node.addr true)
        (some ({ node.val.packet with seq := jb₁.readSeq node, version := 2 }, node.val.len))

theorem findSeq_visible (hst : jb.store.Indexed) {seq : UInt16} {n : Node β}
    (h : jb.store.findSeq seq = some n) : n ∈ jb.store.visible :=
  (hst.findSeq h).1

/-- The branch without a target comes upon a visible node, if on any. -/
theorem startSeq_spec (jb : SwitchJb β) (hst : jb.store.Indexed) :
    SameNodes jb jb.startSeq.1 ∧ ∀ n, jb.startSeq.2 = some n → n ∈ jb.store.visible := by
  refine ⟨jbHit_same jb, fun n hn => ?_⟩
  unfold startSeq at hn
  dsimp only at hn
  split at hn
  · rename_i node hfind
    cases hn
    exact findSeq_visible hst hfind
  · exact NodeStore.lowest_visible hn

theorem seek_visible : ∀ (x : Nat) (jb : SwitchJb β), jb.store.Indexed →
    ∀ n, (seek x jb).2 = some n → n ∈ jb.store.visible := by
  intro x
  induction x with
  | zero => intro jb _ n hn; cases hn
  | succ x ih =>
    intro jb hst n hn
    unfold seek at hn
    dsimp only at hn
    split at hn
    · rename_i node hfind
      cases hn
      exact findSeq_visible hst hfind
    · exact ih jb.incrementSeq hst n hn

/-- Settings kept, nodes skimmed, and the node found is one of those left. -/
def Finds (jb : SwitchJb β) (found : SwitchJb β × Option (Node β)) : Prop :=
  Keeps jb found.1 ∧ jb.Skimmed found.1.store ∧ ∀ n, found.2 = some n → n ∈ found.1.store.visible

theorem Finds.of_same {found : SwitchJb β × Option (Node β)} (h : SameNodes jb jb₁)
    (hfinds : jb₁.Finds found) : jb.Finds found := by
  obtain ⟨hkeeps, hskim, hnode⟩ := hfinds
  refine ⟨h.toKeeps.trans hkeeps, ?_, hnode⟩
  unfold Skimmed at hskim ⊢
  rwa [h.store, h.type] at hskim

theorem finds_of_same {n? : Option (Node β)} (h : SameNodes jb jb₁)
    (hnode : ∀ n, n? = some n → n ∈ jb.store.visible) : jb.Finds (jb₁, n?) :=
  ⟨h.toKeeps, .inl h.store, fun n hn => h.store.symm ▸ hnode n hn⟩

theorem dropFrame_finds (jb : SwitchJb β) (node : Node β) (hvideo : jb.type = .video)
    (hst : jb.store.Indexed) : jb.Finds (jb.dropFrame node).resync.startSeq := by
  have hresync := resync_same (jb.dropFrame node)
  have hdropped : (jb.dropFrame node).store.Indexed := hst.dropTs _
  obtain ⟨hsame, hnode⟩ := startSeq_spec (jb.dropFrame node).resync (hresync.store.symm ▸ hdropped)
  have hkeeps : Keeps jb (jb.dropFrame node) := ⟨rfl, rfl, rfl, fun _ => rfl, fun _ h => h⟩
  have hstore := (hresync.trans hsame).store
  refine ⟨hkeeps.trans (hresync.trans hsame).toKeeps, .inr ⟨hvideo, _, hstore⟩, fun n hn => ?_⟩
  rw [hsame.store]
  exact hnode n hn

theorem missSeq_finds (jb : SwitchJb β) (hst : jb.store.Indexed) : jb.Finds jb.missSeq := by
  unfold missSeq
  extract_lets missed grown
  have hmissed : SameNodes jb missed := jbMiss_same jb
  have hgrown : SameNodes missed grown :=
    .ite ⟨⟨rfl, rfl, rfl, fun _ => rfl, fun _ h => h⟩, rfl⟩ (.refl missed)
  split
  · rename_i hvideo
    have hsame := hmissed.trans hgrown
    have hgst : grown.store.Indexed := hsame.store.symm ▸ hst
    have hseek := seek_same 10 grown
    have hvis := seek_visible 10 grown hgst
    cases hfound : seek 10 grown with
    | mk jb₁ n? =>
      rw [hfound] at hseek hvis
      cases n? with
      | none => exact (finds_of_same hseek fun n hn => by cases hn).of_same hsame
      | some node =>
        dsimp only
        split
        · refine (dropFrame_finds jb₁ node ?_ (hseek.store.symm ▸ hgst)).of_same (hsame.trans hseek)
          exact hseek.type.trans (hgrown.type.trans hvideo)
        · exact (finds_of_same hseek hvis).of_same hsame
  · exact finds_of_same (hmissed.trans (incrementSeq_same missed)) fun n hn => by cases hn

theorem findNextSeq_finds (jb : SwitchJb β) (hst : jb.store.Indexed) : jb.Finds jb.findNextSeq := by
  unfold findNextSeq
  split
  · obtain ⟨hsame, hnode⟩ := startSeq_spec jb hst
    exact finds_of_same hsame hnode
  · split
    · rename_i node hfind
      exact finds_of_same (jbHit_same jb) fun n hn => by cases hn; exact findSeq_visible hst hfind
    · exact missSeq_finds jb hst

theorem jbNextPacketBySeq_finds (jb : SwitchJb β) (hst : jb.store.Indexed) :
    jb.Finds jb.jbNextPacketBySeq := by
  have hresync := resync_same jb
  have hfinds := (findNextSeq_finds jb.resync (hresync.store.symm ▸ hst)).of_same hresync
  unfold jbNextPacketBySeq
  generalize jb.resync.findNextSeq = found at hfinds ⊢
  obtain ⟨jb₁, n?⟩ := found
  obtain ⟨hkeeps, hskim, hnode⟩ := hfinds
  cases n? with
  | none => exact ⟨hkeeps, hskim, hnode⟩
  | some node => exact ⟨hkeeps.trans (setReadSeq_same jb₁ _).toKeeps, hskim, hnode⟩

theorem nextByTs_visible (hst : jb.store.IndexedTs) {n : Node β} (h : jb.nextByTs = some n) :
    n ∈ jb.store.visible := by
  unfold nextByTs at h
  split at h
  · exact NodeStore.lowest_visible h
  · exact hst.findTs h

theorem noteReadSeq_same (jb : SwitchJb β) (seq : UInt16) : SameNodes jb (jb.noteReadSeq seq) :=
  .ite ⟨⟨rfl, rfl, rfl, fun _ => rfl, fun _ h => h⟩, rfl⟩ (.refl jb)

theorem noteReadFrame_spec (jb : SwitchJb β) (seq : UInt16) (ts : UInt32) :
    Keeps jb (jb.noteReadFrame seq ts)
      ∧ (jb.noteReadFrame seq ts).store = jb.store.countRead jb.type := by
  unfold noteReadFrame NodeStore.countRead
  split
  · exact ⟨⟨rfl, rfl, rfl, fun _ => rfl, fun _ h => h⟩, rfl⟩
  · split
    · exact ⟨⟨rfl, rfl, rfl, fun _ => rfl, fun _ h => h⟩, rfl⟩
    · split
      · exact ⟨⟨rfl, rfl, rfl, fun _ => rfl, fun _ h => h⟩, rfl⟩
      · exact ⟨.refl jb, rfl⟩

theorem noteRead_spec (jb : SwitchJb β) (node : Node β) :
    Keeps jb (jb.noteRead node) ∧ (jb.noteRead node).store = jb.store.countRead jb.type := by
  have hsame := noteReadSeq_same jb node.val.seq
  obtain ⟨hkeeps, hstore⟩ := noteReadFrame_spec (jb.noteReadSeq node.val.seq) node.val.seq node.val.ts
  rw [hsame.store, hsame.type] at hstore
  exact ⟨(hsame.toKeeps.trans hkeeps).trans ⟨rfl, rfl, rfl, fun _ => rfl, fun _ h => h⟩, hstore⟩

theorem getMissing_same (jb : SwitchJb β) :
    SameNodes jb jb.getMissing.1 ∧ jb.getMissing.2.packet = none := by
  unfold getMissing
  split
  · exact ⟨.refl jb, rfl⟩
  · split
    · exact ⟨jbFrameInc_same jb 1, rfl⟩
    · exact ⟨.refl jb, rfl⟩

/-- `got` and the buffer after it are what a get can leave before it looks at the size. -/
def Gets (jb : SwitchJb β) (got : SwitchJb β × Got β) : Prop :=
  Keeps jb got.1 ∧ GetEffect jb got.1.store got.2.packet

theorem getMissing_gets (hkeeps : Keeps jb jb₁) (hskim : jb.Skimmed jb₁.store) :
    jb.Gets jb₁.getMissing := by
  obtain ⟨hsame, hnone⟩ := getMissing_same jb₁
  refine ⟨hkeeps.trans hsame.toKeeps, ?_⟩
  rw [hnone, hsame.store]
  exact .nothing hskim

/-- The node is taken by `noteRead` and `takeNode`. -/
theorem take_keeps (hkeeps : Keeps jb jb₁) (node : Node β) :
    Keeps jb ((jb₁.noteRead node).takeNode node).1
      ∧ ((jb₁.noteRead node).takeNode node).1.store
        = (jb₁.store.countRead jb.type).hideNode jb.type node.addr true := by
  obtain ⟨hread, hstore⟩ := noteRead_spec jb₁ node
  have hk := hkeeps.trans hread
  refine ⟨hk.trans ⟨rfl, rfl, rfl, fun _ => rfl, fun _ h => h⟩, ?_⟩
  show ((jb₁.noteRead node).store).hideNode (jb₁.noteRead node).type node.addr true = _
  rw [hstore, hk.type, hkeeps.type]

theorem takeSeq_gets (hst : jb.store.Indexed) (hsame : SameNodes jb jb₁)
    (hmode : jb.samplesPerFrame = 0) :
    jb.Gets jb₁.takeNext := by
  have hmode₁ : ¬ jb₁.samplesPerFrame ≠ 0 := not_not.mpr (hsame.samplesPerFrame.trans hmode)
  unfold takeNext jbNextPacket
  rw [if_neg hmode₁]
  have hfinds := (jbNextPacketBySeq_finds jb₁ (hsame.store.symm ▸ hst)).of_same hsame
  generalize jb₁.jbNextPacketBySeq = found at hfinds ⊢
  obtain ⟨jb₂, n?⟩ := found
  obtain ⟨hkeeps, hskim, hnode⟩ := hfinds
  cases n? with
  | none => exact getMissing_gets hkeeps hskim
  | some node =>
    obtain ⟨htake, hstore⟩ := take_keeps hkeeps node
    refine ⟨htake, ?_⟩
    rw [hstore]
    exact .bySeq hmode hskim (hnode node rfl)

/-- A read by timestamp that comes upon a node. -/
theorem takeNext_ts {node : Node β} (hsame : SameNodes jb jb₁) (hmode : jb.samplesPerFrame ≠ 0)
    (hnext : jb₁.nextByTs = some node) : Keeps jb jb₁.takeNext.1
      ∧ jb₁.takeNext.1.store =
        ((jb.store.setSeq node.addr (jb₁.readSeq node)).countRead jb.type).hideNode
          jb.type node.addr true ∧ jb₁.takeNext.2.packet
        = some ({ node.val.packet with seq := jb₁.readSeq node, version := 2 }, node.val.len) := by
  have hmode₁ : jb₁.samplesPerFrame ≠ 0 := hsame.samplesPerFrame.symm ▸ hmode
  have hread : SameNodes jb (jb₁.jbHit.setReadTs node.val.ts) :=
    hsame.trans ((jbHit_same jb₁).trans (setReadTs_same _ _))
  unfold takeNext jbNextPacket
  rw [if_pos hmode₁]
  unfold jbNextPacketByTs
  rw [hnext]
  dsimp only
  generalize hset : { jb₁.jbHit.setReadTs node.val.ts with
    store := (jb₁.jbHit.setReadTs node.val.ts).store.setSeq node.addr (jb₁.readSeq node) } = jb₂
  have hkeeps : Keeps jb jb₂ := by
    rw [← hset]
    exact hread.toKeeps.trans ⟨rfl, rfl, rfl, fun _ => rfl, fun _ h => h⟩
  have hstore : jb₂.store = jb.store.setSeq node.addr (jb₁.readSeq node) := by
    rw [← hset, ← hread.store]
  obtain ⟨htake, hst⟩ := take_keeps hkeeps
    { node with val := { node.val with packet := { node.val.packet with seq := jb₁.readSeq node } } }
  rw [hstore] at hst
  exact ⟨htake, hst, rfl⟩

theorem takeTs_gets (hst : jb.store.IndexedTs) (hprep : jb.getPrepare = (jb₁, none))
    (hmode : jb.samplesPerFrame ≠ 0) : jb.Gets jb₁.takeNext := by
  have hsame : SameNodes jb jb₁ := by
    have h := getPrepare_same jb
    rwa [hprep] at h
  cases hnext : jb₁.nextByTs with
  | some node =>
    obtain ⟨hkeeps, hstore, hpacket⟩ := takeNext_ts hsame hmode hnext
    refine ⟨hkeeps, ?_⟩
    rw [hstore, hpacket]
    refine .byTs hmode hprep hnext ?_
    exact hsame.store ▸ nextByTs_visible (hsame.store.symm ▸ hst) hnext
  | none =>
    have hmode₁ : jb₁.samplesPerFrame ≠ 0 := hsame.samplesPerFrame.symm ▸ hmode
    -- hit or miss, the rest is bookkeeping
    have hnone : ∃ jb₂, SameNodes jb₁ jb₂ ∧ jb₁.jbNextPacketByTs = (jb₂, none) := by
      unfold jbNextPacketByTs
      rw [hnext]
      dsimp only
      split
      · exact ⟨_, jbHit_same jb₁, rfl⟩
      · exact ⟨_, (jbMiss_same jb₁).trans (incrementTs_same _), rfl⟩
    obtain ⟨jb₂, hsame₂, heq⟩ := hnone
    unfold takeNext jbNextPacket
    rw [if_pos hmode₁, heq]
    have h := hsame.trans hsame₂
    exact getMissing_gets h.toKeeps (.inl h.store)

/-- The hashes a read looks in lead to visible nodes. In timestamp mode it looks in the timestamp hash
only. -/
structure Searchable (jb : SwitchJb β) : Prop where
  bySeq : jb.samplesPerFrame = 0 → jb.store.Indexed
  byTs : jb.samplesPerFrame ≠ 0 → jb.store.IndexedTs

theorem searchable_of_indexed (hst : jb.store.Indexed) :
    jb.Searchable := ⟨fun _ => hst, fun _ => hst.ts⟩

theorem getNext_gets (jb : SwitchJb β) (hst : jb.Searchable) : jb.Gets jb.getNext := by
  have hsame := getPrepare_same jb
  unfold getNext
  cases hprep : jb.getPrepare with
  | mk jb₁ status? =>
    rw [hprep] at hsame
    cases status? with
    | some status => exact ⟨hsame.toKeeps, .nothing (.inl hsame.store)⟩
    | none =>
      by_cases hmode : jb.samplesPerFrame = 0
      · exact takeSeq_gets (hst.bySeq hmode) hsame hmode
      · exact takeTs_gets (hst.byTs hmode) hprep hmode

theorem switchJbGetPacket_effect (jb : SwitchJb β) (hst : jb.Searchable) :
    Keeps jb jb.switchJbGetPacket.1 ∧ ∃ st, GetEffect jb st jb.switchJbGetPacket.2.packet
      ∧ (jb.switchJbGetPacket.1.store = st ∨ jb.type = .video
        ∧ jb.switchJbGetPacket.1.store = st.reset jb.type) := by
  obtain ⟨hkeeps, heffect⟩ := getNext_gets jb hst
  unfold switchJbGetPacket
  generalize jb.getNext.1 = jb₁ at hkeeps heffect ⊢
  unfold getEnd
  split
  · rename_i hvideo
    have hvideo := hkeeps.type.symm.trans hvideo
    split
    · refine ⟨hkeeps.trans (switchJbReset_keeps jb₁), jb₁.store, heffect, .inr ⟨hvideo, ?_⟩⟩
      rw [switchJbReset_store, hkeeps.type]
    · exact ⟨hkeeps, jb₁.store, heffect, .inl rfl⟩
  · split
    · exact ⟨hkeeps, jb₁.store, heffect, .inl rfl⟩
    · exact ⟨hkeeps, jb₁.store, heffect, .inl rfl⟩

/-- A get in timestamp mode that comes upon a node, in a buffer that is not a video buffer. -/
theorem switchJbGetPacket_ts {node : Node β} (hother : jb.type ≠ .video)
    (hmode : jb.samplesPerFrame ≠ 0) (hprep : jb.getPrepare = (jb₁, none))
    (hnext : jb₁.nextByTs = some node) :
    jb.switchJbGetPacket.1.store
      = ((jb.store.setSeq node.addr (jb₁.readSeq node)).countRead jb.type).hideNode jb.type
          node.addr true := by
  have hsame : SameNodes jb jb₁ := by
    have h := getPrepare_same jb
    rwa [hprep] at h
  obtain ⟨hkeeps, hstore, -⟩ := takeNext_ts hsame hmode hnext
  have hget : jb.getNext = jb₁.takeNext := by
    unfold getNext
    rw [hprep]
  unfold switchJbGetPacket getEnd
  rw [hget, if_neg (by rw [hkeeps.type]; exact hother), ← hstore]
  split
  · rfl
  · rfl

end SwitchJb
end FreeSwitch.JitterBuffer
