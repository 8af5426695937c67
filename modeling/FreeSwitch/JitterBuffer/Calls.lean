import FreeSwitch.JitterBuffer.Store

/-!
# The jitter buffer of `switch_jitterbuffer.c`

`switch_jb_t` and the calls on it: `switch_jb_put_packet` stores a packet, `switch_jb_get_packet`
returns the next one by sequence number or, in timestamp mode, by timestamp, `switch_jb_reset`
hides every node, and `switch_jb_get_packet_by_seq` and `switch_jb_peek_frame` look at a packet
without taking it.

The functions are the source's, on the state before and after. Left out are the locks, the
debug output, the fields that only feed it (`period_miss_pct`, `bad_hits`, `drop_flag`), and
what goes to a session or channel (requests for a key frame, the bit rate).

* **`addNode`**, **`jbNextPacketBySeq`**, **`jbNextPacketByTs`** — the two sides of the buffer.
* **`switchJbPutPacket`**, **`switchJbGetPacket`**, **`switchJbReset`** — the calls.
-/

namespace FreeSwitch.JitterBuffer

open Bytes Pools

/-- `switch_jb_t`. Sequence numbers and timestamps are in network order, except
`highestDroppedTs`, `psuedoSeq` and `lastPsuedoSeq`. -/
structure SwitchJb (β : Type) where
  store : NodeStore β
  type : JbType
  queueOnly : Bool
  lastTargetSeq : UInt16
  targetSeq : UInt16
  nextSeq : UInt16
  highestReadSeq : UInt16
  highestWroteSeq : UInt16
  psuedoSeq : UInt16
  lastPsuedoSeq : UInt16
  highestReadTs : UInt32
  highestDroppedTs : UInt32
  highestWroteTs : UInt32
  targetTs : UInt32
  lastTargetTs : UInt32
  frameLen : UInt32
  minFrameLen : UInt32
  maxFrameLen : UInt32
  highestFrameLen : UInt32
  periodMissCount : UInt32
  consecMissCount : UInt32
  periodMissInc : UInt32
  periodGoodCount : UInt32
  consecGoodCount : UInt32
  periodCount : UInt32
  dropped : UInt32
  samplesPerFrame : UInt32
  samplesPerSecond : UInt32
  bufferLag : UInt32
  packetCount : UInt32
  maxPacketLen : UInt32
  writeInit : Bool
  readInit : Bool
  flush : Bool
  lastLen : Nat
  missingSeqHash : IntHash UInt16 Nat

/-- The `switch_status_t` values the calls return. -/
inductive Status where
  | success
  | breakOff
  | moreData
  | notFound
  | restart
  | timeout
  deriving DecidableEq, Repr

/-- What `switch_jb_put_packet` did with the packet. The source returns success in every case. -/
inductive Fate where
  /-- its frame has been dropped already -/
  | ignored
  /-- no node was to be had, so the buffer was reset -/
  | refused
  /-- stored, and then hidden again by the reset for a jump in the stream -/
  | punted
  | stored
  deriving DecidableEq, Repr

/-- `sizeof(switch_rtp_packet_t)` with 8-byte pointers. -/
def packetSize : Nat := 16424

/-- The bytes of a packet from its `body` on. In a `switch_jb_node_t` the fields behind them are
`len` (four bytes), `visible`, `bad_hits`, two bytes of padding and the pointer `prev`. -/
def bodyRoom : Nat := 16412

variable {β : Type}

namespace SwitchJb

/-! ## Creation -/

/-- `switch_jb_create`. -/
def switchJbCreate (β : Type) (type : JbType) (minFrameLen maxFrameLen : UInt32) : SwitchJb β where
  store := NodeStore.empty false
  type := type
  queueOnly := false
  lastTargetSeq := 0
  targetSeq := 0
  nextSeq := 0
  highestReadSeq := 0
  highestWroteSeq := 0
  psuedoSeq := 0
  lastPsuedoSeq := 0
  highestReadTs := 0
  highestDroppedTs := 0
  highestWroteTs := 0
  targetTs := 0
  lastTargetTs := 0
  frameLen := minFrameLen
  minFrameLen := minFrameLen
  maxFrameLen := maxFrameLen
  highestFrameLen := minFrameLen
  periodMissCount := 0
  consecMissCount := 0
  periodMissInc := 0
  periodGoodCount := 0
  consecGoodCount := 0
  periodCount := 0
  dropped := 0
  samplesPerFrame := 0
  samplesPerSecond := 0
  bufferLag := 0
  packetCount := 0
  maxPacketLen := 0
  writeInit := false
  readInit := false
  flush := false
  lastLen := 0
  missingSeqHash := ∅

/-- `switch_jb_ts_mode`. -/
def switchJbTsMode (jb : SwitchJb β) (samplesPerFrame samplesPerSecond : UInt32) : SwitchJb β :=
  { jb with
    samplesPerFrame := samplesPerFrame
    samplesPerSecond := samplesPerSecond
    store := { jb.store with nodeHashTs := some ∅ } }

/-- `switch_jb_set_flag(jb, SJB_QUEUE_ONLY)`. -/
def switchJbSetQueueOnly (jb : SwitchJb β) : SwitchJb β := { jb with queueOnly := true }

/-! ## Counters -/

def jbHit (jb : SwitchJb β) : SwitchJb β :=
  { jb with
    periodGoodCount := jb.periodGoodCount + 1
    consecGoodCount := jb.consecGoodCount + 1
    consecMissCount := 0 }

def jbMiss (jb : SwitchJb β) : SwitchJb β :=
  { jb with
    periodMissCount := jb.periodMissCount + 1
    consecMissCount := jb.consecMissCount + 1
    consecGoodCount := 0 }

/-- `jb_frame_inc_line`; the sum is one of `uint32_t` values. -/
def jbFrameInc (jb : SwitchJb β) (i : Int) : SwitchJb β :=
  let sum := jb.frameLen + UInt32.ofInt i
  let frameLen :=
    if i = 0 then jb.minFrameLen
    else if 0 < i then (if sum < jb.maxFrameLen then sum else jb.maxFrameLen)
    else (if jb.minFrameLen < sum then sum else jb.minFrameLen)
  { jb with
    frameLen := frameLen
    highestFrameLen := if jb.highestFrameLen < frameLen then frameLen else jb.highestFrameLen }

/-- `a` is not behind `b`, a rollover counted in. -/
def checkSeq (a b : UInt16) : Bool :=
  let a := (ntohs a).toNat
  let b := (ntohs b).toNat
  decide (b ≤ a) || (decide (a < b) && decide (65535 / 2 < b) && decide (a < 65535 / 2))

/-- `check_ts`: whether `a` is later than `b`, with one wrap allowed for. -/
def checkTs (a b : UInt32) : Bool :=
  let a := (ntohl a).toNat
  let b := (ntohl b).toNat
  decide (b < a) || (decide (a < b) && decide (4294967295 / 2 < b) && decide (a < 4294967295 / 2))

/-- `switch_jb_reset`. -/
def switchJbReset (jb : SwitchJb β) : SwitchJb β :=
  { jb with
    missingSeqHash := if jb.type = .video then ∅ else jb.missingSeqHash
    store := { jb.store.hideNodes jb.type with completeFrames := 0 }
    lastTargetSeq := 0
    targetSeq := 0
    writeInit := false
    highestWroteSeq := 0
    highestWroteTs := 0
    nextSeq := 0
    highestReadTs := 0
    highestReadSeq := 0
    readInit := false
    periodMissCount := 0
    consecMissCount := 0
    periodGoodCount := 0
    consecGoodCount := 0
    periodCount := 0
    periodMissInc := 0
    targetTs := 0
    lastTargetTs := 0 }

/-! ## Storing -/

/-- More nodes than this, and `new_node` resets the buffer instead of allocating. -/
def nodeLimit (jb : SwitchJb β) : Nat :=
  let mult : UInt32 := if jb.type ≠ .video then 2 else if 2 < jb.maxPacketLen then
    jb.maxPacketLen else 2
  (jb.maxFrameLen * mult).toNat

/-- `seq_diff` of `add_node`. -/
def seqDiff (jb : SwitchJb β) (packet : Packet β) : Nat :=
  let wrote := (ntohs jb.highestWroteSeq).toNat
  let seq := (ntohs packet.seq).toNat
  if 65535 - 100 < wrote ∧ seq < 100 then (65535 - wrote) + seq
  else ((seq : Int) - wrote).natAbs

/-- `ts_diff` of `add_node`, an `int`. Around a rollover it is `(UINT_MAX - ts) + ts`, which is
`-1` as an `int`; otherwise the difference is cut to 32 bits before its absolute value. -/
def tsDiff (jb : SwitchJb β) (packet : Packet β) : Int :=
  let wrote := (ntohl jb.highestWroteTs).toNat
  let ts := (ntohl packet.ts).toNat
  if 4294967295 - 1000 < wrote ∧ ts < 1000 then -1
  else (Int.bmod ((ts : Int) - wrote) (2 ^ 32)).natAbs

/-- A jump in a video stream that makes `add_node` reset the buffer. -/
def punts (jb : SwitchJb β) (packet : Packet β) : Bool :=
  jb.writeInit && decide (jb.type = .video)
    && (decide (100 ≤ jb.seqDiff packet) || decide (900000 * 5 < jb.tsDiff packet))

def noteWroteSeq (jb : SwitchJb β) (packet : Packet β) : SwitchJb β :=
  let wrote := (ntohs jb.highestWroteSeq).toNat
  let seq := (ntohs packet.seq).toNat
  if !jb.writeInit || decide (wrote < seq) || (decide (65535 - 100 < wrote) && decide (seq < 100)) then
    { jb with highestWroteSeq := packet.seq }
  else jb

/-- The packet starts a new frame, which completes the one before. -/
def marks (jb : SwitchJb β) (packet : Packet β) : Bool :=
  jb.writeInit && checkSeq packet.seq jb.highestWroteSeq && checkTs packet.ts jb.highestWroteTs

def countPacket (jb : SwitchJb β) : SwitchJb β :=
  if jb.queueOnly then jb else { jb with packetCount := jb.packetCount + 1 }

/-- The packets of the frame that has been completed. -/
def measurePackets (jb : SwitchJb β) : SwitchJb β :=
  if jb.queueOnly then jb
  else
    { jb with
      maxPacketLen := if jb.maxPacketLen < jb.packetCount then jb.packetCount else jb.maxPacketLen
      packetCount := 0 }

/-- What `add_node` does for the frame count of a video buffer. -/
def countVideo (jb : SwitchJb β) (packet : Packet β) (a : Nat) : SwitchJb β :=
  let jb := jb.countPacket
  if jb.marks packet then
    measurePackets { jb with highestWroteTs := packet.ts, store := jb.store.mark a }
  else if !jb.writeInit then { jb with highestWroteTs := packet.ts }
  else jb

/-- And of any other buffer. -/
def countOther (jb : SwitchJb β) (packet : Packet β) : SwitchJb β :=
  if jb.writeInit || decide (jb.type = .text) || decide (jb.type = .audio) then
    { jb with store := { jb.store with completeFrames := jb.store.completeFrames + 1 } }
  else { jb with highestWroteTs := packet.ts }

/-- `add_node` from the insertion in the hashes on: the node at `a` holds the packet. -/
def noteNode (jb : SwitchJb β) (packet : Packet β) (a : Nat) : SwitchJb β × Fate :=
  let punted := jb.punts packet
  let jb := if punted then jb.switchJbReset else jb
  let jb := jb.noteWroteSeq packet
  let jb := if jb.type = .video then jb.countVideo packet a else jb.countOther packet
  ({ jb with writeInit := true }, if punted then .punted else .stored)

/-- `node->len`, the bytes of which beyond `bodyRoom` have been written over. -/
def overrunLen (len : Nat) (behind : Nat → UInt8) : Nat :=
  (List.range 4).foldr
    (fun i rest => 256 * rest + if bodyRoom + i < len then (behind i).toNat else len / 256 ^ i % 256) 0

/-- `memcpy(node->packet.body, packet->body, len)` of `add_node`, which is not bounded by the
size of the body. A copy longer than `bodyRoom` takes what lies `behind` the caller's packet in
memory and writes it over `len` and `visible` of the node. -/
def copyBody (st : NodeStore β) (a len : Nat) (behind : Nat → UInt8) : NodeStore β :=
  if len ≤ bodyRoom then st
  else
    { st with
      nodeList := st.nodeList.write a (fun n => { n with len := overrunLen len behind })
        fun visible => if bodyRoom + 4 < len then decide (behind 4 ≠ 0) else visible }

theorem copyBody_of_le {len : Nat} (h : len ≤ bodyRoom) (st : NodeStore β) (a : Nat)
    (behind : Nat → UInt8) : copyBody st a len behind = st :=
  if_pos h

def addNode (behind : Nat → UInt8) (jb : SwitchJb β) (packet : Packet β) (len : Nat) :
    SwitchJb β × Fate :=
  match jb.store.newNode jb.nodeLimit ⟨packet, len⟩ with
  | none => (jb.switchJbReset, .refused)
  | some (store, a) =>
    noteNode { jb with store := (copyBody store a len behind).enter a ⟨packet, len⟩ } packet a

/-- A packet that was missing comes in, and late if the reader is past it. -/
def noteLate (jb : SwitchJb β) (packet : Packet β) : SwitchJb β :=
  let late := (jb.missingSeqHash.lookup packet.seq).isSome
    && decide ((ntohs packet.seq).toNat < (ntohs jb.targetSeq).toNat)
  let jb := { jb with missingSeqHash := jb.missingSeqHash.erase packet.seq }
  if late then jb.jbFrameInc 1 else jb

/-- The sequence numbers from `want` to `got - 1` are missing; too many of them reset the
buffer. -/
def noteGap (jb : SwitchJb β) (want got : Nat) : SwitchJb β :=
  if want < got then
    if jb.maxFrameLen.toNat < got - want ∧ 17 < got - want then jb.switchJbReset
    else
      let jb := if jb.frameLen.toNat < got - want then jb.jbFrameInc 1 else jb
      { jb with
        missingSeqHash := (List.range' want (got - want)).foldl
          (fun h i => h.insert (htons (UInt16.ofNat i)) 1) jb.missingSeqHash }
  else jb

/-- `switch_jb_put_packet` up to `add_node`: the sequence number that is expected next, and for
a video buffer the sequence numbers that are missing. -/
def noteSeq (jb : SwitchJb β) (packet : Packet β) : SwitchJb β :=
  let got := (ntohs packet.seq).toNat
  let want := if jb.nextSeq = 0 then got else (ntohs jb.nextSeq).toNat
  let next := htons (ntohs packet.seq + 1)
  if jb.queueOnly || decide (jb.type = .audio) || decide (jb.type = .text) then
    { jb with nextSeq := next }
  else
    let jb := (jb.noteLate packet).noteGap want got
    if want ≤ got ∨ 1000 < want - got then { jb with nextSeq := next } else jb

/-- The `while` of `switch_jb_put_packet`: oldest frames go until there is room for another.
With no room for one and no node left it does not end. -/
def dropLoop : Nat → SwitchJb β → Option (SwitchJb β)
  | 0, _ => none
  | fuel + 1, jb =>
    if jb.maxFrameLen * 2 - UInt32.ofNat jb.store.visibleNodes < jb.maxPacketLen then
      dropLoop fuel { jb with store := jb.store.dropOldestFrame jb.type }
    else some jb

/-- The packet belongs to a frame before one that was dropped. -/
def alreadyDropped (jb : SwitchJb β) (packet : Packet β) : Bool :=
  decide (jb.highestDroppedTs ≠ 0) && decide (ntohl packet.ts < jb.highestDroppedTs)

/-- The buffer that `add_node` finds. -/
def putPrepare (jb : SwitchJb β) (packet : Packet β) : SwitchJb β :=
  noteSeq { jb with highestDroppedTs := 0 } packet

def makeRoom (fuel : Nat) (jb : SwitchJb β) : Option (SwitchJb β) :=
  if jb.queueOnly && decide (jb.maxPacketLen ≠ 0)
      && decide ((jb.maxFrameLen * 2 - 1).toNat < jb.store.nodeList.allocated) then
    jb.dropLoop fuel
  else some jb

/-- `fuel` bounds the rounds of the last loop; without enough of it there is no result. Nor is
there one once the copy has reached `prev`: the node list then leads anywhere. -/
def switchJbPutPacket (fuel : Nat) (behind : Nat → UInt8) (jb : SwitchJb β) (packet : Packet β)
    (len : Nat) : Option (SwitchJb β × Fate) :=
  if jb.alreadyDropped packet then some (jb, .ignored)
  else
    let added := (jb.putPrepare packet).addNode behind packet (min len packetSize)
    if added.2 ≠ .refused ∧ bodyRoom + 8 < min len packetSize then none
    else (makeRoom fuel added.1).map fun jb => (jb, added.2)

/-! ## Reading -/

/-- `increment_ts`. -/
def incrementTs (jb : SwitchJb β) : SwitchJb β :=
  if jb.targetTs = 0 then jb
  else
    { jb with
      lastPsuedoSeq := jb.psuedoSeq
      lastTargetTs := jb.targetTs
      targetTs := htonl (ntohl jb.targetTs + jb.samplesPerFrame)
      psuedoSeq := jb.psuedoSeq + 1 }

/-- `set_read_ts`. -/
def setReadTs (jb : SwitchJb β) (ts : UInt32) : SwitchJb β :=
  if ts = 0 then jb
  else
    { jb with
      lastPsuedoSeq := jb.psuedoSeq
      lastTargetTs := ts
      targetTs := htonl (ntohl ts + jb.samplesPerFrame)
      psuedoSeq := jb.psuedoSeq + 1 }

/-- `increment_seq`. -/
def incrementSeq (jb : SwitchJb β) : SwitchJb β :=
  { jb with lastTargetSeq := jb.targetSeq, targetSeq := htons (ntohs jb.targetSeq + 1) }

/-- `set_read_seq`. -/
def setReadSeq (jb : SwitchJb β) (seq : UInt16) : SwitchJb β :=
  { jb with lastTargetSeq := seq, targetSeq := htons (ntohs seq + 1) }

/-- The `for` over the next ten sequence numbers. -/
def seek : Nat → SwitchJb β → SwitchJb β × Option (Node β)
  | 0, jb => (jb, none)
  | x + 1, jb =>
    let jb := jb.incrementSeq
    match jb.store.findSeq jb.targetSeq with
    | some node => (jb, some node)
    | none => seek x jb

def dropFrame (jb : SwitchJb β) (node : Node β) : SwitchJb β :=
  { jb with
    dropped := jb.dropped + 1
    store := jb.store.dropTs jb.type node.val.ts
    highestDroppedTs := ntohl node.val.ts }

/-- From `top:` on, after a frame was dropped in a video buffer or at the start. -/
def resync (jb : SwitchJb β) : SwitchJb β :=
  if jb.type = .video ∧ jb.dropped ≠ 0 then { jb with dropped := 0, targetSeq := 0 } else jb

/-- The branch without a target: the node of number 0, else the lowest one. -/
def startSeq (jb : SwitchJb β) : SwitchJb β × Option (Node β) :=
  let node := match jb.store.findSeq jb.targetSeq with
    | some node => some node
    | none => jb.store.jbFindLowestSeq 0
  (jb.jbHit, node)

/-- The branch where the target is missing. The `goto top` after a dropped frame comes back
with `dropped` set, so it goes to `resync` and the branch without a target. -/
def missSeq (jb : SwitchJb β) : SwitchJb β × Option (Node β) :=
  let jb := jb.jbMiss
  if jb.type = .video then
    let jb := if 1 < jb.periodMissCount ∧ jb.periodMissInc = 0 then
        jbFrameInc { jb with periodMissInc := jb.periodMissInc + 1 } 1
      else jb
    match seek 10 jb with
    | (jb, none) => (jb, none)
    | (jb, some node) =>
      if node.val.packet.m || decide (node.val.ts = jb.highestReadTs) then
        (jb.dropFrame node).resync.startSeq
      else (jb, some node)
  else (jb.incrementSeq, none)

/-- The three branches of `jb_next_packet_by_seq`. -/
def findNextSeq (jb : SwitchJb β) : SwitchJb β × Option (Node β) :=
  if jb.targetSeq = 0 then jb.startSeq
  else match jb.store.findSeq jb.targetSeq with
    | some node => (jb.jbHit, some node)
    | none => jb.missSeq

/-- `jb_next_packet_by_seq`. -/
def jbNextPacketBySeq (jb : SwitchJb β) : SwitchJb β × Option (Node β) :=
  match jb.resync.findNextSeq with
  | (jb, some node) => (jb.setReadSeq node.val.seq, some node)
  | (jb, none) => (jb, none)

/-- The node `jb_next_packet_by_ts` comes upon. -/
def nextByTs (jb : SwitchJb β) : Option (Node β) :=
  if jb.targetTs = 0 then jb.store.jbFindLowestNode else jb.store.findTs jb.targetTs

/-- The sequence number that is written to a node that is read by its timestamp. -/
def readSeq (jb : SwitchJb β) (node : Node β) : UInt16 := htons (jb.setReadTs node.val.ts).psuedoSeq

/-- The node is returned as it is after its sequence number has been overwritten. -/
def jbNextPacketByTs (jb : SwitchJb β) : SwitchJb β × Option (Node β) :=
  match jb.nextByTs with
  | some node =>
    let seq := jb.readSeq node
    let jb := jb.jbHit.setReadTs node.val.ts
    ({ jb with store := jb.store.setSeq node.addr seq },
      some { node with val := { node.val with packet := { node.val.packet with seq := seq } } })
  | none => if jb.targetTs = 0 then (jb.jbHit, none) else (jb.jbMiss.incrementTs, none)

/-- `jb_next_packet`. -/
def jbNextPacket (jb : SwitchJb β) : SwitchJb β × Option (Node β) :=
  if jb.samplesPerFrame ≠ 0 then jb.jbNextPacketByTs else jb.jbNextPacketBySeq

/-- Only its effect matters to the callers here: `switch_jb_get_packet` tests `flush` itself. -/
def switchJbPoll (jb : SwitchJb β) : SwitchJb β :=
  if jb.type = .text ∧ jb.store.completeFrames < jb.frameLen.toNat then
    let lag := if jb.store.completeFrames ≠ 0 ∧ jb.bufferLag = 0 then 10 else jb.bufferLag
    if lag = 0 then { jb with bufferLag := lag }
    else { jb with bufferLag := lag - 1, flush := jb.flush || decide (lag - 1 = 0) }
  else jb

/-- A long row of hits makes the buffer shorter. -/
def shrinkFrame (jb : SwitchJb β) : SwitchJb β :=
  if 250 - 5 ≤ jb.consecGoodCount then jb.jbFrameInc (-1) else jb

/-- The statistics of a period of 250 reads. -/
def tickPeriod (jb : SwitchJb β) : SwitchJb β :=
  let jb := { jb with periodCount := jb.periodCount + 1 }
  if 250 ≤ jb.periodCount then
    { jb.shrinkFrame with
      periodCount := 1
      periodMissInc := 0
      periodMissCount := 0
      periodGoodCount := 0
      consecMissCount := 0
      consecGoodCount := 0 }
  else jb

/-- `switch_jb_get_packet` up to `jb_next_packet`, with the status it leaves with if it does
not get there. -/
def getPrepare (jb : SwitchJb β) : SwitchJb β × Option Status :=
  if jb.store.completeFrames = 0 then ({ jb with flush := false }, some .breakOff)
  else if jb.store.completeFrames < jb.frameLen.toNat then
    let jb := jb.switchJbPoll
    if jb.flush then (jb.tickPeriod, none) else (jb, some .moreData)
  else (jb.tickPeriod, none)

/-- What the caller of `switch_jb_get_packet` gets: a packet and its length, or the sequence
number and timestamp of a packet to be concealed. -/
structure Got (β : Type) where
  status : Status
  packet : Option (Packet β × Nat)
  plc : Option (UInt16 × UInt32)

/-- From `end:` on. -/
def getEnd (jb : SwitchJb β) (got : Got β) : SwitchJb β × Got β :=
  if jb.type = .video then
    if (jb.maxFrameLen * 2).toNat < jb.store.completeFrames then (jb.switchJbReset, got) else (jb, got)
  else if jb.maxFrameLen.toNat * 3 / 2 < jb.store.visibleNodes ∧ got.status = .success then
    (jb, { got with status := .timeout })
  else (jb, got)

def noteReadSeq (jb : SwitchJb β) (seq : UInt16) : SwitchJb β :=
  if !jb.readInit || checkSeq seq jb.highestReadSeq then { jb with highestReadSeq := seq } else jb

def noteReadFrame (jb : SwitchJb β) (seq : UInt16) (ts : UInt32) : SwitchJb β :=
  if jb.type ≠ .video then
    { jb with
      store := { jb.store with completeFrames := dec32 jb.store.completeFrames }
      highestReadTs := ts }
  else if jb.readInit && checkSeq seq jb.highestReadSeq && checkTs ts jb.highestReadTs then
    { jb with highestReadTs := ts }
  else if !jb.readInit then { jb with highestReadTs := ts }
  else jb

/-- What is noted of a node that is about to be returned. -/
def noteRead (jb : SwitchJb β) (node : Node β) : SwitchJb β :=
  { (jb.noteReadSeq node.val.seq).noteReadFrame node.val.seq node.val.ts with readInit := true }

/-- Copy the packet out and hide the node. -/
def takeNode (jb : SwitchJb β) (node : Node β) : SwitchJb β × Got β :=
  ({ jb with lastLen := node.val.len, store := jb.store.hideNode jb.type node.addr true },
    ⟨.success, some ({ node.val.packet with version := 2 }, node.val.len), none⟩)

/-- No node was found. `jb_next_packet` has no other status for it than not found, so the
branches of the source for a restart are never taken. -/
def getMissing (jb : SwitchJb β) : SwitchJb β × Got β :=
  if jb.type = .video then (jb, ⟨.moreData, none, none⟩)
  else if jb.frameLen < jb.consecMissCount then (jb.jbFrameInc 1, ⟨.restart, none, none⟩)
  else
    let plc := if jb.samplesPerFrame ≠ 0 then (htons jb.lastPsuedoSeq, jb.lastTargetTs)
      else (jb.lastTargetSeq, 0)
    (jb, ⟨.notFound, none, some plc⟩)

def takeNext (jb : SwitchJb β) : SwitchJb β × Got β :=
  match jb.jbNextPacket with
  | (jb, some node) => (jb.noteRead node).takeNode node
  | (jb, none) => jb.getMissing

/-- `switch_jb_get_packet` up to `end:`. -/
def getNext (jb : SwitchJb β) : SwitchJb β × Got β :=
  match jb.getPrepare with
  | (jb, some status) => (jb, ⟨status, none, none⟩)
  | (jb, none) => jb.takeNext

/-- `switch_jb_get_packet`. -/
def switchJbGetPacket (jb : SwitchJb β) : SwitchJb β × Got β :=
  jb.getNext.1.getEnd jb.getNext.2

/-! ## Looking -/

/-- `switch_jb_get_packet_by_seq`. -/
def switchJbGetPacketBySeq (jb : SwitchJb β) (seq : UInt16) : Option (Packet β × Nat) :=
  (jb.store.findSeq seq).map fun node => ({ node.val.packet with version := 2 }, node.val.len)

/-- What `switch_jb_peek_frame` fills in; the data is copied only if `buflen` exceeds its
length. -/
structure Frame (β : Type) where
  seq : UInt16
  timestamp : UInt32
  m : Bool
  datalen : UInt32
  data : Option β

def frameOf (n : Stored β) (buflen : UInt32) : Frame β :=
  let datalen := UInt32.ofNat n.len - 12
  ⟨ntohs n.seq, ntohl n.ts, n.packet.m, datalen, if datalen < buflen then some n.packet.body else none⟩

/-- `switch_jb_peek_frame`. -/
def switchJbPeekFrame (jb : SwitchJb β) (ts : UInt32) (seq : UInt16) (peek : Int) (buflen : UInt32) :
    Option (Frame β) :=
  let node :=
    if seq ≠ 0 then jb.store.findSeq (htons (seq + UInt16.ofInt peek))
    else if ts ≠ 0 ∧ jb.samplesPerFrame ≠ 0 then
      jb.store.findTs (htonl (ts + UInt32.ofInt peek * jb.samplesPerFrame))
    else none
  node.map fun node => frameOf node.val buflen

end SwitchJb

/-- The calls that change a buffer in use. -/
inductive Call (β : Type) where
  | put (packet : Packet β) (len : Nat)
  | get
  | reset

/-- A packet that is put is no longer than a node has room for. -/
def Call.Fits : Call β → Prop
  | .put _ len => len ≤ bodyRoom
  | .get => True
  | .reset => True

instance Call.decidableFits : (call : Call β) → Decidable call.Fits
  | .put _ len => inferInstanceAs (Decidable (len ≤ bodyRoom))
  | .get => inferInstanceAs (Decidable True)
  | .reset => inferInstanceAs (Decidable True)

end FreeSwitch.JitterBuffer
