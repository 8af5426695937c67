import FreeSwitch.Lib.Bytes

/-!
# Reception statistics — `src/switch_rtp.c`

The counters a session keeps about the packets it receives, `rtcp_stats`, and the report block made
of them, `rtcp_generate_report_block`. All of them are machine words: the period counter has 16 bits.
The interarrival jitter is left out; no counter depends on it.
-/

namespace FreeSwitch.Rtcp

open Bytes

/-- The part of the session that decides whether statistics are kept. -/
structure Flags where
  rtcpSockOutput : Bool
  enableRtcp : Bool
  rtcpPassthru : Bool
  rtcpInterval : Nat

def Flags.active (f : Flags) : Bool :=
  f.rtcpSockOutput && f.enableRtcp && !f.rtcpPassthru && f.rtcpInterval != 0

/-- `switch_rtcp_numbers_t`. -/
structure Numbers where
  ssrc : UInt32
  init : Bool
  lastRptExtSeq : UInt32
  lastRptCycle : UInt16
  periodPktCount : UInt16
  pktCount : UInt16
  rtcpRtpCount : UInt32
  highExtSeqRecv : UInt32
  cycle : UInt16
  badSeq : UInt32
  baseSeq : UInt16
  cumLost : UInt32
  peerSsrc : UInt32
  lastRecvLsrLocal : UInt32
  lastRecvLsrPeer : UInt32

/-- As `switch_rtp_create` leaves them. -/
def Numbers.fresh : Numbers := ⟨0, false, 0, 0, 0, 0, 0, 0, 0, 0, 0, 0, 0, 0, 0⟩

/-- The header fields of a packet, in host order. -/
structure Packet where
  ssrc : UInt32
  seq : UInt16

/-! ## Packets -/

def rtcpStatsInit (stats : Numbers) (hdr : Packet) : Numbers :=
  { stats with
    ssrc := hdr.ssrc
    init := true
    lastRptExtSeq := 0
    lastRptCycle := 0
    cycle := 0
    highExtSeqRecv := hdr.seq.toUInt32
    baseSeq := hdr.seq
    badSeq := 65537
    cumLost := 0
    periodPktCount := 0
    pktCount := 0
    rtcpRtpCount := 0 }

def maxDropout : UInt16 := 3000

/-- `RTP_SEQ_MOD - MAX_MISORDER`. -/
def maxJump : UInt16 := 65436

/-- A packet in order, with a permissible gap. -/
def advanceHigh (stats : Numbers) (seq maxSeq : UInt16) : Numbers :=
  let cycle := if seq < maxSeq then stats.cycle + 1 else stats.cycle
  let extended := cycle.toUInt32 <<< 16 ||| seq.toUInt32
  { stats with
    cycle
    highExtSeqRecv := if extended > stats.highExtSeqRecv then extended else stats.highExtSeqRecv }

/-- The packet is counted. -/
def countPacket (stats : Numbers) (hdr : Packet) : Numbers :=
  let stats := if hdr.ssrc ≠ stats.ssrc ∨ stats.init = false then rtcpStatsInit stats hdr else stats
  { stats with periodPktCount := stats.periodPktCount + 1, pktCount := stats.pktCount + 1 }

def rtcpStats (flags : Flags) (stats : Numbers) (hdr : Packet) : Numbers :=
  if flags.active = false then stats
  else
    let maxSeq := stats.highExtSeqRecv.toUInt16
    let seqDiff := hdr.seq - maxSeq
    if seqDiff < maxDropout then countPacket (advanceHigh stats hdr.seq maxSeq) hdr
    else if seqDiff ≤ maxJump then
      -- a very large jump: the packet is not counted
      if hdr.seq.toUInt32 = stats.badSeq then rtcpStatsInit stats hdr
      else { stats with badSeq := (hdr.seq + 1).toUInt32 }
    else countPacket stats hdr

/-! ## Reports -/

structure Block where
  ssrc : UInt32
  fraction : UInt8
  /-- 24 bits, as they are stored. -/
  lost : UInt32
  highestSequenceNumberReceived : UInt32
  lsr : UInt32
  dlsr : UInt32

/-- `expected_pkt`; the extra packets are those of a video session. -/
def expectedPkt (stats : Numbers) (extraExpected : UInt32) : UInt32 :=
  if stats.rtcpRtpCount = 0 then stats.highExtSeqRecv - stats.baseSeq.toUInt32 + 1
  else stats.highExtSeqRecv - stats.lastRptExtSeq + extraExpected

/-- `(uint8_t) (pkt_lost * 256 / expected_pkt)` if both are positive, `pkt_lost` as a signed number. -/
def fractionLost (expected lost : UInt32) : UInt8 :=
  if 0 < expected ∧ 0 < lost ∧ lost < 0x80000000 then (lost * 256 / expected).toUInt8 else 0

def rtcpGenerateReportBlock (stats : Numbers) (extraExpected lsrNow : UInt32) : Block × Numbers :=
  let expected := expectedPkt stats extraExpected
  let pktLost := expected - stats.periodPktCount.toUInt32
  let cumLost := stats.cumLost + pktLost
  let dlsr :=
    if stats.lastRecvLsrLocal ≠ 0 ∧ lsrNow > stats.lastRecvLsrLocal then
      lsrNow - stats.lastRecvLsrLocal
    else 0
  ({ ssrc := htonl stats.peerSsrc
     fraction := fractionLost expected pktLost
     lost := htonl cumLost >>> 8
     highestSequenceNumberReceived := htonl stats.highExtSeqRecv
     lsr := stats.lastRecvLsrPeer
     dlsr := htonl dlsr },
    { stats with cumLost, rtcpRtpCount := stats.rtcpRtpCount + 1 })

/-- `Prepare next report` of `check_rtcp_and_ice`. -/
def prepareNextReport (stats : Numbers) : Numbers :=
  { stats with lastRptCycle := stats.cycle, lastRptExtSeq := stats.highExtSeqRecv, periodPktCount := 0 }

/-- A cyclic report of an audio session. -/
def sendReport (stats : Numbers) (lsrNow : UInt32) : Block × Numbers :=
  let (block, stats) := rtcpGenerateReportBlock stats 0 lsrNow
  (block, prepareNextReport stats)

end FreeSwitch.Rtcp
