import FreeSwitch.Rtcp.Stats
import FreeSwitch.Lib.Run

/-!
# Reports about a complete stream

A stream from one source arrives complete and in order, and reports are made in between. Such a stream
has lost nothing, and a report should say so. The counters start in step with the stream unless it
begins at a number from 3000 to 65435: then the first two packets are taken for a jump, the second one
becomes the base and is not counted. They leave it again when one of them wraps around: the period
counter after 65536 packets without a report, the number of reports after 2^32 of them, and the
highest number at 2^32.

* **`Tracks.packet`** — one packet keeps the counters where the stream is.
* **`Tracks.report`** — so does one report.
* **`Tracks.clean_iff_lost`** — when a report made in that state is right.
* **`rtcp_reports_clean_iff`** — the whole run.
* **`rtcp_first_report_lost`** — a stream that begins at 3000.
-/

namespace FreeSwitch.Rtcp

open Bytes Runs

/-! ## Runs -/

inductive Action where
  | packet
  /-- `lsrNow` is the clock when the report is made. -/
  | report (lsrNow : UInt32)

structure World where
  stats : Numbers
  /-- Packets received. -/
  packets : Nat
  /-- Reports made. -/
  reports : Nat
  /-- Packets received when the last report was made. -/
  atReport : Nat

/-- A stream: its source, its first sequence number and the session it comes to. -/
structure Stream where
  flags : {f : Flags // f.active = true}
  ssrc : UInt32
  first : UInt16

variable (stream : Stream)

/-- The extended number of the packet with the index. -/
def Stream.number (index : Nat) : Nat := stream.first.toNat + index

def step (w : World) : Action → World
  | .packet =>
    { w with
      stats := rtcpStats stream.flags w.stats ⟨stream.ssrc, UInt16.ofNat (stream.number w.packets)⟩
      packets := w.packets + 1 }
  | .report lsrNow =>
    { w with stats := (sendReport w.stats lsrNow).2, reports := w.reports + 1, atReport := w.packets }

def fresh : World := ⟨.fresh, 0, 0, 0⟩

/-- Three packets, then whatever comes. -/
def run (actions : List Action) : World :=
  (.packet :: .packet :: .packet :: actions).foldl (step stream) fresh

/-- The block says that nothing is lost and that the last packet is the highest. -/
structure Clean (last : Nat) (block : Block) : Prop where
  fraction : block.fraction = 0
  lost : block.lost = 0
  highest : (ntohl block.highestSequenceNumberReceived).toNat = last

/-- A report made now is right. -/
def ReportsClean (w : World) : Action → Prop
  | .packet => True
  | .report lsrNow => Clean (stream.number (w.packets - 1)) (sendReport w.stats lsrNow).1

/-! ## When the counters are in step -/

/-- The first packets that are not counted. -/
def Stream.uncounted : Nat :=
  if stream.first.toNat < 3000 ∨ 65437 ≤ stream.first.toNat then 0
  else if stream.first.toNat = 65436 then 1 else 2

/-- The packets before the one that becomes the base. -/
def Stream.skipped : Nat := if stream.uncounted = 0 then 0 else 1

/-- The packets a report is about: since the last report, or since the counting began. -/
def World.period (w : World) : Nat := w.packets - if w.reports = 0 then stream.uncounted else w.atReport

/-- The packets a report expects; the number of reports is a word. -/
def World.expected (w : World) : Nat :=
  w.packets - if w.reports % 2 ^ 32 = 0 then stream.skipped else w.atReport

/-- The stream does not begin with a jump, its number fits a word, and what the 16 bits of the period
counter do not show is a multiple of the 24 bits of the loss. -/
def InStep (w : World) : Action → Prop
  | .packet => True
  | .report _ =>
    stream.uncounted = stream.skipped ∧ stream.number (w.packets - 1) < 2 ^ 32
      ∧ (w.expected stream - w.period stream % 2 ^ 16) % 2 ^ 24 = 0

/-- With a report before the period counter wraps around, and less than 2^32 reports and packets, it is
all up to the first number. -/
theorem inStep_of_regular {stream : Stream} {w : World} (hstart : stream.uncounted = stream.skipped)
    (hnumber : stream.number (w.packets - 1) < 2 ^ 32) (hreports : w.reports < 2 ^ 32)
    (hperiod : w.period stream < 2 ^ 16) (action : Action) : InStep stream w action := by
  cases action with
  | packet => trivial
  | report lsrNow =>
    have hexpected : w.expected stream = w.period stream := by
      rw [World.expected, World.period, Nat.mod_eq_of_lt hreports, hstart]
    refine ⟨hstart, hnumber, ?_⟩
    rw [hexpected, Nat.mod_eq_of_lt hperiod, Nat.sub_self, Nat.zero_mod]

/-! ## The invariant -/

/-- The counters are where the stream is. -/
structure Tracks (w : World) : Prop where
  source : w.stats.ssrc = stream.ssrc ∧ w.stats.init = true
  base : w.stats.baseSeq.toNat = stream.first.toNat + stream.skipped
  started : 0 < w.packets ∧ stream.uncounted ≤ w.packets
  high : w.stats.highExtSeqRecv.toNat = stream.number (w.packets - 1)
  cycle : w.stats.cycle.toNat = stream.number (w.packets - 1) / 2 ^ 16
  reports : w.stats.rtcpRtpCount.toNat = w.reports % 2 ^ 32
  period : w.stats.periodPktCount.toNat = w.period stream % 2 ^ 16
  last : w.reports ≠ 0 → w.stats.lastRptExtSeq.toNat = stream.number (w.atReport - 1) ∧ 0 < w.atReport
  atReport : w.atReport ≤ w.packets
  lost : w.stats.cumLost.toNat % 2 ^ 24 = 0
  good : w.reports ≠ 0 → stream.uncounted = stream.skipped

variable {stream} {w : World}

theorem skipped_le (stream : Stream) : stream.skipped ≤ stream.uncounted ∧ stream.skipped ≤ 1 := by
  unfold Stream.skipped
  split <;> omega

/-! ## One packet -/

/-- The extended number is put together from the cycle and the number. -/
theorem toNat_extended (cycle seq : UInt16) :
    (cycle.toUInt32 <<< 16 ||| seq.toUInt32).toNat = cycle.toNat * 2 ^ 16 + seq.toNat := by
  have hcycle := cycle.toNat_lt
  have hseq := seq.toNat_lt
  rw [UInt32.toNat_or, UInt32.toNat_shiftLeft, UInt16.toNat_toUInt32, UInt16.toNat_toUInt32,
    show UInt32.toNat 16 % 32 = 16 from rfl, Nat.shiftLeft_eq,
      Nat.mod_eq_of_lt (by omega), Nat.mul_comm,
    Nat.two_pow_add_eq_or_of_lt hseq]

/-- The next number of the stream moves the highest number by one. -/
theorem advanceHigh_next {stats : Numbers} {n : Nat} (hhigh : stats.highExtSeqRecv.toNat = n)
    (hcycle : stats.cycle.toNat = n / 2 ^ 16) (hlt : n + 1 < 2 ^ 32) :
    (advanceHigh stats (UInt16.ofNat (n + 1)) stats.highExtSeqRecv.toUInt16).highExtSeqRecv.toNat
      = n + 1
      ∧ (advanceHigh stats (UInt16.ofNat (n + 1)) stats.highExtSeqRecv.toUInt16).cycle.toNat
        = (n + 1) / 2 ^ 16 := by
  have hseq : (UInt16.ofNat (n + 1)).toNat = (n + 1) % 2 ^ 16 := UInt16.toNat_ofNat'
  have hmax : stats.highExtSeqRecv.toUInt16.toNat = n % 2 ^ 16 := by
    rw [UInt32.toNat_toUInt16, hhigh]
  have hnext : (if UInt16.ofNat (n + 1) < stats.highExtSeqRecv.toUInt16 then
      stats.cycle + 1 else stats.cycle).toNat
      = (n + 1) / 2 ^ 16 := by
    split
    · next hwrap =>
      have hwrap := UInt16.lt_iff_toNat_lt.mp hwrap
      rw [UInt16.toNat_add, hcycle]
      show (n / 2 ^ 16 + 1) % 2 ^ 16 = _
      omega
    · next hwrap =>
      have hwrap := mt UInt16.lt_iff_toNat_lt.mpr hwrap
      omega
  refine ⟨?_, hnext⟩
  have hext :=
    toNat_extended (if UInt16.ofNat (n + 1) < stats.highExtSeqRecv.toUInt16 then stats.cycle + 1
    else stats.cycle) (UInt16.ofNat (n + 1))
  rw [hnext, hseq] at hext
  have hmore : stats.highExtSeqRecv
      < (if UInt16.ofNat (n + 1) < stats.highExtSeqRecv.toUInt16 then stats.cycle + 1
      else stats.cycle).toUInt32 <<< 16 ||| (UInt16.ofNat (n + 1)).toUInt32 := by
    rw [UInt32.lt_iff_toNat_lt, hext, hhigh]
    omega
  simp only [advanceHigh]
  rw [if_pos hmore, hext]
  omega

theorem countPacket_known {stats : Numbers} {hdr : Packet} (hssrc : stats.ssrc = hdr.ssrc)
    (hinit : stats.init = true) :
    countPacket stats hdr
      = { stats with periodPktCount := stats.periodPktCount + 1, pktCount := stats.pktCount + 1 } := by
  rw [countPacket, if_neg]
  rintro (h | h)
  · exact h hssrc.symm
  · rw [hinit] at h
    cases h

/-- A packet with the next number is counted. -/
theorem rtcpStats_next {stats : Numbers} {n : Nat} (hhigh : stats.highExtSeqRecv.toNat = n)
    (hssrc : stats.ssrc = stream.ssrc) (hinit : stats.init = true) :
    rtcpStats stream.flags stats ⟨stream.ssrc, UInt16.ofNat (n + 1)⟩ =
      let high := advanceHigh stats (UInt16.ofNat (n + 1)) stats.highExtSeqRecv.toUInt16
      { high with periodPktCount := stats.periodPktCount + 1, pktCount := stats.pktCount + 1 } := by
  have hdiff : UInt16.ofNat (n + 1) - stats.highExtSeqRecv.toUInt16 < maxDropout := by
    rw [UInt16.lt_iff_toNat_lt, UInt16.toNat_sub, UInt16.toNat_ofNat', UInt32.toNat_toUInt16, hhigh]
    show _ < 3000
    omega
  rw [rtcpStats, if_neg (by rw [stream.flags.property]; decide)]
  simp only
  rw [if_pos hdiff, countPacket_known (by exact hssrc) (by exact hinit)]
  rfl

theorem Tracks.mark_le (h : Tracks stream w) :
    (if w.reports = 0 then stream.uncounted else w.atReport) ≤ w.packets := by
  split
  · exact h.started.2
  · exact h.atReport

theorem Tracks.packet (h : Tracks stream w) (hlt : stream.number w.packets < 2 ^ 32) :
    Tracks stream (step stream w .packet) := by
  have hpos := h.started.1
  have hnumber : stream.number w.packets = stream.number (w.packets - 1) + 1 := by
    unfold Stream.number
    omega
  have hmark := h.mark_le
  obtain ⟨hhigh, hcycle⟩ := advanceHigh_next h.high h.cycle (by rw [← hnumber]; exact hlt)
  have hstats : (step stream w .packet).stats = _ :=
    (congrArg (fun n => rtcpStats stream.flags w.stats ⟨stream.ssrc, UInt16.ofNat n⟩) hnumber).trans
      (rtcpStats_next h.high h.source.1 h.source.2)
  have hperiod : (step stream w .packet).period stream = w.period stream + 1 := by
    show w.packets + 1 - (if w.reports = 0 then stream.uncounted else w.atReport) = w.period stream + 1
    rw [World.period]
    omega
  constructor
  case source => rw [hstats]; exact h.source
  case base => rw [hstats]; exact h.base
  case started => exact ⟨w.packets.succ_pos, h.started.2.trans w.packets.le_succ⟩
  case high => rw [hstats]; exact hhigh.trans hnumber.symm
  case cycle => rw [hstats]; exact hcycle.trans (by rw [← hnumber]; rfl)
  case reports => rw [hstats]; exact h.reports
  case period =>
    rw [hstats, hperiod]
    show (w.stats.periodPktCount + 1).toNat = _
    rw [UInt16.toNat_add, h.period]
    show (_ % 2 ^ 16 + 1) % 2 ^ 16 = _
    omega
  case last => rw [hstats]; exact h.last
  case atReport => exact h.atReport.trans w.packets.le_succ
  case lost => rw [hstats]; exact h.lost
  case good => exact h.good

/-! ## One report -/

theorem Tracks.expected (h : Tracks stream w) :
    (expectedPkt w.stats 0).toNat = w.expected stream % 2 ^ 32 := by
  have hstarted := h.started
  have hskipped := skipped_le stream
  have hfirst := stream.first.toNat_lt
  have hhigh : w.stats.highExtSeqRecv.toNat = stream.first.toNat + (w.packets - 1) := h.high
  have hword := w.stats.highExtSeqRecv.toNat_lt
  rw [expectedPkt, World.expected]
  by_cases hzero : w.reports % 2 ^ 32 = 0
  · have hcount : w.stats.rtcpRtpCount = 0 := UInt32.toNat.inj (h.reports.trans hzero)
    rw [if_pos hcount, if_pos hzero, UInt32.toNat_add, UInt32.toNat_sub, hhigh,
      UInt16.toNat_toUInt32, h.base]
    show (_ + 1) % 2 ^ 32 = _
    omega
  · have hcount : w.stats.rtcpRtpCount ≠ 0 := fun heq => hzero (h.reports.symm.trans (by rw [heq]; rfl))
    obtain ⟨hlast, hpos⟩ := h.last fun hnone => hzero (by rw [hnone, Nat.zero_mod])
    have hlast : w.stats.lastRptExtSeq.toNat = stream.first.toNat + (w.atReport - 1) := hlast
    have hat := h.atReport
    rw [if_neg hcount, if_neg hzero, UInt32.toNat_add, UInt32.toNat_sub, hhigh, hlast]
    show (_ + 0) % 2 ^ 32 = _
    omega

theorem Tracks.period_le (h : Tracks stream w) : w.period stream ≤ w.expected stream := by
  have hskipped := skipped_le stream
  rw [World.period, World.expected]
  by_cases hnone : w.reports = 0
  · rw [if_pos hnone, if_pos (by rw [hnone, Nat.zero_mod])]
    omega
  · have hpos := (h.last hnone).2
    rw [if_neg hnone]
    split <;> omega

/-- The packets a report takes for lost. -/
theorem Tracks.pktLost (h : Tracks stream w) :
    (expectedPkt w.stats 0 - w.stats.periodPktCount.toUInt32).toNat
      = (w.expected stream - w.period stream % 2 ^ 16) % 2 ^ 32 := by
  have hle := h.period_le
  rw [UInt32.toNat_sub, h.expected, UInt16.toNat_toUInt32, h.period]
  omega

/-- A loss that is a multiple of 2^24 does not show in the fraction. -/
theorem fractionLost_eq_zero {expected lost : UInt32} (h : lost.toNat % 2 ^ 24 = 0) :
    fractionLost expected lost = 0 := by
  have hmul : lost * 256 = 0 := by
    apply UInt32.toNat.inj
    rw [UInt32.toNat_mul]
    show lost.toNat * 256 % 2 ^ 32 = 0
    omega
  rw [fractionLost, hmul, UInt32.zero_div]
  split <;> rfl

/-- The block is right exactly if the loss is a multiple of 2^24. -/
theorem Tracks.clean_iff_lost (h : Tracks stream w) (lsrNow : UInt32) :
    Clean (stream.number (w.packets - 1)) (sendReport w.stats lsrNow).1
      ↔ (w.expected stream - w.period stream % 2 ^ 16) % 2 ^ 24 = 0 := by
  have hlost := h.pktLost
  have hcum := h.lost
  have hsum : (sendReport w.stats lsrNow).1.lost = 0
      ↔ (w.expected stream - w.period stream % 2 ^ 16) % 2 ^ 24 = 0 := by
    show htonl (w.stats.cumLost + (expectedPkt w.stats 0 - w.stats.periodPktCount.toUInt32)) >>> 8 = 0
      ↔ _
    rw [htonl_shiftRight_eq_zero_iff, UInt32.toNat_add, hlost]
    omega
  constructor
  · exact fun hclean => hsum.mp hclean.lost
  · intro hmod
    constructor
    · exact fractionLost_eq_zero (by rw [hlost]; omega)
    · exact hsum.mpr hmod
    · show (htonl (htonl w.stats.highExtSeqRecv)).toNat = _
      rw [htonl_htonl, h.high]

/-- A stream that begins with a jump has one packet too many before its first report. -/
theorem Tracks.good_of_clean (h : Tracks stream w)
    (hlost : (w.expected stream - w.period stream % 2 ^ 16) % 2 ^ 24 = 0) :
    stream.uncounted = stream.skipped := by
  by_contra hbad
  have hnone : w.reports = 0 := by
    by_contra hsome
    exact hbad (h.good hsome)
  have hstarted := h.started.2
  have hdiff : stream.uncounted = 2 ∧ stream.skipped = 1 := by
    unfold Stream.skipped Stream.uncounted at hbad ⊢
    split_ifs at hbad ⊢ <;> simp_all
  rw [World.expected, World.period, hnone, if_pos rfl, if_pos (Nat.zero_mod _), hdiff.1,
    hdiff.2] at hlost
  omega

theorem Tracks.report (h : Tracks stream w) (lsrNow : UInt32)
    (hlost : (w.expected stream - w.period stream % 2 ^ 16) % 2 ^ 24 = 0) :
    Tracks stream (step stream w (.report lsrNow)) := by
  have hpktLost := h.pktLost
  have hcum := h.lost
  constructor
  case source => exact h.source
  case base => exact h.base
  case started => exact h.started
  case high => exact h.high
  case cycle => exact h.cycle
  case reports =>
    show (w.stats.rtcpRtpCount + 1).toNat = (w.reports + 1) % 2 ^ 32
    rw [UInt32.toNat_add, h.reports]
    show (_ % 2 ^ 32 + 1) % 2 ^ 32 = _
    omega
  case period =>
    show 0 = (w.packets - (if w.reports + 1 = 0 then stream.uncounted else w.packets)) % 2 ^ 16
    rw [if_neg (Nat.succ_ne_zero _), Nat.sub_self, Nat.zero_mod]
  case last => exact fun _ => ⟨h.high, h.started.1⟩
  case atReport => exact le_refl w.packets
  case lost =>
    show (w.stats.cumLost + (expectedPkt w.stats 0 - w.stats.periodPktCount.toUInt32)).toNat % 2 ^ 24
      = 0
    rw [UInt32.toNat_add, hpktLost]
    omega
  case good => exact fun _ => h.good_of_clean hlost

/-! ## The first packets -/

/-- The packet becomes the base, with what is counted of it. -/
theorem tracks_init {old : Numbers} {packets : Nat} {period pktCount : UInt16}
    (hskipped : stream.skipped + 1 = packets) (hperiod : period.toNat + stream.uncounted = packets)
    (hsmall : stream.number stream.skipped < 2 ^ 16) : Tracks stream
      ⟨{ rtcpStatsInit old ⟨stream.ssrc, UInt16.ofNat (stream.number stream.skipped)⟩ with
          periodPktCount := period, pktCount }, packets, 0, 0⟩ := by
  have hlast : packets - 1 = stream.skipped := by omega
  have hseq : (UInt16.ofNat (stream.number stream.skipped)).toNat = stream.number stream.skipped := by
    rw [UInt16.toNat_ofNat', Nat.mod_eq_of_lt hsmall]
  have hbound := period.toNat_lt
  constructor
  case source => exact ⟨rfl, rfl⟩
  case base => exact hseq
  case started => exact ⟨by show 0 < packets; omega, by show stream.uncounted ≤ packets; omega⟩
  case high =>
    show (UInt16.ofNat (stream.number stream.skipped)).toUInt32.toNat = stream.number (packets - 1)
    rw [UInt16.toNat_toUInt32, hseq, hlast]
  case cycle =>
    show 0 = stream.number (packets - 1) / 2 ^ 16
    rw [hlast]
    omega
  case reports => rfl
  case period =>
    show period.toNat = (packets - stream.uncounted) % 2 ^ 16
    omega
  case last => exact fun h => absurd rfl h
  case atReport => exact Nat.zero_le packets
  case lost => rfl
  case good => exact fun h => absurd rfl h

/-- What a packet does to counters that are not in use: taken as the first, as a jump, or as a late
one. -/
theorem rtcpStats_unused {stats : Numbers} {hdr : Packet} (hhigh : stats.highExtSeqRecv = 0)
    (hinit : stats.init = false) :
    rtcpStats stream.flags stats hdr =
      if hdr.seq.toNat < 3000 ∨ 65437 ≤ hdr.seq.toNat then
        { rtcpStatsInit stats hdr with periodPktCount := 1, pktCount := 1 }
      else if hdr.seq.toUInt32 = stats.badSeq then rtcpStatsInit stats hdr
      else { stats with badSeq := (hdr.seq + 1).toUInt32 } := by
  have hcount : ∀ stats' : Numbers, stats'.init = false → countPacket stats' hdr
      = { rtcpStatsInit stats' hdr with periodPktCount := 1, pktCount := 1 } := by
    intro stats' hinit'
    rw [countPacket, if_pos (Or.inr hinit')]
    rfl
  have hdiff : hdr.seq - stats.highExtSeqRecv.toUInt16 = hdr.seq := by
    rw [hhigh]
    exact UInt16.sub_zero hdr.seq
  rw [rtcpStats, if_neg (by rw [stream.flags.property]; decide)]
  simp only
  rw [hdiff]
  have hdropout : hdr.seq < maxDropout ↔ hdr.seq.toNat < 3000 := UInt16.lt_iff_toNat_lt
  have hjump : hdr.seq ≤ maxJump ↔ hdr.seq.toNat ≤ 65436 := UInt16.le_iff_toNat_le
  by_cases hsmall : hdr.seq.toNat < 3000
  · rw [if_pos (hdropout.mpr hsmall), if_pos (Or.inl hsmall), hcount _ (by exact hinit)]
    rfl
  · rw [if_neg (mt hdropout.mp hsmall)]
    by_cases hlarge : 65437 ≤ hdr.seq.toNat
    · rw [if_neg (mt hjump.mp (by omega)), if_pos (Or.inr hlarge), hcount _ hinit]
    · have hneither : ¬ (hdr.seq.toNat < 3000 ∨ 65437 ≤ hdr.seq.toNat) := by omega
      rw [if_pos (hjump.mpr (by omega)), if_neg hneither]

/-- The counters are in use after two packets. -/
theorem tracks_two (stream : Stream) :
    Tracks stream (step stream (step stream fresh .packet) .packet) := by
  have hfirst := stream.first.toNat_lt
  have hseq : UInt16.ofNat (stream.number 0) = stream.first := UInt16.ofNat_toNat
  have hone := @rtcpStats_unused stream .fresh ⟨stream.ssrc, stream.first⟩ rfl rfl
  have hstart : step stream fresh .packet
      = ⟨rtcpStats stream.flags .fresh ⟨stream.ssrc, stream.first⟩, 1, 0, 0⟩ := by
    rw [← hseq]
    rfl
  rw [hstart]
  by_cases hcounted : stream.first.toNat < 3000 ∨ 65437 ≤ stream.first.toNat
  · -- the first packet is counted
    have huncounted : stream.uncounted = 0 := if_pos hcounted
    have hskipped : stream.skipped = 0 := if_pos huncounted
    rw [hone, if_pos hcounted]
    have htracks := @tracks_init stream .fresh 1 1 1 (by omega) (by rw [huncounted]; rfl)
      (by rw [hskipped]; exact hfirst)
    rw [hskipped, hseq] at htracks
    refine htracks.packet ?_
    show stream.first.toNat + 1 < 2 ^ 32
    omega
  · -- it is taken for a jump, and the second one is the base
    have hnot := not_or.mp hcounted
    have huncounted : stream.uncounted = if stream.first.toNat = 65436 then 1 else 2 := if_neg hcounted
    have hskipped : stream.skipped = 1 := by
      rw [Stream.skipped, huncounted]
      split <;> rfl
    have hsmall : stream.number 1 < 2 ^ 16 := by
      show stream.first.toNat + 1 < 2 ^ 16
      omega
    have hnext : (UInt16.ofNat (stream.number 1)).toNat = stream.number 1 := by
      rw [UInt16.toNat_ofNat', Nat.mod_eq_of_lt hsmall]
    have hbad : UInt16.ofNat (stream.number 1) = stream.first + 1 := by
      apply UInt16.toNat.inj
      rw [hnext, UInt16.toNat_add]
      show stream.first.toNat + 1 = (stream.first.toNat + 1) % 2 ^ 16
      omega
    have hne : stream.first.toUInt32 ≠ Numbers.fresh.badSeq := by
      intro heq
      have hzero := congrArg UInt32.toNat heq
      rw [UInt16.toNat_toUInt32] at hzero
      exact absurd hzero (by show stream.first.toNat ≠ 0; omega)
    rw [hone, if_neg hcounted, if_neg hne]
    have htwo := @rtcpStats_unused stream { Numbers.fresh with badSeq := (stream.first + 1).toUInt32 }
      ⟨stream.ssrc, UInt16.ofNat (stream.number 1)⟩ rfl rfl
    by_cases hlate : stream.first.toNat = 65436
    · rw [if_pos (Or.inr (by rw [hnext]; show 65437 ≤ stream.first.toNat + 1; omega))] at htwo
      have htracks :=
        @tracks_init stream { Numbers.fresh with badSeq := (stream.first + 1).toUInt32 } 2 1 1
        (by omega) (by rw [huncounted, if_pos hlate]; rfl) (by rw [hskipped]; exact hsmall)
      rw [hskipped, ← htwo] at htracks
      exact htracks
    · rw [if_neg
        (by rw [hnext]; show ¬ (stream.first.toNat + 1 < 3000 ∨ 65437 ≤ stream.first.toNat + 1); omega),
        if_pos (by rw [hbad])] at htwo
      have htracks :=
        @tracks_init stream { Numbers.fresh with badSeq := (stream.first + 1).toUInt32 } 2 0 0
        (by omega) (by rw [huncounted, if_neg hlate]; rfl) (by rw [hskipped]; exact hsmall)
      rw [hskipped] at htracks
      have heq : step stream
          ⟨{ Numbers.fresh with badSeq := (stream.first + 1).toUInt32 }, 1, 0, 0⟩ .packet = _ :=
        congrArg (fun stats => (⟨stats, 2, 0, 0⟩ : World)) htwo
      rw [heq]
      exact htracks

/-! ## The whole run -/

/-- The counters are where the stream is, or its number does not fit a word any more. -/
def Followed (stream : Stream) (w : World) : Prop :=
  2 ^ 32 ≤ stream.number (w.packets - 1) ∨ Tracks stream w

theorem Followed.packet (h : Followed stream w) : Followed stream (step stream w .packet) := by
  rcases h with hbig | htracks
  · left
    show 2 ^ 32 ≤ stream.first.toNat + (w.packets + 1 - 1)
    have hbig : 2 ^ 32 ≤ stream.first.toNat + (w.packets - 1) := hbig
    omega
  · by_cases hlt : stream.number w.packets < 2 ^ 32
    · exact Or.inr (htracks.packet hlt)
    · exact Or.inl (not_lt.mp hlt)

theorem Followed.clean_iff (h : Followed stream w) (action : Action) :
    ReportsClean stream w action ↔ InStep stream w action := by
  cases action with
  | packet => exact Iff.rfl
  | report lsrNow =>
    rcases h with hbig | htracks
    · -- the block has a word for the number
      constructor
      · intro hclean
        have hword := (ntohl (sendReport w.stats lsrNow).1.highestSequenceNumberReceived).toNat_lt
        have hlast : _ = stream.number (w.packets - 1) := hclean.highest
        omega
      · intro hstep
        exact absurd hstep.2.1 (not_lt.mpr hbig)
    · have hlt : stream.number (w.packets - 1) < 2 ^ 32 :=
        htracks.high ▸ w.stats.highExtSeqRecv.toNat_lt
      have hiff := htracks.clean_iff_lost lsrNow
      exact ⟨fun hclean => ⟨htracks.good_of_clean (hiff.mp hclean), hlt, hiff.mp hclean⟩,
        fun hstep => hiff.mpr hstep.2.2⟩

theorem Followed.step (h : Followed stream w) {action : Action} (hstep : InStep stream w action) :
    Followed stream (step stream w action) := by
  cases action with
  | packet => exact h.packet
  | report lsrNow =>
    rcases h with hbig | htracks
    · exact Or.inl hbig
    · exact Or.inr (htracks.report lsrNow hstep.2.2)

/-- Every report of a run is right exactly if every report is made with the counters in step. -/
theorem rtcp_reports_clean_iff (stream : Stream) (actions : List Action) :
    (∀ done action rest, actions = done ++ action :: rest →
        ReportsClean stream (run stream done) action)
      ↔ ∀ done action rest, actions = done ++ action :: rest → InStep stream (run stream done) action :=
  prefixes_exact (fun _ action hw => hw.clean_iff action) (fun _ _ hw hok => hw.step hok) actions _
    (Followed.packet (Or.inr (tracks_two stream)))

/-- A stream that begins at 3000, on a session with RTCP. -/
def jumpingStream : Stream := ⟨⟨⟨true, true, false, 5000⟩, rfl⟩, 1, 3000⟩

/-- The first report about it, after three packets, says that one of two packets is lost. -/
theorem rtcp_first_report_lost : ¬ ReportsClean jumpingStream (run jumpingStream []) (.report 0) := by
  intro hclean
  have hhalf : (sendReport (run jumpingStream []).stats 0).1.fraction = 128 := by decide
  exact absurd (hhalf.symm.trans hclean.fraction) (by decide)

end FreeSwitch.Rtcp
