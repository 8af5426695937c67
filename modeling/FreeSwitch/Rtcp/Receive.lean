import FreeSwitch.Lib.Bounded

/-!
# RTCP datagrams received — `src/switch_rtp.c`

`process_rtcp_packet` walks over the sub-packets of a datagram of `n` bytes and hands each one to
`process_rtcp_report`. The walk clamps the length of a sub-packet to the bytes that remain, but the
report is not told: how many NACK words and report blocks it reads is up to the header. Every access
to the datagram is a checked one; the datagram is not changed.

The averages of loss and round trip time, and what the codec is told about them, are left out: they
are made of the values read here and touch nothing of the datagram.

* **`processRtcpReport_inside`** — the accesses for one sub-packet stay inside exactly if it has the
  bytes its header asks for, `Header.need`.
* **`processRtcpPacket_isSome`** — the walk ends.
* **`SubPacketsFit`** — each sub-packet has these bytes, from one header of the datagram to the next.
* **`rtcp_reads_inside_iff`** — the datagram is kept to exactly if that is so.
* **`rtcp_short_sender_report`** — a sender report of 12 bytes of which byte 23 is read.
-/

namespace FreeSwitch.Rtcp

open Bytes Bounded

/-! ## What is received -/

/-- `switch_rtcp_hdr_t`; the ext header has `fmt` in the place of `count`. -/
structure Header where
  version : Nat
  count : Nat
  type : Nat
  /-- In host order: words after the first. -/
  length : Nat

/-- `struct switch_rtcp_report_block`, in host order. -/
structure ReportBlock where
  ssrc : UInt32
  fraction : UInt8
  lost : UInt32
  highestSequenceNumberReceived : UInt32
  jitter : UInt32
  lsr : UInt32
  dlsr : UInt32

/-- `ssrc` and `sender_info`, in host order. -/
structure SenderReport where
  ssrc : UInt32
  ntpMsw : UInt32
  ntpLsw : UInt32
  ts : UInt32
  pc : UInt32
  oc : UInt32

/-- `rtcp_frame`. -/
structure Frame where
  reportCount : Nat
  packetType : UInt8
  sender : SenderReport
  /-- `MAX_REPORT_BLOCKS` entries. -/
  reports : List ReportBlock

/-- What the parser reads and writes of `switch_rtp_t`. -/
structure Session where
  video : Bool
  /-- `SWITCH_RTP_FLAG_NACK` is set and there is a `vbw`. -/
  nackEnabled : Bool
  /-- The media flow is `SWITCH_MEDIA_FLOW_RECVONLY`. -/
  recvOnly : Bool
  frame : Frame
  freshFrame : Bool
  packetCount : UInt32
  octetCount : UInt32
  peerSsrc : UInt32
  lastRecvLsrPeer : UInt32
  lastRecvLsrLocal : UInt32
  /-- Key frames asked for. -/
  keyFrames : Nat
  /-- The sequence numbers, in host order, that were to be sent again. -/
  resend : List UInt16

inductive Status where
  | success
  | false
  | «break»
  deriving DecidableEq

/-- `MAX_REPORT_BLOCKS`. -/
def maxReportBlocks : Nat := 5

/-- `sizeof(rtcp_msg_t)`. -/
def rtcpMsgSize : Nat := 4 + 16384

/-! ## One sub-packet -/

section Report

variable (n : Nat) (m : Mem)

/-- The word of a sub-packet's header, taken apart. -/
def headerAt (o : Nat) : Header :=
  ⟨(m o).toNat / 64, (m o).toNat % 32, (m (o + 1)).toNat, (ntohs (m.load16 (o + 2))).toNat⟩

def readHeader (o : Nat) : Except Nat Header := do
  touch n o 4
  return headerAt m o

/-- `ntohl` of the word at `a`. -/
def readWord (a : Nat) : Except Nat UInt32 := do
  return ntohl (← load32 n m a)

/-- The 24 bits behind `fraction`, sign-extended as a bit-field is, then `ntohl(report->lost) >> 8`
with the sign put back. -/
def lostOf (word : UInt32) : UInt32 :=
  let field := word >>> 8
  let lost := ntohl (if field &&& 0x800000 ≠ 0 then field ||| 0xff000000 else field) >>> 8
  lost ||| (if lost &&& 0x00800000 ≠ 0 then 0xff000000 else 0)

def readReportBlock (a : Nat) : Except Nat ReportBlock := do
  let word ← load32 n m (a + 4)
  let ssrc ← readWord n m a
  let highest ← readWord n m (a + 8)
  let jitter ← readWord n m (a + 12)
  let lsr ← readWord n m (a + 16)
  let dlsr ← readWord n m (a + 20)
  return ⟨ssrc, word.toUInt8, lostOf word, highest, jitter, lsr, dlsr⟩

def readSenderReport (a : Nat) : Except Nat SenderReport := do
  let pc ← readWord n m (a + 16)
  let oc ← readWord n m (a + 20)
  let ssrc ← readWord n m a
  let ntpLsw ← readWord n m (a + 8)
  let ntpMsw ← readWord n m (a + 4)
  let ts ← readWord n m (a + 12)
  return ⟨ssrc, ntpMsw, ntpLsw, ts, pc, oc⟩

/-- The middle 32 bits of the NTP timestamp. -/
def lsrOf (sr : SenderReport) : UInt32 :=
  (sr.ntpLsw &&& 0xffff0000) >>> 16 ||| (sr.ntpMsw &&& 0x0000ffff) <<< 16

/-- The packet asked for, and those the bits behind it stand for. -/
def handleNack (s : Session) (nack : UInt32) : Session :=
  if s.nackEnabled then
    let seq := ntohs nack.toUInt16
    let blp := ntohs (nack >>> 16).toUInt16
    let others := (List.range 16).filter fun i => blp.toNat.testBit i
    { s with resend := s.resend ++ seq :: others.map fun i => seq + UInt16.ofNat i + 1 }
  else s

/-- A video session handles these apart. -/
def Header.isFeedback (h : Header) : Bool := h.type = 205 || h.type = 206 || h.type < 200

/-- `_RTCP_PT_FIR`, or `_RTCP_PT_PSFB` with the format `FIR` or `PLI`. -/
def Header.isKeyFrameRequest (h : Header) : Bool :=
  h.type = 192 || (h.type = 206 && (h.count = 4 || h.count = 1))

def Header.isNack (h : Header) : Bool := h.type = 205 && h.count = 1

/-- A video session's own sub-packets at `o`. -/
def processFeedback (s : Session) (o : Nat) (h : Header) : Except Nat Session := do
  let s := if h.isKeyFrameRequest && !s.recvOnly then { s with keyFrames := s.keyFrames + 1 } else s
  if h.isNack then
    let nacks ← (List.range (h.length - 2)).mapM fun i => load32 n m (o + 12 + 4 * i)
    return nacks.foldl handleNack s
  else return s

/-- The report blocks of a sender or receiver report. -/
def readReports (a : Nat) (h : Header) : Except Nat (List ReportBlock) :=
  (List.range (min h.count maxReportBlocks)).mapM fun i => readReportBlock n m (a + 24 * i)

def Session.report (s : Session) (ssrc : UInt32) (blocks : List ReportBlock) : Session :=
  { s with
    frame := { s.frame with
      reports := blocks ++ s.frame.reports.drop blocks.length
      reportCount := blocks.length }
    freshFrame := true
    peerSsrc := ssrc }

/-- `lsrNow` is what `calc_local_lsr_now` returns. -/
def processSenderReport (s : Session) (lsrNow : UInt32) (o : Nat) (h : Header) : Except Nat Session :=
  do
  let sr ← readSenderReport n m (o + 4)
  -- the type is that of the datagram's first sub-packet
  let packetType ← load8 n m 1
  let blocks ← readReports n m (o + 28) h
  let s :=
    { s with
      packetCount := s.packetCount + sr.pc
      octetCount := s.octetCount + sr.oc
      lastRecvLsrPeer := htonl (lsrOf sr)
      lastRecvLsrLocal := lsrNow
      frame := { s.frame with packetType, sender := sr } }
  return s.report sr.ssrc blocks

def processReceiverReport (s : Session) (o : Nat) (h : Header) : Except Nat Session := do
  let ssrc ← readWord n m (o + 4)
  let blocks ← readReports n m (o + 8) h
  return s.report ssrc blocks

/-- The branches of `process_rtcp_report` over the type. -/
def processType (s : Session) (lsrNow : UInt32) (o : Nat) (h : Header) : Except Nat Session :=
  if s.video && h.isFeedback then processFeedback n m s o h
  else if h.type = 200 then processSenderReport n m s lsrNow o h
  else if h.type = 201 then processReceiverReport n m s o h
  else .ok s

/-- `process_rtcp_report`. -/
def processRtcpReport (s : Session) (lsrNow : UInt32) (o : Nat) : Except Nat (Status × Session) := do
  let h ← readHeader n m o
  let s ← processType n m s lsrNow o h
  return (if h.type > 194 ∧ h.type < 255 then .success else .false, s)

end Report

/-! ## The datagram -/

/-- The loop's variables; `msg` is the offset of the sub-packet. -/
structure Walk where
  msg : Nat
  remain : Nat
  session : Session

/-- The sub-packets the walk takes. -/
def Header.isValid (h : Header) : Bool := h.version = 2 && (h.type > 191 && h.type < 210)

/-- The loop's body. -/
def processSubPacket (n : Nat) (m : Mem) (lsrNow : Nat → UInt32) (w : Walk) :
    Except Nat (Walk ⊕ (Status × Session)) := do
  let h ← readHeader n m w.msg
  if !h.isValid then return .inr (.break, w.session)
  let len := min (h.length * 4 + 4) w.remain
  let (status, session) ← processRtcpReport n m w.session (lsrNow w.msg) w.msg
  let msg := if w.remain > len then w.msg + len else w.msg
  let remain := w.remain - len
  if remain ≥ 4 then return .inl ⟨msg, remain, session⟩ else return .inr (status, session)

/-- Up to the loop. What `handle_ice` does with a datagram of version 0 is not part of this. -/
def beginPacket (n : Nat) (m : Mem) (s : Session) : Except Nat (Walk ⊕ (Status × Session)) := do
  if n < 12 ∨ n > rtcpMsgSize then return .inr (.false, s)
  let h ← readHeader n m 0
  if h.version = 2 then return .inl ⟨0, n, s⟩
  else if h.version = 0 then return .inr (.success, s)
  else return .inr (.false, s)

/-- `none` would be a walk that does not end. -/
def processRtcpPacket (n : Nat) (m : Mem) (lsrNow : Nat → UInt32) (s : Session) :
    Option (Except Nat (Status × Session)) :=
  walk (beginPacket n m s) (processSubPacket n m lsrNow) (n + 1)

/-! ## Where the accesses stay -/

/-- The bytes a sub-packet with the header is read for. -/
def Header.need (h : Header) (video : Bool) : Nat :=
  if video && h.isFeedback then if h.isNack && 2 < h.length then 4 + 4 * h.length else 4
  else if h.type = 200 then 28 + 24 * min h.count maxReportBlocks
  else if h.type = 201 then 8 + 24 * min h.count maxReportBlocks
  else 4

/-- From `o` on, each sub-packet that is taken has the bytes its header asks for in the datagram of
`n` bytes. The next one begins behind the words that the header counts, if there are four bytes left. -/
def SubPacketsFit (n : Nat) (m : Mem) (video : Bool) (o : Nat) : Prop :=
  let h := headerAt m o
  h.isValid = true → o + h.need video ≤ n
    ∧ (o + (4 * h.length + 4) + 4 ≤ n → SubPacketsFit n m video (o + (4 * h.length + 4)))
termination_by n - o
decreasing_by omega

section Inside

variable {n : Nat} {m : Mem}

@[simp]
theorem readWord_eq_ok_iff {a : Nat} {v : UInt32} :
    readWord n m a = .ok v ↔ a + 4 ≤ n ∧ ntohl (m.load32 a) = v := by
  rw [readWord, bind_eq_ok_iff]
  constructor
  · rintro ⟨word, hword, heq⟩
    obtain ⟨hle, rfl⟩ := load32_eq_ok_iff.mp hword
    cases heq
    exact ⟨hle, rfl⟩
  · rintro ⟨hle, rfl⟩
    exact ⟨m.load32 a, load32_eq_ok_iff.mpr ⟨hle, rfl⟩, rfl⟩

theorem readReportBlock_inside {a : Nat} : Inside (readReportBlock n m a) ↔ a + 24 ≤ n := by
  simp only [readReportBlock, inside_bind_iff, readWord_eq_ok_iff, load32_eq_ok_iff, inside_pure,
    and_true, and_assoc,
    exists_and_left, exists_eq_left', exists_eq']
  omega

theorem readSenderReport_inside {a : Nat} : Inside (readSenderReport n m a) ↔ a + 24 ≤ n := by
  simp only [readSenderReport, inside_bind_iff, readWord_eq_ok_iff, inside_pure, and_true, and_assoc,
    exists_and_left,
    exists_eq_left', exists_eq']
  omega

/-- Blocks of `size` bytes from `a` on. -/
theorem inside_blocks_iff {β : Type} {read : Nat → Except Nat β} {size : Nat}
    (hread : ∀ a, Inside (read a) ↔ a + size ≤ n) (a k : Nat) :
    Inside ((List.range k).mapM fun i => read (a + size * i)) ↔ (0 < k → a + size * k ≤ n) := by
  rw [inside_mapM_iff]
  constructor
  · intro hall hpos
    obtain ⟨k, rfl⟩ := Nat.exists_eq_add_of_lt hpos
    have hlast := (hread _).mp (hall k (List.mem_range.mpr (by omega)))
    rw [Nat.zero_add, Nat.mul_succ]
    omega
  · intro hle i hi
    have hblock : size * (i + 1) ≤ size * k := Nat.mul_le_mul_left size (List.mem_range.mp hi)
    have hle := hle (Nat.zero_lt_of_lt (List.mem_range.mp hi))
    rw [Nat.mul_succ] at hblock
    exact (hread _).mpr (by omega)

theorem readHeader_of_le {o : Nat} (h : o + 4 ≤ n) : readHeader n m o = .ok (headerAt m o) := by
  rw [readHeader, touch_eq_ok_iff.mpr h]
  rfl

theorem processFeedback_inside {s : Session} {o : Nat} {h : Header} :
    Inside (processFeedback n m s o h)
      ↔ (h.isNack = true → 2 < h.length → o + (4 + 4 * h.length) ≤ n) := by
  unfold processFeedback
  by_cases hnack : h.isNack = true
  · have hread : ∀ a, Inside (load32 n m a) ↔ a + 4 ≤ n := fun a => by simp [Inside]
    rw [if_pos hnack, inside_bind_of_inside fun _ => inside_pure _, inside_blocks_iff hread]
    simp only [hnack, true_imp_iff]
    omega
  · rw [if_neg hnack]
    exact iff_of_true (inside_pure _) fun h => absurd h hnack

theorem readReports_inside {a : Nat} {h : Header} :
    Inside (readReports n m a h)
      ↔ (0 < min h.count maxReportBlocks → a + 24 * min h.count maxReportBlocks ≤ n) :=
  inside_blocks_iff (fun _ => readReportBlock_inside) a _

theorem processSenderReport_inside {s : Session} {lsrNow : UInt32} {o : Nat} {h : Header} :
    Inside (processSenderReport n m s lsrNow o h)
      ↔ o + (28 + 24 * min h.count maxReportBlocks) ≤ n := by
  have hblocks := @readReports_inside n m (o + 28) h
  rw [processSenderReport, inside_bind_iff]
  constructor
  · rintro ⟨sr, hsr, hrest⟩
    have hinfo := readSenderReport_inside.mp ⟨sr, hsr⟩
    obtain ⟨packetType, -, hrest⟩ := inside_bind_iff.mp hrest
    have hreports := hblocks.mp ((inside_bind_of_inside fun _ => inside_pure _).mp hrest)
    omega
  · intro hle
    obtain ⟨sr, hsr⟩ := (@readSenderReport_inside n m (o + 4)).mpr (by omega)
    refine ⟨sr, hsr, inside_bind_iff.mpr ⟨m 1, load8_eq_ok_iff.mpr ⟨by omega, rfl⟩, ?_⟩⟩
    rw [inside_bind_of_inside fun _ => inside_pure _]
    exact hblocks.mpr fun _ => by omega

theorem processReceiverReport_inside {s : Session} {o : Nat} {h : Header} :
    Inside (processReceiverReport n m s o h) ↔ o + (8 + 24 * min h.count maxReportBlocks) ≤ n := by
  have hblocks := @readReports_inside n m (o + 8) h
  rw [processReceiverReport, inside_bind_iff]
  constructor
  · rintro ⟨ssrc, hssrc, hrest⟩
    have hword := (readWord_eq_ok_iff.mp hssrc).1
    have hreports := hblocks.mp ((inside_bind_of_inside fun _ => inside_pure _).mp hrest)
    omega
  · intro hle
    refine ⟨ntohl (m.load32 (o + 4)), readWord_eq_ok_iff.mpr ⟨by omega, rfl⟩, ?_⟩
    rw [inside_bind_of_inside fun _ => inside_pure _]
    exact hblocks.mpr fun _ => by omega

/-- A report reads what its header asks for, and nothing else. -/
theorem processRtcpReport_inside {s : Session} {lsrNow : UInt32} {o remain : Nat}
    (hcovers : o + remain = n) (hremain : 4 ≤ remain) :
    Inside (processRtcpReport n m s lsrNow o) ↔ (headerAt m o).need s.video ≤ remain := by
  rw [processRtcpReport, readHeader_of_le (by omega), ok_bind,
    inside_bind_of_inside fun _ => inside_pure _]
  generalize headerAt m o = h
  unfold processType Header.need
  split
  · rw [processFeedback_inside]
    split
    · next hnack =>
      simp only [Bool.and_eq_true, decide_eq_true_eq] at hnack
      simp only [hnack, true_imp_iff]
      omega
    · next hnack =>
      simp only [Bool.and_eq_true, decide_eq_true_eq] at hnack
      exact iff_of_true (fun h h' => absurd ⟨h, h'⟩ hnack) hremain
  · split
    · rw [processSenderReport_inside]
      omega
    · split
      · rw [processReceiverReport_inside]
        omega
      · exact iff_of_true (inside_ok s) hremain

end Inside

/-! ## The walk -/

/-- The sub-packet and the bytes that remain make up the datagram. -/
structure Walk.Inside (n : Nat) (w : Walk) : Prop where
  covers : w.msg + w.remain = n
  header : 4 ≤ w.remain

section Walk

variable {n : Nat} {m : Mem} {lsrNow : Nat → UInt32} {w w' : Walk}

theorem processRtcpReport_video {s s' : Session} {now : UInt32} {o : Nat} {status : Status}
    (h : processRtcpReport n m s now o = .ok (status, s')) : s'.video = s.video := by
  obtain ⟨hdr, -, h⟩ := bind_eq_ok_iff.mp h
  obtain ⟨s₁, hs₁, h⟩ := bind_eq_ok_iff.mp h
  cases h
  unfold processType at hs₁
  split at hs₁
  · -- a request for key frames counts them, and the NACK words are put in the list
    have hnacks : ∀ (nacks : List UInt32) (t : Session),
        (nacks.foldl handleNack t).video = t.video := by
      intro nacks
      induction nacks with
      | nil => intro t; rfl
      | cons nack nacks ih =>
        intro t
        rw [List.foldl_cons, ih, handleNack]
        split <;> rfl
    unfold processFeedback at hs₁
    simp only at hs₁
    split at hs₁
    · obtain ⟨nacks, -, hs₁⟩ := bind_eq_ok_iff.mp hs₁
      cases hs₁
      rw [hnacks]
      split <;> rfl
    · cases hs₁
      split <;> rfl
  · split at hs₁
    · obtain ⟨sr, -, hs₁⟩ := bind_eq_ok_iff.mp hs₁
      obtain ⟨packetType, -, hs₁⟩ := bind_eq_ok_iff.mp hs₁
      obtain ⟨blocks, -, hs₁⟩ := bind_eq_ok_iff.mp hs₁
      cases hs₁
      rfl
    · split at hs₁
      · obtain ⟨ssrc, -, hs₁⟩ := bind_eq_ok_iff.mp hs₁
        obtain ⟨blocks, -, hs₁⟩ := bind_eq_ok_iff.mp hs₁
        cases hs₁
        rfl
      · cases hs₁
        rfl

/-- A sub-packet that is taken, with what the report comes to. -/
theorem processSubPacket_eq (hin : w.Inside n) (hvalid : (headerAt m w.msg).isValid = true) :
    processSubPacket n m lsrNow w = processRtcpReport n m w.session (lsrNow w.msg) w.msg >>= fun r =>
      let len := 4 * (headerAt m w.msg).length + 4
      if len + 4 ≤ w.remain then .ok (.inl ⟨w.msg + len, w.remain - len, r.2⟩) else .ok (.inr r) := by
  have hcovers := hin.covers
  have hheader := hin.header
  rw [processSubPacket, readHeader_of_le (by omega), ok_bind, if_neg (by simp [hvalid])]
  refine congrArg (Bind.bind _) (funext fun r => ?_)
  generalize (headerAt m w.msg).length = length
  by_cases hroom : 4 * length + 4 + 4 ≤ w.remain
  · have hlen : min (length * 4 + 4) w.remain = 4 * length + 4 := by omega
    simp only [hlen]
    rw [if_pos (by omega), if_pos (by omega), if_pos hroom]
    rfl
  · simp only
    rw [if_neg (by omega), if_neg hroom]
    rfl

theorem processSubPacket_invalid (hin : w.Inside n) (hvalid : ¬ (headerAt m w.msg).isValid = true) :
    processSubPacket n m lsrNow w = .ok (.inr (.break, w.session)) := by
  have hcovers := hin.covers
  have hheader := hin.header
  rw [processSubPacket, readHeader_of_le (by omega), ok_bind, if_pos (by simp [hvalid])]
  rfl

/-- The walk goes on behind the words the header counts. -/
theorem processSubPacket_next (hin : w.Inside n) (h : Next (processSubPacket n m lsrNow) w w') :
    (headerAt m w.msg).isValid = true ∧ w'.msg = w.msg + (4 * (headerAt m w.msg).length + 4)
      ∧ w'.Inside n ∧ w'.remain < w.remain ∧ w'.session.video = w.session.video := by
  have hcovers := hin.covers
  by_cases hvalid : (headerAt m w.msg).isValid = true
  · rw [Next, processSubPacket_eq hin hvalid] at h
    obtain ⟨⟨status, session⟩, hreport, h⟩ := bind_eq_ok_iff.mp h
    simp only at h
    split at h
    · cases h
      exact ⟨hvalid, rfl, ⟨by simp only; omega, by simp only; omega⟩, by simp only; omega,
        processRtcpReport_video hreport⟩
    · cases h
  · rw [Next, processSubPacket_invalid hin hvalid] at h
    cases h

/-- What the sub-packets need from here on is what this one needs, and the rest if there is one. -/
theorem subPacketsFit_iff (hin : w.Inside n) : SubPacketsFit n m w.session.video w.msg ↔
    Inside (processSubPacket n m lsrNow w) ∧ ∀ w', Next (processSubPacket n m lsrNow) w w' →
      SubPacketsFit n m w'.session.video w'.msg := by
  have hcovers := hin.covers
  have hreport :=
    @processRtcpReport_inside n m w.session (lsrNow w.msg) w.msg w.remain hcovers hin.header
  rw [SubPacketsFit]
  by_cases hvalid : (headerAt m w.msg).isValid = true
  · have hinside : Inside (processSubPacket n m lsrNow w)
        ↔ w.msg + (headerAt m w.msg).need w.session.video ≤ n := by
      rw [processSubPacket_eq hin hvalid, inside_bind_of_inside, hreport]
      · omega
      · intro r
        simp only
        split <;> exact inside_ok _
    simp only [hvalid, forall_const]
    rw [hinside]
    refine and_congr_right fun hneed => ⟨fun hrest w' hnext => ?_, fun hall hroom => ?_⟩
    · obtain ⟨-, hmsg, hin', -, hvideo⟩ := processSubPacket_next hin hnext
      have hcovers' := hin'.covers
      have hheader' := hin'.header
      rw [hmsg, hvideo]
      exact hrest (by omega)
    · obtain ⟨r, hr⟩ := hreport.mpr (by omega)
      have hnext : Next (processSubPacket n m lsrNow) w
          ⟨w.msg + (4 * (headerAt m w.msg).length + 4),
            w.remain - (4 * (headerAt m w.msg).length + 4), r.2⟩ := by
        rw [Next, processSubPacket_eq hin hvalid, hr, ok_bind]
        exact if_pos (by omega)
      have hgood := hall _ hnext
      rwa [(processSubPacket_next hin hnext).2.2.2.2] at hgood
  · refine iff_of_true (fun h => absurd h hvalid) ⟨?_,
      fun w' hnext => absurd (processSubPacket_next hin hnext).1 hvalid⟩
    rw [processSubPacket_invalid hin hvalid]
    exact inside_ok _

/-- The walk is entered at the first sub-packet, if the size and the version are right. -/
theorem beginPacket_eq (s : Session) :
    ∃ r, beginPacket n m s
      = .ok (if (12 ≤ n ∧ n ≤ rtcpMsgSize) ∧ (headerAt m 0).version = 2 then .inl ⟨0, n, s⟩
        else .inr r) := by
  by_cases hsize : n < 12 ∨ n > rtcpMsgSize
  · refine ⟨(.false, s), ?_⟩
    rw [beginPacket, if_pos hsize, if_neg (by omega)]
    rfl
  · rw [beginPacket, if_neg hsize, readHeader_of_le (by omega), ok_bind]
    by_cases hversion : (headerAt m 0).version = 2
    · exact ⟨(.false, s), by rw [if_pos hversion, if_pos ⟨by omega, hversion⟩]; rfl⟩
    · rw [if_neg hversion]
      split
      · exact ⟨(.success, s), by rw [if_neg (by simp [hversion])]; rfl⟩
      · exact ⟨(.false, s), by rw [if_neg (by simp [hversion])]; rfl⟩

theorem beginPacket_prepares (s : Session) :
    Prepares (beginPacket n m s) (Walk.Inside n) Walk.remain (n + 1) := by
  obtain ⟨r, heq⟩ := @beginPacket_eq n m s
  refine ⟨⟨_, heq⟩, fun w hw => ?_⟩
  rw [heq] at hw
  split at hw
  · next hstart =>
    cases hw
    exact ⟨⟨Nat.zero_add n, by show 4 ≤ n; omega⟩, n.lt_succ_self⟩
  · cases hw

end Walk

/-- The walk ends. -/
theorem processRtcpPacket_isSome (n : Nat) (m : Mem) (lsrNow : Nat → UInt32) (s : Session) :
    (processRtcpPacket n m lsrNow s).isSome = true :=
  walk_isSome (beginPacket_prepares s) (fun _ _ hin h => (processSubPacket_next hin h).2.2.1)
    (fun _ _ hin h => (processSubPacket_next hin h).2.2.2.1)

/-- Every datagram is processed, and only its own bytes are read exactly if each sub-packet has the
bytes its header asks for; a datagram of another size is not looked at. -/
theorem rtcp_reads_inside_iff (n : Nat) (m : Mem) (lsrNow : Nat → UInt32) (s : Session) :
    (∃ r, processRtcpPacket n m lsrNow s = some (.ok r))
      ↔ (12 ≤ n ∧ n ≤ rtcpMsgSize → SubPacketsFit n m s.video 0) := by
  rw [processRtcpPacket, walk_inside_iff (beginPacket_prepares s)
    (fun _ _ hin h => (processSubPacket_next hin h).2.2.1)
    (fun _ _ hin h => (processSubPacket_next hin h).2.2.2.1) (fun _ hin => subPacketsFit_iff hin)]
  obtain ⟨r, heq⟩ := @beginPacket_eq n m s
  rw [heq]
  constructor
  · intro hgood hsize
    by_cases hversion : (headerAt m 0).version = 2
    · exact hgood ⟨0, n, s⟩ (by rw [if_pos ⟨hsize, hversion⟩])
    · -- another version is not taken
      rw [SubPacketsFit]
      intro hvalid
      simp [Header.isValid, hversion] at hvalid
  · intro hfit w hw
    split at hw
    · next hstart =>
      cases hw
      exact hfit hstart.1
    · cases hw

/-- An audio session before the first report. -/
def audioSession : Session :=
  ⟨false, false, false, ⟨0, 0, ⟨0, 0, 0, 0, 0, 0⟩, List.replicate 5 ⟨0, 0, 0, 0, 0, 0, 0⟩⟩, false, 0, 0,
    0, 0, 0, 0, []⟩

/-- A sender report without blocks that ends behind the first word of the NTP timestamp. -/
def shortSenderReport : Mem := fun a => [0x80, 200, 0, 2, 0, 0, 0, 1, 0, 0, 0, 0].getD a 0

/-- The rest of the sender info is taken from behind the datagram. -/
theorem rtcp_short_sender_report :
    processRtcpPacket 12 shortSenderReport (fun _ => 0) audioSession = some (.error 23) := by
  rfl

end FreeSwitch.Rtcp
