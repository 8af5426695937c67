import FreeSwitch.JitterBuffer.Occupancy

/-!
# The length of the buffer

`frame_len` says how many frames are held back before the first one is read. It starts at the minimum,
`jb_frame_inc` moves it up when packets come late or are missing and down after a period of 250 reads
with nearly no miss, and `switch_jb_set_frames` moves the limits themselves.

`jb_frame_inc` adds a signed number to an unsigned one before it compares with the limit. At zero, one
less is the largest number there is, which is not below the minimum, and the buffer then waits for
more frames than it can ever hold. At the other end one more than the largest number is zero.

* **`Lengths`** — the four numbers; **`lengthen`** and **`shorten`** are the two moves that are made.
* **`switchJbPutPacket_lengths`**, **`switchJbGetPacket_lengths`** — the moves each call makes.
* **`frame_len_within_iff`** — the length stays within its limits exactly as long as no get that ends
  a good period finds it at zero.
-/

namespace FreeSwitch.JitterBuffer

open Bytes Pools Runs

/-- The largest `uint32_t`. -/
def uint32Max : UInt32 := 4294967295

/-- The numbers that say how long the buffer is and may be. -/
structure Lengths where
  frameLen : UInt32
  minFrameLen : UInt32
  maxFrameLen : UInt32
  highestFrameLen : UInt32
  deriving DecidableEq, Repr

namespace Lengths

/-- `jb_frame_inc(jb, 1)`. -/
def lengthen (l : Lengths) : Lengths :=
  let frameLen := if l.frameLen + 1 < l.maxFrameLen then l.frameLen + 1 else l.maxFrameLen
  { l with frameLen := frameLen, highestFrameLen := if l.highestFrameLen < frameLen then frameLen
    else l.highestFrameLen }

/-- `jb_frame_inc(jb, -1)`. -/
def shorten (l : Lengths) : Lengths :=
  let frameLen := if l.minFrameLen < l.frameLen - 1 then l.frameLen - 1 else l.minFrameLen
  { l with frameLen := frameLen, highestFrameLen := if l.highestFrameLen < frameLen then frameLen
    else l.highestFrameLen }

/-- The length is within its limits. -/
structure Within (l : Lengths) : Prop where
  min : l.minFrameLen ≤ l.frameLen
  max : l.frameLen ≤ l.maxFrameLen
  highest : l.frameLen ≤ l.highestFrameLen

theorem le_highest (highest frameLen : UInt32) :
    frameLen ≤ if highest < frameLen then frameLen else highest := by
  split
  · exact UInt32.le_refl frameLen
  · rename_i h
    exact UInt32.not_lt.mp h

theorem Within.lengthen {l : Lengths} (h : Within l)
    (htop : l.maxFrameLen = uint32Max → l.minFrameLen = 0) :
    Within l.lengthen := by
  obtain ⟨hmin, hmax, -⟩ := h
  have hsum : (l.frameLen + 1).toNat = (l.frameLen.toNat + 1) % 4294967296 := by simp
  refine ⟨?_, ?_, le_highest _ _⟩
  · show l.minFrameLen ≤ if l.frameLen + 1 < l.maxFrameLen then l.frameLen + 1 else l.maxFrameLen
    split
    · rw [UInt32.le_iff_toNat_le] at hmin hmax ⊢
      -- only at the top does the sum wrap, and there the minimum is zero
      by_cases hlast : l.frameLen.toNat = 4294967295
      · have hmaxlt := l.maxFrameLen.toNat_lt
        have htop := htop (UInt32.toNat_inj.mp (show l.maxFrameLen.toNat = 4294967295 by omega))
        rw [htop]
        simp
      · have hlt := l.frameLen.toNat_lt
        omega
    · exact UInt32.le_trans hmin hmax
  · show (if l.frameLen + 1 < l.maxFrameLen then l.frameLen + 1 else l.maxFrameLen) ≤ l.maxFrameLen
    split
    · rename_i hlt
      exact UInt32.le_of_lt hlt
    · exact UInt32.le_refl _

theorem Within.shorten {l : Lengths} (h : Within l)
    (hzero : l.frameLen = 0 → l.maxFrameLen = uint32Max) :
    Within l.shorten := by
  obtain ⟨hmin, hmax, -⟩ := h
  refine ⟨?_, ?_, le_highest _ _⟩
  · show l.minFrameLen ≤ if l.minFrameLen < l.frameLen - 1 then l.frameLen - 1 else l.minFrameLen
    split
    · rename_i hlt
      exact UInt32.le_of_lt hlt
    · exact UInt32.le_refl _
  · show (if l.minFrameLen < l.frameLen - 1 then l.frameLen - 1 else l.minFrameLen) ≤ l.maxFrameLen
    split
    · by_cases hl : l.frameLen = 0
      · rw [hzero hl, UInt32.le_iff_toNat_le]
        have hlt := (l.frameLen - 1).toNat_lt
        show _ ≤ 4294967295
        omega
      · have hpos : (1 : UInt32) ≤ l.frameLen := by
          rw [UInt32.le_iff_toNat_le]
          have hne : l.frameLen.toNat ≠ 0 := fun heq => hl (UInt32.toNat_inj.mp heq)
          show 1 ≤ _
          omega
        rw [UInt32.le_iff_toNat_le, UInt32.toNat_sub_of_le _ _ hpos]
        rw [UInt32.le_iff_toNat_le] at hmax
        omega
    · exact UInt32.le_trans hmin hmax

/-- A minimum above zero is not enough if the maximum is the top. -/
example : (lengthen ⟨uint32Max, 1, uint32Max, uint32Max⟩).frameLen = 0 := by decide

/-- Below zero is the top. -/
theorem frameLen_shorten_zero {l : Lengths} (hmin : l.minFrameLen ≤ l.frameLen) (hzero : l.frameLen = 0)
    : l.shorten.frameLen = uint32Max := by
  have hmin0 : l.minFrameLen = 0 := by
    rw [hzero, UInt32.le_iff_toNat_le] at hmin
    exact UInt32.toNat_inj.mp (Nat.le_zero.mp hmin)
  show (if l.minFrameLen < l.frameLen - 1 then l.frameLen - 1 else l.minFrameLen) = uint32Max
  rw [hzero, hmin0]
  rfl

/-- The length has been increased some number of times. -/
def Lengthened : Lengths → Lengths → Prop := Relation.ReflTransGen fun l l' => l' = l.lengthen

theorem Lengthened.limits {l l' : Lengths} (h : Lengthened l l') :
    l'.minFrameLen = l.minFrameLen ∧ l'.maxFrameLen = l.maxFrameLen := by
  induction h with
  | refl => exact ⟨rfl, rfl⟩
  | tail _ hstep ih =>
    subst hstep
    exact ih

theorem Within.lengthened {l l' : Lengths} (h : Within l)
    (htop : l.maxFrameLen = uint32Max → l.minFrameLen = 0) (hgrown : Lengthened l l') : Within l' := by
  induction hgrown with
  | refl => exact h
  | tail hgrown hstep ih =>
    obtain ⟨hmin, hmax⟩ := Lengthened.limits hgrown
    subst hstep
    apply ih.lengthen
    rw [hmin, hmax]
    exact htop

end Lengths

namespace SwitchJb

variable {β : Type} {jb jb' : SwitchJb β}

def lengths (jb : SwitchJb β) : Lengths :=
  ⟨jb.frameLen, jb.minFrameLen, jb.maxFrameLen, jb.highestFrameLen⟩

/-! ## The moves of each call -/

theorem jbFrameInc_neg_one (jb : SwitchJb β) : (jb.jbFrameInc (-1)).lengths = jb.lengths.shorten := by
  have hsum : jb.frameLen + UInt32.ofInt (-1) = jb.frameLen - 1 := by
    rw [UInt32.sub_eq_add_neg]
    rfl
  unfold jbFrameInc lengths
  dsimp only
  rw [hsum]
  rfl

/-- The lengths do not depend on which branch was taken. -/
theorem ite_lengths {c : Prop} [Decidable c] {l : Lengths} (h : jb.lengths = l) (h' : jb'.lengths = l) :
    (if c then jb else jb').lengths = l := by
  split
  · exact h
  · exact h'

theorem noteWroteSeq_lengths (jb : SwitchJb β) (packet : Packet β) :
    (jb.noteWroteSeq packet).lengths = jb.lengths :=
  ite_lengths rfl rfl

theorem countPacket_lengths (jb : SwitchJb β) :
    jb.countPacket.lengths = jb.lengths := ite_lengths rfl rfl

theorem countVideo_lengths (jb : SwitchJb β) (packet : Packet β) (a : Nat) :
    (jb.countVideo packet a).lengths = jb.lengths := by
  have hcount := countPacket_lengths jb
  unfold countVideo
  generalize jb.countPacket = jb₁ at hcount ⊢
  exact ite_lengths (ite_lengths hcount hcount) (ite_lengths hcount hcount)

theorem countOther_lengths (jb : SwitchJb β) (packet : Packet β) :
    (jb.countOther packet).lengths = jb.lengths :=
  ite_lengths rfl rfl

theorem noteNode_lengths (jb : SwitchJb β) (packet : Packet β) (a : Nat) :
    (jb.noteNode packet a).1.lengths = jb.lengths := by
  unfold noteNode
  extract_lets punted jb₁ jb₂ jb₃
  have h₁ : jb₁.lengths = jb.lengths := ite_lengths rfl rfl
  have h₂ : jb₂.lengths = jb.lengths := (noteWroteSeq_lengths jb₁ packet).trans h₁
  exact ite_lengths ((countVideo_lengths jb₂ packet a).trans h₂)
    ((countOther_lengths jb₂ packet).trans h₂)

theorem addNode_lengths (behind : Nat → UInt8) (jb : SwitchJb β) (packet : Packet β) (len : Nat) :
    (jb.addNode behind packet len).1.lengths = jb.lengths := by
  unfold addNode
  split
  · rfl
  · exact noteNode_lengths _ packet _

theorem dropLoop_lengths : ∀ (fuel : Nat) (jb jb' : SwitchJb β), jb.dropLoop fuel = some jb' →
    jb'.lengths = jb.lengths := by
  intro fuel
  induction fuel with
  | zero => intro jb jb' h; cases h
  | succ fuel ih =>
    intro jb jb' h
    unfold dropLoop at h
    split at h
    · have hrest := ih _ jb' h
      exact hrest
    · cases h
      rfl

theorem makeRoom_lengths {fuel : Nat} (h : makeRoom fuel jb = some jb') : jb'.lengths = jb.lengths := by
  unfold makeRoom at h
  split at h
  · exact dropLoop_lengths fuel jb jb' h
  · cases h
    rfl

theorem noteLate_lengths (jb : SwitchJb β) (packet : Packet β) :
    jb.lengths.Lengthened (jb.noteLate packet).lengths := by
  unfold noteLate
  dsimp only
  split
  · exact .single rfl
  · exact .refl

theorem noteGap_lengths (jb : SwitchJb β) (want got : Nat) :
    jb.lengths.Lengthened (jb.noteGap want got).lengths := by
  unfold noteGap
  dsimp only
  split
  · split
    · exact .refl
    · split
      · exact .single rfl
      · exact .refl
  · exact .refl

theorem noteSeq_lengths (jb : SwitchJb β) (packet : Packet β) :
    jb.lengths.Lengthened (jb.noteSeq packet).lengths := by
  unfold noteSeq
  extract_lets got want next gapped
  split
  · exact .refl
  · have hgapped : jb.lengths.Lengthened gapped.lengths :=
      (noteLate_lengths jb packet).trans (noteGap_lengths _ want got)
    split
    · exact hgapped
    · exact hgapped

theorem switchJbPutPacket_lengths {packet : Packet β} {len fuel : Nat}
    {behind : Nat → UInt8} {fate : Fate}
    (h : jb.switchJbPutPacket fuel behind packet len = some (jb', fate)) :
    jb.lengths.Lengthened jb'.lengths := by
  unfold switchJbPutPacket at h
  dsimp only at h
  split_ifs at h
  · cases h
    exact .refl
  · obtain ⟨room, hroom, heq⟩ := Option.map_eq_some_iff.mp h
    cases heq
    rw [makeRoom_lengths hroom, addNode_lengths]
    exact noteSeq_lengths { jb with highestDroppedTs := 0 } packet

/-- The read that is about to be made is the last one of a period with nearly no miss. -/
def EndsGoodPeriod (jb : SwitchJb β) : Prop := 250 ≤ jb.periodCount + 1 ∧ 250 - 5 ≤ jb.consecGoodCount

instance (jb : SwitchJb β) : Decidable jb.EndsGoodPeriod := inferInstanceAs (Decidable (_ ∧ _))

theorem tickPeriod_lengths (jb : SwitchJb β) :
    (jb.EndsGoodPeriod → jb.tickPeriod.lengths = jb.lengths.shorten ∧ jb.tickPeriod.periodMissCount = 0)
      ∧ (¬ jb.EndsGoodPeriod → jb.tickPeriod.lengths = jb.lengths) := by
  unfold tickPeriod shrinkFrame
  dsimp only
  constructor
  · rintro ⟨hperiod, hgood⟩
    have hinc := jbFrameInc_neg_one { jb with periodCount := jb.periodCount + 1 }
    rw [if_pos hperiod, if_pos hgood]
    generalize jbFrameInc { jb with periodCount := jb.periodCount + 1 } (-1) = shorter at hinc ⊢
    exact ⟨hinc, rfl⟩
  · intro hends
    split
    · rename_i hperiod
      rw [if_neg fun hgood => hends ⟨hperiod, hgood⟩]
      rfl
    · rfl

theorem switchJbPoll_lengths (jb : SwitchJb β) :
    jb.switchJbPoll.lengths = jb.lengths ∧ (jb.switchJbPoll.EndsGoodPeriod ↔ jb.EndsGoodPeriod) := by
  unfold switchJbPoll
  split
  · extract_lets lag
    generalize lag = lag
    split
    · exact ⟨rfl, Iff.rfl⟩
    · exact ⟨rfl, Iff.rfl⟩
  · exact ⟨rfl, Iff.rfl⟩

/-- A get that goes on to read has made the length shorter if it ends a good period. -/
theorem getPrepare_lengths (jb : SwitchJb β) :
    (jb.getPrepare.2 ≠ none → jb.getPrepare.1.lengths = jb.lengths)
      ∧ (jb.getPrepare.2 = none → jb.store.completeFrames ≠ 0 ∧ (jb.EndsGoodPeriod →
              jb.getPrepare.1.lengths = jb.lengths.shorten ∧ jb.getPrepare.1.periodMissCount = 0)
          ∧ (¬ jb.EndsGoodPeriod → jb.getPrepare.1.lengths = jb.lengths)) := by
  have htick := tickPeriod_lengths jb
  have hpolled := tickPeriod_lengths jb.switchJbPoll
  obtain ⟨hpoll, hends⟩ := switchJbPoll_lengths jb
  rw [hpoll, hends] at hpolled
  unfold getPrepare
  dsimp only
  split_ifs with hnone hfew hflush
  · exact ⟨fun _ => rfl, nofun⟩
  · exact ⟨fun h => absurd rfl h, fun _ => ⟨hnone, hpolled⟩⟩
  · exact ⟨fun _ => hpoll, nofun⟩
  · exact ⟨fun h => absurd rfl h, fun _ => ⟨hnone, htick⟩⟩

theorem getPrepare_of_zero (hframes : jb.store.completeFrames ≠ 0) (hzero : jb.frameLen = 0) :
    jb.getPrepare.2 = none := by
  unfold getPrepare
  rw [if_neg hframes, if_neg (by rw [hzero]; exact Nat.not_lt_zero _)]

theorem setReadTs_lengths (jb : SwitchJb β) (ts : UInt32) : (jb.setReadTs ts).lengths = jb.lengths :=
  ite_lengths rfl rfl

theorem incrementTs_lengths (jb : SwitchJb β) :
    jb.incrementTs.lengths = jb.lengths := ite_lengths rfl rfl

theorem resync_lengths (jb : SwitchJb β) : jb.resync.lengths = jb.lengths := ite_lengths rfl rfl

theorem seek_lengths : ∀ (x : Nat) (jb : SwitchJb β), (seek x jb).1.lengths = jb.lengths := by
  intro x
  induction x with
  | zero => exact fun jb => rfl
  | succ x ih =>
    intro jb
    unfold seek
    dsimp only
    split
    · rfl
    · exact ih jb.incrementSeq

/-- One step up, if a miss was not the first of its period; none in a period that has had no miss. -/
structure Searches (jb jb' : SwitchJb β) : Prop where
  lengthened : jb.lengths.Lengthened jb'.lengths
  first : jb.periodMissCount = 0 → jb'.lengths = jb.lengths

theorem searches_of_eq (h : jb'.lengths = jb.lengths) : Searches jb jb' := ⟨h ▸ .refl, fun _ => h⟩

theorem missSeq_searches (jb : SwitchJb β) : Searches jb jb.missSeq.1 := by
  unfold missSeq
  extract_lets missed grown
  have hgrown : Searches jb grown := by
    constructor
    · show jb.lengths.Lengthened (if _ then _ else _ : SwitchJb β).lengths
      split
      · exact .single rfl
      · exact .refl
    · intro hzero
      have hfirst : ¬ (1 < missed.periodMissCount ∧ missed.periodMissInc = 0) := by
        rintro ⟨hlt, -⟩
        have hone : missed.periodMissCount = 1 := by
          show jb.periodMissCount + 1 = 1
          rw [hzero]
          rfl
        rw [hone] at hlt
        exact absurd hlt (by decide)
      show (if _ then _ else missed : SwitchJb β).lengths = _
      rw [if_neg hfirst]
      rfl
  split
  · have hseek := seek_lengths 10 grown
    split
    · rename_i jb₁ heq
      rw [heq] at hseek
      exact ⟨hseek ▸ hgrown.lengthened, fun h => hseek.trans (hgrown.first h)⟩
    · rename_i jb₁ node heq
      rw [heq] at hseek
      have hdropped : (jb₁.dropFrame node).resync.startSeq.1.lengths = grown.lengths :=
        (resync_lengths (jb₁.dropFrame node)).trans hseek
      split
      · exact ⟨hdropped ▸ hgrown.lengthened, fun h => hdropped.trans (hgrown.first h)⟩
      · exact ⟨hseek ▸ hgrown.lengthened, fun h => hseek.trans (hgrown.first h)⟩
  · exact searches_of_eq rfl

theorem findNextSeq_searches (jb : SwitchJb β) : Searches jb jb.findNextSeq.1 := by
  unfold findNextSeq
  split
  · exact searches_of_eq rfl
  · split
    · exact searches_of_eq rfl
    · exact missSeq_searches jb

theorem jbNextPacket_searches (jb : SwitchJb β) : Searches jb jb.jbNextPacket.1 := by
  unfold jbNextPacket
  split
  · unfold jbNextPacketByTs
    split
    · exact searches_of_eq (setReadTs_lengths jb.jbHit _)
    · split
      · exact searches_of_eq rfl
      · exact searches_of_eq (incrementTs_lengths jb.jbMiss)
  · have hsync := resync_lengths jb
    have hmiss : jb.resync.periodMissCount = jb.periodMissCount := by
      unfold resync
      split
      · rfl
      · rfl
    obtain ⟨hgrown, hfirst⟩ := findNextSeq_searches jb.resync
    rw [hsync] at hgrown hfirst
    rw [hmiss] at hfirst
    unfold jbNextPacketBySeq
    generalize jb.resync.findNextSeq = found at hgrown hfirst ⊢
    obtain ⟨jb₁, n?⟩ := found
    cases n? with
    | none => exact ⟨hgrown, hfirst⟩
    | some node => exact ⟨hgrown, hfirst⟩

theorem noteRead_lengths (jb : SwitchJb β) (node : Node β) :
    (jb.noteRead node).lengths = jb.lengths := by
  have hseq : (jb.noteReadSeq node.val.seq).lengths = jb.lengths := ite_lengths rfl rfl
  have hframe : ((jb.noteReadSeq node.val.seq).noteReadFrame node.val.seq node.val.ts).lengths
      = jb.lengths :=
    ite_lengths hseq (ite_lengths hseq (ite_lengths hseq hseq))
  exact hframe

/-- Nothing is longer than the top, so no row of misses is. -/
theorem getMissing_lengths (jb : SwitchJb β) : jb.lengths.Lengthened jb.getMissing.1.lengths
    ∧ (jb.frameLen = uint32Max → jb.getMissing.1.lengths = jb.lengths) := by
  unfold getMissing
  split
  · exact ⟨.refl, fun _ => rfl⟩
  · split
    · rename_i hmissed
      refine ⟨.single rfl, fun htop => ?_⟩
      rw [htop, UInt32.lt_iff_toNat_lt] at hmissed
      have hlt := jb.consecMissCount.toNat_lt
      have hmax : uint32Max.toNat = 4294967295 := rfl
      omega
    · exact ⟨.refl, fun _ => rfl⟩

theorem takeNext_lengths (jb : SwitchJb β) : jb.lengths.Lengthened jb.takeNext.1.lengths
    ∧ (jb.periodMissCount = 0 → jb.frameLen = uint32Max → jb.takeNext.1.lengths = jb.lengths) := by
  obtain ⟨hgrown, hfirst⟩ := jbNextPacket_searches jb
  unfold takeNext
  generalize jb.jbNextPacket = found at hgrown hfirst ⊢
  obtain ⟨jb₁, n?⟩ := found
  cases n? with
  | some node =>
    have hread : ((jb₁.noteRead node).takeNode node).1.lengths = jb₁.lengths :=
      noteRead_lengths jb₁ node
    dsimp only
    rw [hread]
    exact ⟨hgrown, fun hmiss _ => hfirst hmiss⟩
  | none =>
    obtain ⟨hlonger, htop⟩ := getMissing_lengths jb₁
    refine ⟨hgrown.trans hlonger, fun hmiss hlen => ?_⟩
    have hsame := hfirst hmiss
    exact (htop ((congrArg Lengths.frameLen hsame).trans hlen)).trans hsame

theorem getEnd_lengths (jb : SwitchJb β) (got : Got β) : (jb.getEnd got).1.lengths = jb.lengths := by
  unfold getEnd
  split_ifs
  · rfl
  · rfl
  · rfl
  · rfl

/-- A get that does not go on to read. -/
theorem switchJbGetPacket_lengths_of_ne (h : jb.getPrepare.2 ≠ none) :
    jb.switchJbGetPacket.1.lengths = jb.lengths := by
  have hprep := (getPrepare_lengths jb).1 h
  unfold switchJbGetPacket
  rw [getEnd_lengths]
  unfold getNext
  generalize jb.getPrepare = prepared at h hprep ⊢
  obtain ⟨jb₁, status?⟩ := prepared
  cases status? with
  | some status => exact hprep
  | none => exact absurd rfl h

theorem switchJbGetPacket_lengths (h : jb.getPrepare.2 = none) :
    jb.switchJbGetPacket.1.lengths = jb.getPrepare.1.takeNext.1.lengths := by
  unfold switchJbGetPacket
  rw [getEnd_lengths]
  unfold getNext
  generalize jb.getPrepare = prepared at h ⊢
  obtain ⟨jb₁, status?⟩ := prepared
  cases h
  rfl

def switchJbSetFrames (jb : SwitchJb β) (minFrameLen maxFrameLen : UInt32) : SwitchJb β :=
  let lowest := decide (jb.frameLen = jb.minFrameLen)
  let frameLen := if maxFrameLen < jb.frameLen then maxFrameLen else jb.frameLen
  let frameLen := if frameLen < minFrameLen then minFrameLen else frameLen
  { jb with
    minFrameLen := minFrameLen
    maxFrameLen := maxFrameLen
    highestFrameLen := if jb.highestFrameLen < frameLen then frameLen else jb.highestFrameLen
    frameLen := if lowest then minFrameLen else frameLen }

/-- Whatever the length was, it is within the new limits. -/
theorem within_setFrames (jb : SwitchJb β) {minFrameLen maxFrameLen : UInt32}
    (h : minFrameLen ≤ maxFrameLen) :
    (jb.switchJbSetFrames minFrameLen maxFrameLen).lengths.Within := by
  generalize hcut : (if maxFrameLen < jb.frameLen then maxFrameLen else jb.frameLen) = cut
  have hmax : cut ≤ maxFrameLen := by
    rw [← hcut]
    split
    · exact UInt32.le_refl _
    · rename_i hle
      exact UInt32.not_lt.mp hle
  generalize hraised : (if cut < minFrameLen then minFrameLen else cut) = raised
  have hbounds : minFrameLen ≤ raised ∧ raised ≤ maxFrameLen := by
    rw [← hraised]
    split
    · exact ⟨UInt32.le_refl _, h⟩
    · rename_i hle
      exact ⟨UInt32.not_lt.mp hle, hmax⟩
  have hlengths : (jb.switchJbSetFrames minFrameLen maxFrameLen).lengths
      = ⟨if jb.frameLen = jb.minFrameLen then minFrameLen else raised, minFrameLen, maxFrameLen,
          if jb.highestFrameLen < raised then raised else jb.highestFrameLen⟩ := by
    rw [← hraised, ← hcut]
    simp [lengths, switchJbSetFrames]
  rw [hlengths]
  have hhighest := Lengths.le_highest jb.highestFrameLen raised
  split
  · exact ⟨UInt32.le_refl _, h, UInt32.le_trans hbounds.1 hhighest⟩
  · exact ⟨hbounds.1, hbounds.2, hhighest⟩

end SwitchJb

/-! ## Runs -/

/-- Limits as `switch_jb_create` and `switch_jb_set_frames` are given them. -/
structure Limits where
  minFrameLen : UInt32
  maxFrameLen : UInt32
  le : minFrameLen ≤ maxFrameLen

/-- The sum of `jb_frame_inc` does not wrap before it has come to the maximum. -/
def Limits.BelowTop (limits : Limits) : Prop := limits.maxFrameLen = uint32Max → limits.minFrameLen = 0

inductive SizeCall (β : Type) where
  | call (call : Call β)
  | setFrames (limits : Limits)

/-- What is asked of the limits, if the call sets them. -/
def SizeCall.Sets {β : Type} (P : Limits → Prop) : SizeCall β → Prop
  | .setFrames limits => P limits
  | .call _ => True

namespace SwitchJb

variable {β : Type} {jb jb' : SwitchJb β}

inductive SizeStep : SwitchJb β → SizeCall β → SwitchJb β → Prop where
  | call {jb jb' : SwitchJb β} {call : Call β} (h : Step jb call jb') : SizeStep jb (.call call) jb'
  | setFrames {jb : SwitchJb β} {limits : Limits} :
      SizeStep jb (.setFrames limits) (jb.switchJbSetFrames limits.minFrameLen limits.maxFrameLen)

/-- A get of this buffer makes the length shorter though it is zero. -/
def Underflows (jb : SwitchJb β) : Prop :=
  jb.frameLen = 0 ∧ jb.maxFrameLen ≠ uint32Max ∧ jb.store.completeFrames ≠ 0 ∧ jb.EndsGoodPeriod

def NoUnderflow (jb : SwitchJb β) : SizeCall β → Prop
  | .call .get => ¬ jb.Underflows
  | _ => True

/-- The invariant: the length is within limits that are below the top. -/
structure Sized (jb : SwitchJb β) : Prop where
  within : jb.lengths.Within
  top : jb.maxFrameLen = uint32Max → jb.minFrameLen = 0

theorem Sized.lengthened (h : Sized jb) (hgrown : jb.lengths.Lengthened jb'.lengths) : Sized jb' := by
  obtain ⟨hmin, hmax⟩ := hgrown.limits
  refine ⟨h.within.lengthened h.top hgrown, fun htop => ?_⟩
  exact hmin.trans (h.top (hmax.symm.trans htop))

theorem Sized.of_eq (h : Sized jb) (heq : jb'.lengths = jb.lengths) : Sized jb' :=
  h.lengthened (heq ▸ .refl)

theorem Sized.get (h : Sized jb) (hok : ¬ jb.Underflows) : Sized jb.switchJbGetPacket.1 := by
  by_cases hread : jb.getPrepare.2 = none
  · obtain ⟨hframes, hends, hgoes⟩ := (getPrepare_lengths jb).2 hread
    have hprepared : Sized jb.getPrepare.1 := by
      by_cases hperiod : jb.EndsGoodPeriod
      · have hshort := (hends hperiod).1
        have hlimits : jb.getPrepare.1.minFrameLen = jb.minFrameLen
            ∧ jb.getPrepare.1.maxFrameLen = jb.maxFrameLen :=
          ⟨congrArg Lengths.minFrameLen hshort, congrArg Lengths.maxFrameLen hshort⟩
        constructor
        · rw [hshort]
          refine h.within.shorten fun hzero => ?_
          by_contra htop
          exact hok ⟨hzero, htop, hframes, hperiod⟩
        · rw [hlimits.1, hlimits.2]
          exact h.top
      · exact h.of_eq (hgoes hperiod)
    apply hprepared.lengthened
    rw [switchJbGetPacket_lengths hread]
    exact (takeNext_lengths jb.getPrepare.1).1
  · exact h.of_eq (switchJbGetPacket_lengths_of_ne hread)

/-- After an underflow the length is above its maximum, and the get does not mend that. -/
theorem not_within_of_underflows (h : Sized jb) (hunder : jb.Underflows) :
    ¬ jb.switchJbGetPacket.1.lengths.Within := by
  obtain ⟨hzero, hmax, hframes, hperiod⟩ := hunder
  have hread := getPrepare_of_zero hframes hzero
  obtain ⟨hshort, hmiss⟩ := ((getPrepare_lengths jb).2 hread).2.1 hperiod
  have htop : jb.getPrepare.1.lengths.frameLen = uint32Max := by
    rw [hshort]
    exact Lengths.frameLen_shorten_zero h.within.min hzero
  have hend : jb.switchJbGetPacket.1.lengths = jb.lengths.shorten := by
    rw [switchJbGetPacket_lengths hread, (takeNext_lengths jb.getPrepare.1).2 hmiss htop, hshort]
  intro hwithin
  have hle := hwithin.max
  rw [hend, ← hshort, htop, UInt32.le_iff_toNat_le] at hle
  have hlimit : jb.getPrepare.1.lengths.maxFrameLen = jb.maxFrameLen :=
    congrArg Lengths.maxFrameLen hshort
  rw [hlimit] at hle
  have hlt := jb.maxFrameLen.toNat_lt
  have hnat : uint32Max.toNat = 4294967295 := rfl
  exact hmax (UInt32.toNat_inj.mp (by omega))

theorem Sized.step {call : SizeCall β} (hcall : call.Sets Limits.BelowTop) (h : Sized jb)
    (hstep : SizeStep jb call jb') (hok : jb.NoUnderflow call) : Sized jb' := by
  cases hstep with
  | call hstep =>
    cases hstep with
    | put hput => exact h.lengthened (switchJbPutPacket_lengths hput)
    | get => exact h.get hok
    | reset => exact h.of_eq rfl
  | @setFrames limits => exact ⟨within_setFrames jb limits.le, hcall⟩

theorem sized_start (type : JbType) (limits : Limits) (mode : Option (UInt32 × UInt32))
    (queueOnly : Bool) (htop : limits.BelowTop) :
    Sized (start β type limits.minFrameLen limits.maxFrameLen mode queueOnly) := by
  have hlengths : (start β type limits.minFrameLen limits.maxFrameLen mode queueOnly).lengths
      = ⟨limits.minFrameLen, limits.minFrameLen, limits.maxFrameLen, limits.minFrameLen⟩ := by
    cases mode <;> cases queueOnly <;> rfl
  refine ⟨?_, fun h => ?_⟩
  · rw [hlengths]
    exact ⟨UInt32.le_refl _, limits.le, UInt32.le_refl _⟩
  · have hmin := congrArg Lengths.minFrameLen hlengths
    have hmax := congrArg Lengths.maxFrameLen hlengths
    exact hmin.trans (htop (hmax.symm.trans h))

/-- Only `switch_jb_set_frames` moves the minimum. -/
theorem minFrameLen_step {call : Call β} (hstep : Step jb call jb') :
    jb'.minFrameLen = jb.minFrameLen := by
  cases hstep with
  | put hput => exact (switchJbPutPacket_lengths hput).limits.1
  | get =>
    by_cases hread : jb.getPrepare.2 = none
    · obtain ⟨-, hends, hgoes⟩ := (getPrepare_lengths jb).2 hread
      have hprepared : jb.getPrepare.1.minFrameLen = jb.minFrameLen := by
        by_cases hperiod : jb.EndsGoodPeriod
        · exact congrArg Lengths.minFrameLen (hends hperiod).1
        · exact congrArg Lengths.minFrameLen (hgoes hperiod)
      have hend := congrArg Lengths.minFrameLen (switchJbGetPacket_lengths hread)
      exact (hend.trans (takeNext_lengths jb.getPrepare.1).1.limits.1).trans hprepared
    · exact congrArg Lengths.minFrameLen (switchJbGetPacket_lengths_of_ne hread)
  | reset => rfl

/-- With a minimum above zero the length is never zero. -/
theorem Sized.noUnderflow (h : Sized jb) (hpos : 0 < jb.minFrameLen) (call : SizeCall β) :
    jb.NoUnderflow call := by
  match call with
  | .call .get =>
    rintro ⟨hzero, -⟩
    have hmin : jb.minFrameLen ≤ jb.frameLen := h.within.min
    rw [hzero] at hmin
    exact absurd hpos (UInt32.not_lt.mpr hmin)
  | .call (.put _ _) => trivial
  | .call .reset => trivial
  | .setFrames _ => trivial

/-- **The frame length stays within its limits exactly if no read lowers a length of 0,** and so it does
if no limit is 0. -/
theorem frame_len_within_iff (type : JbType) (limits : Limits) (mode : Option (UInt32 × UInt32))
    (queueOnly : Bool) (calls : List (SizeCall β)) (htop : limits.BelowTop)
    (hcalls : ∀ call ∈ calls, call.Sets Limits.BelowTop) :
    (EveryState SizeStep (fun jb => jb.lengths.Within)
        (start β type limits.minFrameLen limits.maxFrameLen mode queueOnly) calls
      ↔ EveryStep SizeStep NoUnderflow
          (start β type limits.minFrameLen limits.maxFrameLen mode queueOnly) calls)
    ∧ (0 < limits.minFrameLen → (∀ call ∈ calls, call.Sets fun l => 0 < l.minFrameLen) →
        EveryState SizeStep (fun jb => jb.lengths.Within)
          (start β type limits.minFrameLen limits.maxFrameLen mode queueOnly) calls) := by
  have hstart := sized_start (β := β) type limits mode queueOnly htop
  generalize hs : start β type limits.minFrameLen limits.maxFrameLen mode queueOnly = s at hstart ⊢
  have hiff : EveryState SizeStep (fun jb => jb.lengths.Within) s calls
      ↔ EveryStep SizeStep NoUnderflow s calls := by
    refine everyState_iff_everyStep (C := SizeCall.Sets Limits.BelowTop) (fun _ h => h.within) ?_
      (fun _ _ _ hcall h hstep hok => h.step hcall hstep hok) calls s hcalls hstart
    intro jb call _ h hall
    match call with
    | .call .get => exact fun hunder => not_within_of_underflows h hunder (hall _ (.call .get))
    | .call (.put _ _) => trivial
    | .call .reset => trivial
    | .setFrames _ => trivial
  refine ⟨hiff, fun hpos hallPos => hiff.mpr ?_⟩
  have hmin : s.minFrameLen = limits.minFrameLen := by
    rw [← hs]
    cases mode <;> cases queueOnly <;> rfl
  refine everyStep_of_invariant (I := fun jb => Sized jb ∧ 0 < jb.minFrameLen)
    (C := fun call => call.Sets Limits.BelowTop ∧ call.Sets fun l => 0 < l.minFrameLen) ?_
    (fun jb call _ h => h.1.noUnderflow h.2 call) calls s
      (fun call hc => ⟨hcalls call hc, hallPos call hc⟩)
    ⟨hstart, hmin ▸ hpos⟩
  rintro jb call jb' ⟨htop, hpos⟩ ⟨h, hmin⟩ hstep
  refine ⟨h.step htop hstep (h.noUnderflow hmin call), ?_⟩
  cases hstep with
  | call hstep => exact minFrameLen_step hstep ▸ hmin
  | setFrames => exact hpos

/-- A packet is put and read, and then the limits are moved. -/
theorem frame_len_within_moved :
    EveryState SizeStep (fun jb => jb.lengths.Within) (start Unit .audio 1 10 none false)
      [.call (.put ⟨2, false, htons 1, htonl 1000, ()⟩ 172), .call .get,
        .setFrames ⟨2, 5, by decide⟩] := by
  refine (frame_len_within_iff .audio ⟨1, 10, by decide⟩ none false _ ?_ ?_).2 (by decide) ?_
  · exact fun h => absurd h (by decide)
  · simp [SizeCall.Sets, Limits.BelowTop, uint32Max]
  · simp [SizeCall.Sets]

/-- A packet is put and read, 250 times over. -/
def steadyReads : List (Call Unit) :=
  (List.range 250).flatMap fun k =>
    [.put ⟨2, false, htons (UInt16.ofNat (k + 1)), htonl 1000, ()⟩ 172, .get]

theorem run_call {calls : List (Call β)} (h : Run Step jb calls jb') :
    Run SizeStep jb (calls.map .call) jb' := by
  induction h with
  | nil jb => exact .nil jb
  | cons hstep _ ih => exact .cons (.call hstep) ih

/-- The minimum is zero: the last read of a good period makes the length 4294967295. -/
theorem frame_len_above_max :
    ∃ jb : SwitchJb Unit,
      Run SizeStep (start Unit .audio 0 10 none false) (steadyReads.map .call) jb
      ∧ jb.maxFrameLen = 10 ∧ jb.frameLen = 4294967295 := by
  have heval : (List.foldlM (exec 0) (start Unit .audio 0 10 none false) steadyReads).any
      (fun jb => decide (jb.maxFrameLen = 10 ∧ jb.frameLen = 4294967295)) = true := by
    decide +kernel
  obtain ⟨jb, hrun, htest⟩ := Run.of_eval exec_step heval
  exact ⟨jb, run_call hrun, of_decide_eq_true htest⟩

end SwitchJb
end FreeSwitch.JitterBuffer
