import FreeSwitch.Buffer.Basic

/-!
# `switch_buffer` — refinement of a byte queue

The queue a buffer stands for is the window `contents` of its block: `used` bytes from
`head` on. `Wf` is what keeps the window inside the block: the three counters agree, and the
block is as long as `datalen` says.

* **`write_cases`** — all a write can do: refuse and keep the queue, append into the block as
  it is, or append into a grown block.
* **`perform_refines`** — every call keeps `Wf`, returns, and acts on `contents` as `FifoStep`
  says.
* **`switch_buffer_refines_fifo`** — the same for whole runs from a new buffer.
-/

namespace FreeSwitch.Buffer

open Runs

/-! ## Block operations seen through a window -/

variable {data src : List UInt8}

theorem memcpy_length {off : Nat}
    (h : off + src.length ≤ data.length) : (memcpy data off src).length = data.length := by
  simp only [memcpy, List.length_append, List.length_take, List.length_drop]
  omega

theorem memmove_length {dst src len : Nat} (hdst : dst + len ≤ data.length) :
    (memmove data dst src len).length = data.length := by
  apply memcpy_length
  rw [List.length_take, List.length_drop]
  omega

/-- Moving the window to the front keeps what is seen through it. -/
theorem memmove_window {head used : Nat} (h : head + used ≤ data.length) :
    (memmove data 0 head used).take used = (data.drop head).take used := by
  have hlen : ((data.drop head).take used).length = used := by
    rw [List.length_take, List.length_drop]; omega
  unfold memmove memcpy
  rw [List.take_zero, List.nil_append, List.take_append_of_le_length (by omega),
    List.take_of_length_le (by omega)]

/-- Copying in right behind the window extends it by the copied bytes. -/
theorem memcpy_window {head used : Nat} (h : head + used + src.length ≤ data.length) :
    ((memcpy data (head + used) src).drop head).take (used + src.length)
      = (data.drop head).take used ++ src := by
  have htake : (data.take (head + used)).length = head + used := by
    rw [List.length_take]; omega
  unfold memcpy
  rw [List.append_assoc, List.drop_append_of_le_length (by omega), List.drop_take,
    show head + used - head = used from by omega]
  have hwin : ((data.drop head).take used).length = used := by
    rw [List.length_take, List.length_drop]; omega
  rw [← List.append_assoc, List.take_append_of_le_length]
  · exact List.take_of_length_le (by rw [List.length_append]; omega)
  · rw [List.length_append]; omega

variable {mem : Allocator}

theorem realloc_cases {tmp : List UInt8} {size : Nat}
    (hle : data.length ≤ size) (h : realloc mem data size = some tmp) :
    size ≤ ptrdiffMax ∧ tmp.length = size ∧ ∃ fresh, tmp = data ++ fresh := by
  unfold realloc at h
  split at h
  case isFalse => exact absurd h (by simp)
  case isTrue hfits =>
    obtain ⟨fresh, -, rfl⟩ := Option.map_eq_some_iff.mp h
    refine ⟨hfits, ?_, (List.range (size - data.length)).map fresh, ?_⟩
    · simp only [List.length_append, List.length_take, List.length_map, List.length_range]
      omega
    · rw [List.take_of_length_le hle]

/-! ## The representation invariant -/

structure Wf (b : SwitchBuffer) : Prop where
  nonPartition : b.partition = false
  nonNull : b.data = some b.block
  length : b.block.length = b.datalen
  tally : b.head + b.used = b.actuallyUsed
  bound : b.actuallyUsed ≤ b.datalen
  fits : b.datalen ≤ ptrdiffMax

/-- The queue the buffer holds. -/
def contents (b : SwitchBuffer) : List UInt8 := (b.block.drop b.head).take b.used

variable {b : SwitchBuffer}

theorem Wf.contents_length (h : Wf b) : (contents b).length = b.used := by
  have := h.length; have := h.tally; have := h.bound
  rw [contents, List.length_take, List.length_drop]
  omega

theorem Wf.datalen_lt (h : Wf b) : b.datalen < 2 ^ 63 := by
  have := h.fits
  unfold ptrdiffMax at this
  omega

/-- The parameters no call changes. -/
structure SameParams (b b' : SwitchBuffer) : Prop where
  maxLen : b'.maxLen = b.maxLen
  blocksize : b'.blocksize = b.blocksize
  dynamic : b'.dynamic = b.dynamic

theorem SameParams.refl (b : SwitchBuffer) : SameParams b b := ⟨rfl, rfl, rfl⟩

theorem SameParams.trans {a c : SwitchBuffer} (h₁ : SameParams a b) (h₂ : SameParams b c) :
    SameParams a c :=
  ⟨h₂.maxLen.trans h₁.maxLen, h₂.blocksize.trans h₁.blocksize, h₂.dynamic.trans h₁.dynamic⟩

/-! ## The parts of a write -/

/-- After `reclaim` either the bytes fit behind the content, or the content is in front. -/
theorem reclaim_spec (h : Wf b) (n : Nat) :
    Wf (reclaim b n) ∧ contents (reclaim b n) = contents b ∧ SameParams b (reclaim b n)
      ∧ (reclaim b n).used = b.used ∧ (reclaim b n).datalen = b.datalen
      ∧ ((reclaim b n).actuallyUsed + n ≤ b.datalen ∨ (reclaim b n).head = 0) := by
  have hlen := h.length; have htally := h.tally; have hbound := h.bound
  have hlt := h.datalen_lt
  unfold reclaim
  rw [sizeSub_eq hbound (by omega)]
  split
  case isTrue hsmall =>
    have hblock : (memmove b.block 0 b.head b.used).length = b.block.length :=
      memmove_length (by omega)
    refine ⟨⟨h.nonPartition, rfl, hblock.trans hlen, ?_, ?_, h.fits⟩, ?_, ⟨rfl, rfl, rfl⟩,
      rfl, rfl, Or.inr rfl⟩
    · exact Nat.zero_add _
    · show b.used ≤ b.datalen
      omega
    · show ((memmove b.block 0 b.head b.used).drop 0).take b.used
        = (b.block.drop b.head).take b.used
      rw [List.drop_zero]
      exact memmove_window (by omega)
  case isFalse hroom =>
    exact ⟨h, rfl, .refl b, rfl, rfl, Or.inl (by omega)⟩

theorem mustGrow_iff (h : Wf b) {n : Nat} (hn : n ≤ ptrdiffMax) : mustGrow b n = true ↔
      b.dynamic = true ∧ b.datalen < b.used + n ∧ (b.maxLen = 0 ∨ b.used + n ≤ b.maxLen) := by
  have htally := h.tally; have hbound := h.bound; have hlt := h.datalen_lt
  unfold ptrdiffMax at hn
  unfold mustGrow
  rw [sizeSub_eq (by omega) (by omega), sizeAdd_eq (by omega)]
  simp only [Bool.and_eq_true, Bool.or_eq_true, decide_eq_true_eq, and_assoc]
  constructor
  · rintro ⟨hd, hs, hl⟩; exact ⟨hd, by omega, hl⟩
  · rintro ⟨hd, hs, hl⟩; exact ⟨hd, by omega, hl⟩

/-- The block asked for holds the old block and the new bytes, even where `blocksize` is so
large that its sum wraps. -/
theorem add_le_newSize (h : Wf b) {n : Nat} (hn : n ≤ ptrdiffMax) : b.datalen + n ≤ newSize b n := by
  have hlt := h.datalen_lt
  unfold ptrdiffMax at hn
  unfold newSize
  rw [sizeAdd_eq (a := b.datalen) (b := n) (by omega)]
  split <;> omega

theorem grow_spec {b' : SwitchBuffer} (h : Wf b) {n : Nat}
    (hn : n ≤ ptrdiffMax) (hroom : b.actuallyUsed + n ≤ b.datalen ∨ b.head = 0)
    (hgrow : grow mem b n = some b') :
    Wf b' ∧ contents b' = contents b ∧ SameParams b b' ∧ b'.used = b.used
    ∧ b'.actuallyUsed = b.actuallyUsed
      ∧ (b'.actuallyUsed + n ≤ b'.datalen ∨ b'.head = 0) ∧ ((b' = b ∧ mustGrow b n = false)
        ∨ (mustGrow b n = true ∧ b'.datalen = newSize b n)) := by
  have hlen := h.length; have htally := h.tally; have hbound := h.bound
  unfold grow at hgrow
  split at hgrow
  case isFalse hno =>
    cases hgrow
    refine ⟨h, rfl, .refl _, rfl, rfl, hroom, Or.inl ⟨rfl, ?_⟩⟩
    simpa using hno
  case isTrue hmust =>
    obtain ⟨tmp, htmp, rfl⟩ := Option.map_eq_some_iff.mp hgrow
    have hnew := add_le_newSize h hn
    obtain ⟨hfits, htmplen, fresh, hfresh⟩ := realloc_cases (by omega) htmp
    obtain ⟨-, hshort, -⟩ := (mustGrow_iff h hn).mp hmust
    -- growth is needed only when the content is already in front: `head` does not move
    have hhead : b.head = 0 := by
      rcases hroom with hroom | hhead
      · omega
      · exact hhead
    refine ⟨⟨h.nonPartition, rfl, htmplen, ?_, ?_, hfits⟩, ?_, ⟨rfl, rfl, rfl⟩, rfl, rfl,
      Or.inr rfl, Or.inr ⟨hmust, rfl⟩⟩
    · show 0 + b.used = b.actuallyUsed
      omega
    · show b.actuallyUsed ≤ newSize b n
      omega
    · show (tmp.drop 0).take b.used = (b.block.drop b.head).take b.used
      rw [hhead, List.drop_zero, List.drop_zero, hfresh,
        List.take_append_of_le_length (by omega)]

theorem grow_eq_none {n : Nat} (hgrow : grow mem b n = none) :
    mustGrow b n = true ∧ (newSize b n ≤ ptrdiffMax → mem (newSize b n) = none) := by
  unfold grow at hgrow
  split at hgrow
  case isFalse => exact absurd hgrow (by simp)
  case isTrue hmust =>
    refine ⟨hmust, fun hfits => ?_⟩
    simpa [realloc, hfits] using hgrow

theorem append_spec (h : Wf b)
    (hroom : b.actuallyUsed + src.length ≤ b.datalen ∨ b.head = 0) :
    (b.datalen < b.used + src.length ∧ append b src = (b, 0))
      ∨ (b.used + src.length ≤ b.datalen ∧ ∃ b', append b src = (b', b'.used) ∧ Wf b'
        ∧ contents b' = contents b ++ src ∧ SameParams b b'
        ∧ b'.used = b.used + src.length ∧ b'.datalen = b.datalen) := by
  have hlen := h.length; have htally := h.tally; have hbound := h.bound
  have hlt := h.datalen_lt
  by_cases hshort : b.datalen < b.used + src.length
  · refine Or.inl ⟨hshort, ?_⟩
    unfold append
    rw [sizeSub_eq (by omega) (by omega), if_pos (by omega)]
  · have hspace : b.actuallyUsed + src.length ≤ b.datalen := by omega
    refine Or.inr ⟨by omega, ?_⟩
    unfold append
    rw [sizeSub_eq (by omega) (by omega), if_neg (by omega), sizeAdd_eq (by omega),
      sizeAdd_eq (by omega)]
    refine ⟨_, rfl, ⟨h.nonPartition, rfl, ?_, ?_, hspace, h.fits⟩, ?_, ⟨rfl, rfl, rfl⟩,
      rfl, rfl⟩
    · exact (memcpy_length (by omega)).trans hlen
    · show b.head + (b.used + src.length) = b.actuallyUsed + src.length
      omega
    · show ((memcpy b.block (b.head + b.used) src).drop b.head).take (b.used + src.length)
        = (b.block.drop b.head).take b.used ++ src
      exact memcpy_window (by omega)

/-! ## What a write can do -/

/-- All outcomes of a write. A refusal has its reason: the buffer is fixed, the limit is
reached, or the allocator said no. -/
inductive WriteResult (mem : Allocator) (b : SwitchBuffer) (src : List UInt8)
    (b' : SwitchBuffer) (w : Nat) : Prop where
  | refused (hw : w = 0) (hq : contents b' = contents b) (hused : b'.used = b.used)
      (hdatalen : b'.datalen = b.datalen) (hshort : b.datalen < b.used + src.length)
      (hwhy : b.dynamic = true → b.used + src.length ≤ b.maxLen →
        newSize b src.length ≤ ptrdiffMax → mem (newSize b src.length) = none)
  | fitted (hw : w = b'.used) (hq : contents b' = contents b ++ src)
      (hused : b'.used = b.used + src.length) (hdatalen : b'.datalen = b.datalen)
      (hfit : b.used + src.length ≤ b.datalen)
  | grown (hw : w = b'.used) (hq : contents b' = contents b ++ src)
      (hused : b'.used = b.used + src.length) (hdatalen : b'.datalen = newSize b src.length)
      (hlimit : b.maxLen = 0 ∨ b.used + src.length ≤ b.maxLen)
      (hshort : b.datalen < b.used + src.length)

theorem set_head_zero (hhead : b.head = 0) : ({ b with head := 0 } : SwitchBuffer) = b := by
  cases b
  cases hhead
  rfl

theorem newSize_congr {b' : SwitchBuffer} (hp : SameParams b b')
    (hd : b'.datalen = b.datalen) (n : Nat) : newSize b' n = newSize b n := by
  unfold newSize
  rw [hp.blocksize, hd]

theorem write_cases (h : Wf b) (mem : Allocator) (src : Object) :
    ∃ b' w, switchBufferWrite mem b src = some (b', w) ∧ Wf b' ∧ SameParams b b'
      ∧ WriteResult mem b src.bytes b' w := by
  have hn := src.fits
  have htally := h.tally; have hbound := h.bound; have hlt := h.datalen_lt
  unfold switchBufferWrite
  rw [h.nonPartition, h.nonNull]
  simp only [Bool.false_eq_true, if_false, Option.isNone_some]
  by_cases hempty : src.bytes.length = 0
  · rw [if_pos hempty]
    refine ⟨b, b.used, rfl, h, .refl b, .fitted rfl ?_ (by omega) rfl (by omega)⟩
    rw [List.length_eq_zero_iff.mp hempty, List.append_nil]
  rw [if_neg hempty]
  obtain ⟨hwf₁, hq₁, hp₁, hused₁, hdatalen₁, hroom₁⟩ := reclaim_spec h src.bytes.length
  generalize hb₁ : reclaim b src.bytes.length = b₁ at *
  rw [← hdatalen₁] at hroom₁
  cases hgrow : grow mem b₁ src.bytes.length with
  | none =>
    obtain ⟨hmust, hno⟩ := grow_eq_none hgrow
    obtain ⟨-, hshort, -⟩ := (mustGrow_iff hwf₁ hn).mp hmust
    -- the reset of `head` is harmless: the content is in front already
    have hhead : b₁.head = 0 := by
      have := hwf₁.tally
      rcases hroom₁ with hroom | hhead
      · omega
      · exact hhead
    simp only [set_head_zero hhead]
    refine ⟨b₁, 0, rfl, hwf₁, hp₁, .refused rfl hq₁ hused₁ hdatalen₁ (by omega) ?_⟩
    rw [newSize_congr hp₁ hdatalen₁] at hno
    exact fun _ _ hfits => hno hfits
  | some b₂ =>
    obtain ⟨hwf₂, hq₂, hp₂, hused₂, hau₂, hroom₂, hhow⟩ := grow_spec hwf₁ hn hroom₁ hgrow
    have hp := hp₁.trans hp₂
    simp only
    rcases append_spec hwf₂ hroom₂ with ⟨hshort, happ⟩ | ⟨hfit, b₃, happ, hwf₃, hq₃, hp₃, hused₃, hd₃⟩
    · rw [happ]
      rcases hhow with ⟨rfl, hno⟩ | ⟨-, hnew⟩
      · refine ⟨b₂, 0, rfl, hwf₂, hp, .refused rfl hq₁ hused₁ hdatalen₁ (by omega) ?_⟩
        -- growth was not even tried, so the buffer is fixed or the limit is reached
        intro hdyn hlimit _
        have hmust : mustGrow b₂ src.bytes.length = true := by
          rw [mustGrow_iff hwf₂ hn, hp.dynamic, hp.maxLen, hused₁]
          exact ⟨hdyn, by omega, Or.inr hlimit⟩
        rw [hmust] at hno
        cases hno
      · -- a grown block always has the room
        have := add_le_newSize hwf₁ hn
        have := hwf₁.bound; have := hwf₁.tally
        omega
    · rw [happ]
      refine ⟨b₃, b₃.used, rfl, hwf₃, hp.trans hp₃, ?_⟩
      have hq : contents b₃ = contents b ++ src.bytes := by rw [hq₃, hq₂, hq₁]
      rcases hhow with ⟨rfl, -⟩ | ⟨hmust, hnew⟩
      · exact .fitted rfl hq (by omega) (by omega) (by omega)
      · obtain ⟨-, hshort, hlimit⟩ := (mustGrow_iff hwf₁ hn).mp hmust
        refine .grown rfl hq (by omega) ?_ ?_ (by omega)
        · rw [hd₃, hnew, newSize_congr hp₁ hdatalen₁]
        · rw [hp₁.maxLen, hused₁] at hlimit
          exact hlimit

theorem WriteResult.of_ne_zero {b' : SwitchBuffer}
    {w : Nat} (h : WriteResult mem b src b' w) (hw : w ≠ 0) : contents b' = contents b ++ src := by
  cases h with
  | refused hw' _ _ _ _ _ => exact absurd hw' hw
  | fitted _ hq _ _ _ => exact hq
  | grown _ hq _ _ _ _ => exact hq

/-- A write that returns 0 has not changed the queue (an empty write into an empty buffer is
the one that returns 0 without being refused). -/
theorem WriteResult.of_eq_zero {b' : SwitchBuffer}
    {w : Nat} (h : WriteResult mem b src b' w) (hw : w = 0) : contents b' = contents b := by
  cases h with
  | refused _ hq _ _ _ _ => exact hq
  | fitted hw' hq hused _ _ =>
    rw [hq, List.length_eq_zero_iff.mp (show src.length = 0 from by omega), List.append_nil]
  | grown hw' hq hused _ _ hshort =>
    rw [hq, List.length_eq_zero_iff.mp (show src.length = 0 from by omega), List.append_nil]

/-! ## The other calls -/

theorem reading_eq_min (b : SwitchBuffer) (n : Nat) : reading b n = min n b.used := by
  unfold reading
  split <;> omega

/-- Advancing `head` by what was read drops it from the queue. -/
theorem advance_spec (h : Wf b) (n : Nat) :
    Wf { b with used := sizeSub b.used (reading b n), head := b.head + reading b n }
      ∧ contents { b with used := sizeSub b.used (reading b n), head := b.head + reading b n }
        = (contents b).drop n
      ∧ sizeSub b.used (reading b n) = b.used - n := by
  have htally := h.tally; have hbound := h.bound; have hlt := h.datalen_lt
  rw [reading_eq_min, sizeSub_eq (by omega) (by omega)]
  refine ⟨⟨h.nonPartition, h.nonNull, h.length, ?_, h.bound, h.fits⟩, ?_, by omega⟩
  · show b.head + min n b.used + (b.used - min n b.used) = b.actuallyUsed
    omega
  · show (b.block.drop (b.head + min n b.used)).take (b.used - min n b.used) = (contents b).drop n
    rw [contents, List.drop_take, List.drop_drop]
    rcases Nat.le_total n b.used with hle | hle
    · rw [Nat.min_eq_left hle]
    · rw [Nat.min_eq_right hle, Nat.sub_self, show b.used - n = 0 from by omega,
        List.take_zero, List.take_zero]

theorem contents_eq_nil (hused : b.used < 1) : contents b = [] := by
  rw [contents, show b.used = 0 from by omega, List.take_zero]

theorem set_used_zero (hused : b.used < 1) : ({ b with used := 0 } : SwitchBuffer) = b := by
  obtain ⟨data, head, used⟩ := b
  obtain rfl : used = 0 := by simpa using hused
  rfl

theorem toss_spec (h : Wf b) (n : Nat) :
    Wf (switchBufferToss b n).1 ∧ contents (switchBufferToss b n).1 = (contents b).drop n
      ∧ SameParams b (switchBufferToss b n).1 ∧ (switchBufferToss b n).2 = ((contents b).drop n).length
      ∧ (switchBufferToss b n).1.used = b.used - n ∧ (switchBufferToss b n).1.datalen = b.datalen := by
  unfold switchBufferToss
  split
  case isTrue hempty =>
    rw [set_used_zero hempty, contents_eq_nil hempty]
    refine ⟨h, ?_, .refl b, ?_, ?_, rfl⟩
    · simp
    · simp
    · show b.used = b.used - n
      omega
  case isFalse hne =>
    obtain ⟨hwf, hq, hused⟩ := advance_spec h n
    refine ⟨hwf, hq, ⟨rfl, rfl, rfl⟩, ?_, hused, rfl⟩
    show sizeSub b.used (reading b n) = _
    rw [List.length_drop, h.contents_length, hused]

theorem window_take (b : SwitchBuffer) (n : Nat) :
    (b.block.drop b.head).take (reading b n) = (contents b).take n := by
  rw [contents, List.take_take, reading_eq_min]

theorem read_fst (b : SwitchBuffer) (n : Nat) :
    (switchBufferRead b n).1 = (switchBufferToss b n).1 := by
  unfold switchBufferRead switchBufferToss
  split <;> rfl

theorem read_spec (h : Wf b) (n : Nat) :
    Wf (switchBufferRead b n).1 ∧ contents (switchBufferRead b n).1 = (contents b).drop n
      ∧ SameParams b (switchBufferRead b n).1
      ∧ (switchBufferRead b n).2 = ((contents b).take n, min n (contents b).length)
      ∧ (switchBufferRead b n).1.used = b.used - n ∧ (switchBufferRead b n).1.datalen = b.datalen := by
  obtain ⟨hwf, hq, hsame, -, hused, hdatalen⟩ := toss_spec h n
  rw [read_fst]
  refine ⟨hwf, hq, hsame, ?_, hused, hdatalen⟩
  unfold switchBufferRead
  split
  case isTrue hempty =>
    rw [contents_eq_nil hempty]
    simp
  case isFalse hne => rw [window_take, reading_eq_min, h.contents_length]

theorem peek_spec (h : Wf b) (n : Nat) : (switchBufferPeek b n).1 = b
      ∧ (switchBufferPeek b n).2 = ((contents b).take n, min n (contents b).length) := by
  unfold switchBufferPeek
  split
  case isTrue hempty =>
    rw [set_used_zero hempty, contents_eq_nil hempty]
    simp
  case isFalse hne =>
    refine ⟨rfl, ?_⟩
    rw [window_take, reading_eq_min, h.contents_length]

theorem zero_spec (h : Wf b) :
    ∃ b', switchBufferZero b = some b' ∧ Wf b' ∧ contents b' = [] ∧ SameParams b b'
      ∧ b'.used = 0 ∧ b'.datalen = b.datalen := by
  unfold switchBufferZero
  rw [h.nonNull]
  simp only [Option.isNone_some, Bool.false_eq_true, if_false]
  refine ⟨_, rfl, ⟨h.nonPartition, rfl, h.length, rfl, Nat.zero_le _, h.fits⟩, ?_,
    ⟨rfl, rfl, rfl⟩, rfl, rfl⟩
  exact List.take_zero

/-! ## The queue -/

/-- What each call does to the queue it is made on, as far as its reply tells. Whether a
`slide_write` had to make room first depends on the allocator, so both outcomes are
allowed; a second refusal leaves the room it made. -/
def FifoStep (q : List UInt8) (label : Call × Reply) (q' : List UInt8) : Prop :=
  let reply := label.2
  match label.1 with
  | .write src => (reply.ret ≠ 0 → q' = q ++ src.bytes) ∧ (reply.ret = 0 → q' = q)
  | .zwrite src =>
      (reply.ret ≠ 0 → q' = q ++ src.bytes ∨ q' = src.bytes) ∧ (reply.ret = 0 → q' = [])
  | .slideWrite src =>
      (reply.ret ≠ 0 → q' = q ++ src.bytes ∨ q' = q.drop src.bytes.length ++ src.bytes)
        ∧ (reply.ret = 0 → q' = q.drop src.bytes.length)
  | .read n => reply.out = q.take n ∧ reply.ret = min n q.length ∧ q' = q.drop n
  | .peek n => reply.out = q.take n ∧ reply.ret = min n q.length ∧ q' = q
  | .toss n => q' = q.drop n ∧ reply.ret = q'.length
  | .zero => q' = []

/-- The second write of a call, in a buffer where room was made. -/
theorem rewrite_spec (h : Wf b) {q p : List UInt8} (hq : contents b = q) (mem : Allocator)
    (src : Object) : ∃ b' w, switchBufferWrite mem b src = some (b', w) ∧ Wf b' ∧
      (w ≠ 0 → contents b' = p ∨ contents b' = q ++ src.bytes) ∧ (w = 0 → contents b' = q) := by
  obtain ⟨b', w, hw, hwf, -, hres⟩ := write_cases h mem src
  refine ⟨b', w, hw, hwf, fun hne => .inr ?_, fun hzero => ?_⟩
  · rw [hres.of_ne_zero hne, hq]
  · rw [hres.of_eq_zero hzero, hq]

theorem zwrite_spec (h : Wf b) (mem₁ mem₂ : Allocator) (src : Object) :
    ∃ b' w, switchBufferZwrite mem₁ mem₂ b src = some (b', w) ∧ Wf b'
      ∧ FifoStep (contents b) (.zwrite src, { ret := w }) (contents b') := by
  obtain ⟨b₁, w₁, hw₁, hwf₁, -, hres₁⟩ := write_cases h mem₁ src
  simp only [switchBufferZwrite, h.nonPartition, Bool.false_eq_true, if_false, hw₁,
    Option.bind_eq_bind, Option.bind_some]
  by_cases hzero : w₁ = 0
  · obtain ⟨b₂, hz, hwf₂, hq₂, -⟩ := zero_spec hwf₁
    rw [if_pos hzero, hz, Option.bind_some]
    exact rewrite_spec hwf₂ hq₂ mem₂ src
  · rw [if_neg hzero]
    exact ⟨b₁, w₁, rfl, hwf₁, fun _ => Or.inl (hres₁.of_ne_zero hzero),
      fun hw => absurd hw hzero⟩

theorem slideWrite_spec (h : Wf b) (mem₁ mem₂ : Allocator) (src : Object) :
    ∃ b' w, switchBufferSlideWrite mem₁ mem₂ b src = some (b', w) ∧ Wf b'
      ∧ FifoStep (contents b) (.slideWrite src, { ret := w }) (contents b') := by
  obtain ⟨b₁, w₁, hw₁, hwf₁, -, hres₁⟩ := write_cases h mem₁ src
  simp only [switchBufferSlideWrite, h.nonPartition, Bool.false_eq_true, if_false, hw₁,
    Option.bind_eq_bind, Option.bind_some]
  by_cases hzero : w₁ = 0
  · obtain ⟨hwf₂, hq₂, -⟩ := toss_spec hwf₁ src.bytes.length
    rw [hres₁.of_eq_zero hzero] at hq₂
    rw [if_pos hzero]
    exact rewrite_spec hwf₂ hq₂ mem₂ src
  · rw [if_neg hzero]
    exact ⟨b₁, w₁, rfl, hwf₁, fun _ => Or.inl (hres₁.of_ne_zero hzero),
      fun hw => absurd hw hzero⟩

/-- Every call returns, keeps the invariant and is a step of the queue. -/
theorem perform_refines (h : Wf b) (mem₁ mem₂ : Allocator) (c : Call) :
    ∃ b' reply, perform mem₁ mem₂ b c = some (b', reply) ∧ Wf b'
      ∧ FifoStep (contents b) (c, reply) (contents b') := by
  cases c with
  | write src =>
    obtain ⟨b', w, hw, hwf, -, hres⟩ := write_cases h mem₁ src
    exact ⟨b', { ret := w }, by simp [perform, hw], hwf, hres.of_ne_zero, hres.of_eq_zero⟩
  | zwrite src =>
    obtain ⟨b', w, hw, hwf, hfifo⟩ := zwrite_spec h mem₁ mem₂ src
    exact ⟨b', { ret := w }, by simp [perform, hw], hwf, hfifo⟩
  | slideWrite src =>
    obtain ⟨b', w, hw, hwf, hfifo⟩ := slideWrite_spec h mem₁ mem₂ src
    exact ⟨b', { ret := w }, by simp [perform, hw], hwf, hfifo⟩
  | read n =>
    obtain ⟨hwf, hq, -, hout, -⟩ := read_spec h n
    refine ⟨_, _, rfl, hwf, ?_, ?_, hq⟩
    · show (switchBufferRead b n).2.1 = _
      rw [hout]
    · show (switchBufferRead b n).2.2 = _
      rw [hout]
  | peek n =>
    obtain ⟨hb, hout⟩ := peek_spec h n
    refine ⟨_, _, rfl, ?_, ?_, ?_, ?_⟩
    · rw [hb]; exact h
    · show (switchBufferPeek b n).2.1 = _
      rw [hout]
    · show (switchBufferPeek b n).2.2 = _
      rw [hout]
    · rw [hb]
  | toss n =>
    obtain ⟨hwf, hq, -, hret, -⟩ := toss_spec h n
    refine ⟨_, _, rfl, hwf, hq, ?_⟩
    show (switchBufferToss b n).2 = _
    rw [hret, hq]
  | zero =>
    obtain ⟨b', hz, hwf, hq, -⟩ := zero_spec h
    exact ⟨b', { ret := 0 }, by simp [perform, hz], hwf, hq⟩

/-! ## New buffers -/

/-- A buffer as `switch_buffer_create`, or `switch_buffer_create_dynamic` with some start
length, makes it. -/
def NewBuffer (b : SwitchBuffer) : Prop :=
  (∃ maxLen, switchBufferCreate maxLen = some b)
    ∨ ∃ blocksize startLen maxLen : UInt64, 0 < startLen
      ∧ switchBufferCreateDynamic blocksize startLen maxLen = some b

theorem createDynamic_cases {blocksize startLen maxLen : UInt64}
    (hstart : 0 < startLen) (h : switchBufferCreateDynamic blocksize startLen maxLen = some b) :
    Wf b ∧ contents b = [] ∧ b.used = 0 ∧ b.datalen = startLen.toNat
      ∧ b.maxLen = maxLen.toNat ∧ b.blocksize = blocksize.toNat ∧ b.dynamic = true := by
  unfold switchBufferCreateDynamic at h
  split at h
  case isFalse => exact absurd h (by simp)
  case isTrue hfits =>
    have hpos : startLen.toNat ≠ 0 := by
      have : (0 : UInt64).toNat < startLen.toNat := hstart
      simp at this
      omega
    rw [if_neg hpos] at h
    cases h
    refine ⟨⟨rfl, rfl, ?_, rfl, Nat.zero_le _, hfits⟩, ?_, rfl, rfl, rfl, rfl, rfl⟩
    · exact List.length_replicate
    · exact List.take_zero

theorem NewBuffer.wf (h : NewBuffer b) : Wf b ∧ contents b = [] := by
  rcases h with ⟨maxLen, h⟩ | ⟨blocksize, startLen, maxLen, hstart, h⟩
  · unfold switchBufferCreate at h
    split at h
    case isFalse => exact absurd h (by simp)
    case isTrue hfits =>
      cases h
      refine ⟨⟨rfl, rfl, ?_, rfl, Nat.zero_le _, hfits⟩, ?_⟩
      · exact List.length_replicate
      · exact List.take_zero
  · obtain ⟨hwf, hq, -⟩ := createDynamic_cases hstart h
    exact ⟨hwf, hq⟩

/-! ## Whole runs -/

/-- The simulation relation: a well-formed buffer and the queue in its window. -/
def Represents (b : SwitchBuffer) (q : List UInt8) : Prop := Wf b ∧ contents b = q

theorem step_simulates (b : SwitchBuffer) (q : List UInt8) (label : Call × Reply)
    (b' : SwitchBuffer) (hrep : Represents b q) (hstep : Step b label b') :
    ∃ q', FifoStep q label q' ∧ Represents b' q' := by
  obtain ⟨hwf, rfl⟩ := hrep
  obtain ⟨mem₁, mem₂, hperform⟩ := hstep
  obtain ⟨b₁, reply, heq, hwf', hfifo⟩ := perform_refines hwf mem₁ mem₂ label.1
  obtain ⟨rfl, rfl⟩ : b₁ = b' ∧ reply = label.2 := by
    rw [hperform] at heq
    simpa [eq_comm] using heq
  exact ⟨contents b₁, hfifo, hwf', rfl⟩

/-- **A buffer is a byte queue.** Whatever calls are made on a new buffer, and whatever
`realloc` answers, the replies are those of a queue run from the empty queue, the counters
agree with each other and with the block, and every further call returns. -/
theorem switch_buffer_refines_fifo {b₀ b : SwitchBuffer} {labels : List (Call × Reply)}
    (hnew : NewBuffer b₀) (hrun : Run Step b₀ labels b) :
    Run FifoStep [] labels (contents b)
      ∧ b.head + b.used = b.actuallyUsed ∧ b.actuallyUsed ≤ b.datalen
      ∧ b.datalen = b.block.length ∧ (contents b).length = b.used
      ∧ ∀ mem₁ mem₂ c, (perform mem₁ mem₂ b c).isSome := by
  obtain ⟨hwf₀, hq₀⟩ := hnew.wf
  obtain ⟨q, hspec, hwf, rfl⟩ := hrun.simulate step_simulates [] ⟨hwf₀, hq₀⟩
  refine ⟨hspec, hwf.tally, hwf.bound, hwf.length.symm, hwf.contents_length, ?_⟩
  intro mem₁ mem₂ c
  obtain ⟨b', reply, heq, -⟩ := perform_refines hwf mem₁ mem₂ c
  rw [heq]
  rfl

/-- Three bytes into a buffer of two: the block grows, and the bytes come out in order. -/
theorem switch_buffer_refines_fifo_grown :
    ∃ b₀ b, NewBuffer b₀
      ∧ Run Step b₀ [(.write ⟨[1, 2, 3], by decide⟩, { ret := 3 }),
          (.read 2, { ret := 2, out := [1, 2] })] b
      ∧ Run FifoStep [] [(.write ⟨[1, 2, 3], by decide⟩, { ret := 3 }),
          (.read 2, { ret := 2, out := [1, 2] })] [3] := by
  let b : SwitchBuffer :=
    { data := some [1, 2, 3, 0, 0], head := 2, used := 1, actuallyUsed := 3, datalen := 5,
      maxLen := 8, blocksize := 2, dynamic := true, partition := false }
  have hnew : NewBuffer ((switchBufferCreateDynamic 2 2 8).get rfl) :=
    Or.inr ⟨2, 2, 8, by decide, rfl⟩
  have hrun : Run Step ((switchBufferCreateDynamic 2 2 8).get rfl)
      [(.write ⟨[1, 2, 3], by decide⟩, { ret := 3 }),
        (.read 2, { ret := 2, out := [1, 2] })] b :=
    .cons (show Step _ _ { b with head := 0, used := 3 }
        from ⟨fun _ => some fun _ => 0, fun _ => none, by decide +kernel⟩)
      (.cons ⟨fun _ => none, fun _ => none, by decide +kernel⟩ (.nil b))
  exact ⟨_, b, hnew, hrun, (switch_buffer_refines_fifo hnew hrun).1⟩

end FreeSwitch.Buffer
