import FreeSwitch.Buffer.Fifo

/-!
# `esl_buffer` — `libs/esl/src/esl_buffer.c`

The buffer of the event socket library is that of `src/switch_buffer.c` without its kinds: it always
grows, and the limit is looked at when the contents are moved to the front, not when the block grows.
Without a limit the two do the same, so what is known of one holds of the other.

`esl_buffer_read_packet` looks at bytes behind those that are unread. Behind the block they are whatever
lies there: `outside`, by the offset from the start of the block.

* **`write_toSwitch`**, **`read_toSwitch`** — the two buffers.
* **`Step`** — the calls.
-/

namespace FreeSwitch.Esl

open Buffer (Allocator Object Reply realloc memcpy memmove sizeAdd sizeSub SwitchBuffer)

structure EslBuffer where
  data : Option (List UInt8)
  head : Nat
  used : Nat
  actuallyUsed : Nat
  datalen : Nat
  maxLen : Nat
  blocksize : Nat
  deriving DecidableEq

namespace EslBuffer

variable (b : EslBuffer)

/-- The bytes at `buffer->data`. -/
def block : List UInt8 := b.data.getD []

end EslBuffer

def eslBufferCreate (blocksize startLen maxLen : UInt64) : Option EslBuffer :=
  if startLen.toNat ≤ Buffer.ptrdiffMax then
    some { data := if startLen.toNat = 0 then none else some (List.replicate startLen.toNat 0),
           head := 0, used := 0, actuallyUsed := 0, datalen := startLen.toNat, maxLen := maxLen.toNat,
           blocksize := blocksize.toNat }
  else none

/-- How many bytes a read of `datalen` covers. -/
def reading (b : EslBuffer) (datalen : Nat) : Nat := if b.used ≥ datalen then datalen else b.used

/-- Returns the buffer and what the caller gets. -/
def eslBufferRead (b : EslBuffer) (datalen : Nat) : EslBuffer × Reply :=
  if b.used < 1 then ({ b with used := 0 }, { ret := 0 })
  else
    ({ b with used := sizeSub b.used (reading b datalen), head := b.head + reading b datalen },
      { ret := reading b datalen, out := (b.block.drop b.head).take (reading b datalen) })

/-- The byte at an offset of the block, or behind it. -/
def byteAt (outside : Nat → UInt8) (b : EslBuffer) (i : Nat) : UInt8 := b.block.getD i (outside i)

/-- The loop of `esl_buffer_read_packet`, with `n` bytes to go: where a packet ends. -/
def packetEnd (byte : Nat → UInt8) (e : Nat) : Nat → Nat → Option Nat
  | 0, _ => none
  | n + 1, p =>
    if byte p = 0 then none
    else if byte p = 10 then
      let pe := if byte (p + 1) = 13 then p + 2 else p + 1
      if pe ≤ e ∧ byte pe = 10 then some (pe + 1) else packetEnd byte e n (p + 1)
    else packetEnd byte e n (p + 1)

def eslBufferReadPacket (outside : Nat → UInt8) (b : EslBuffer) (maxlen : Nat) : EslBuffer × Reply :=
  match packetEnd (byteAt outside b) (b.head + b.used) b.used b.head with
  | some pe => eslBufferRead b (if pe - b.head > maxlen then maxlen else pe - b.head)
  | none => eslBufferRead b 0

/-- First part of `esl_buffer_write`. -/
def reclaim (b : EslBuffer) (datalen : Nat) : EslBuffer :=
  if sizeSub b.datalen b.actuallyUsed < datalen ∧ (b.maxLen = 0 ∨
    sizeAdd b.used datalen ≤ b.maxLen) then
    { b with data := some (memmove b.block 0 b.head b.used), head := 0, actuallyUsed := b.used }
  else b

def newSize (b : EslBuffer) (datalen : Nat) : Nat :=
  if sizeAdd b.datalen b.blocksize > sizeAdd b.datalen datalen then sizeAdd b.datalen b.blocksize
  else sizeAdd b.datalen datalen

/-- Second part of `esl_buffer_write`; `none` is a refused `realloc`, which leaves `head` reset. -/
def grow (mem : Allocator) (b : EslBuffer) (datalen : Nat) : Option EslBuffer :=
  if sizeSub b.datalen b.used < datalen then
    (realloc mem b.block (newSize b datalen)).map fun data1 =>
      { b with data := some data1, head := 0, datalen := newSize b datalen }
  else some b

/-- Last part of `esl_buffer_write`. -/
def append (b : EslBuffer) (src : List UInt8) : EslBuffer × Nat :=
  if sizeSub b.datalen b.used < src.length then (b, 0)
  else
    let b' :=
      { b with data := some (memcpy b.block (b.head + b.used) src), used := sizeAdd b.used src.length,
                       actuallyUsed := sizeAdd b.actuallyUsed src.length }
    (b', b'.used)

def eslBufferWrite (mem : Allocator) (b : EslBuffer) (src : Object) : Option (EslBuffer × Nat) :=
  if b.data.isNone then none
  else if src.bytes.length = 0 then some (b, b.used)
  else
    let b₁ := reclaim b src.bytes.length
    match grow mem b₁ src.bytes.length with
    | none => some ({ b₁ with head := 0 }, 0)
    | some b₂ => some (append b₂ src.bytes)

/-! ## Calls -/

inductive Call where
  | write (src : Object)
  | read (len : Nat)
  | readPacket (outside : Nat → UInt8) (maxlen : Nat)

def perform (mem : Allocator) (b : EslBuffer) : Call → Option (EslBuffer × Reply)
  | .write src => (eslBufferWrite mem b src).map fun (b', w) => (b', { ret := w })
  | .read len => some (eslBufferRead b len)
  | .readPacket outside maxlen => some (eslBufferReadPacket outside b maxlen)

/-- One call with its reply, whatever the allocator does. -/
def Step (b : EslBuffer) (label : Call × Reply) (b' : EslBuffer) : Prop :=
  ∃ mem, perform mem b label.1 = some (b', label.2)

/-! ## The other buffer -/

def EslBuffer.toSwitch (b : EslBuffer) : SwitchBuffer where
  data := b.data
  head := b.head
  used := b.used
  actuallyUsed := b.actuallyUsed
  datalen := b.datalen
  maxLen := b.maxLen
  blocksize := b.blocksize
  dynamic := true
  partition := false

section ToSwitch

variable {b : EslBuffer}

theorem read_toSwitch (b : EslBuffer) (n : Nat) :
    (eslBufferRead b n).1.toSwitch = (Buffer.switchBufferRead b.toSwitch n).1 ∧
      (eslBufferRead b n).2.out = (Buffer.switchBufferRead b.toSwitch n).2.1 ∧
        (eslBufferRead b n).2.ret = (Buffer.switchBufferRead b.toSwitch n).2.2 := by
  by_cases h : b.used < 1
  · have h' : b.toSwitch.used < 1 := h
    rw [eslBufferRead, if_pos h, Buffer.switchBufferRead, if_pos h']
    exact ⟨rfl, rfl, rfl⟩
  · have h' : ¬b.toSwitch.used < 1 := h
    rw [eslBufferRead, if_neg h, Buffer.switchBufferRead, if_neg h']
    exact ⟨rfl, rfl, rfl⟩

theorem reclaim_toSwitch (hmax : b.maxLen = 0) (n : Nat) :
    (reclaim b n).toSwitch = Buffer.reclaim b.toSwitch n := by
  have hsame : (sizeSub b.datalen b.actuallyUsed < n ∧ (b.maxLen = 0 ∨ sizeAdd b.used n ≤ b.maxLen)) ↔
      sizeSub b.toSwitch.datalen b.toSwitch.actuallyUsed < n := ⟨fun h => h.1, fun h => ⟨h, .inl hmax⟩⟩
  by_cases h : sizeSub b.toSwitch.datalen b.toSwitch.actuallyUsed < n
  · rw [reclaim, if_pos (hsame.mpr h), Buffer.reclaim, if_pos h]
    rfl
  · rw [reclaim, if_neg (fun h' => h (hsame.mp h')), Buffer.reclaim, if_neg h]

theorem grow_toSwitch (hmax : b.maxLen = 0) (mem : Allocator) (n : Nat) :
    (grow mem b n).map EslBuffer.toSwitch = Buffer.grow mem b.toSwitch n := by
  have hmust : Buffer.mustGrow b.toSwitch n = decide (sizeSub b.datalen b.used < n) := by
    show (true && decide (sizeSub b.datalen b.used < n) && (decide (b.maxLen = 0) || _)) = _
    rw [decide_eq_true hmax, Bool.true_or, Bool.and_true, Bool.true_and]
  rw [Buffer.grow, hmust, grow]
  by_cases h : sizeSub b.datalen b.used < n
  · rw [if_pos h, if_pos (decide_eq_true h), Option.map_map]
    rfl
  · rw [if_neg h, if_neg (by simpa using h)]
    rfl

theorem append_toSwitch (b : EslBuffer) (src : List UInt8) :
    ((append b src).1.toSwitch, (append b src).2) = Buffer.append b.toSwitch src := by
  by_cases h : sizeSub b.datalen b.used < src.length
  · have h' : sizeSub b.toSwitch.datalen b.toSwitch.used < src.length := h
    rw [append, if_pos h, Buffer.append, if_pos h']
  · have h' : ¬sizeSub b.toSwitch.datalen b.toSwitch.used < src.length := h
    rw [append, if_neg h, Buffer.append, if_neg h']
    rfl

theorem reclaim_maxLen (b : EslBuffer) (n : Nat) : (reclaim b n).maxLen = b.maxLen := by
  unfold reclaim
  split <;> rfl

theorem write_toSwitch (hmax : b.maxLen = 0) (mem : Allocator) (src : Object) :
    (eslBufferWrite mem b src).map (fun r => (r.1.toSwitch, r.2)) =
      Buffer.switchBufferWrite mem b.toSwitch src := by
  have hmax₁ : (reclaim b src.bytes.length).maxLen = 0 := (reclaim_maxLen b _).trans hmax
  have hgrow := grow_toSwitch hmax₁ mem src.bytes.length
  rw [reclaim_toSwitch hmax] at hgrow
  have hpartition : ¬b.toSwitch.partition = true := Bool.false_ne_true
  rw [Buffer.switchBufferWrite, if_neg hpartition, eslBufferWrite]
  by_cases hnull : b.data.isNone
  · have hnull' : b.toSwitch.data.isNone = true := hnull
    rw [if_pos hnull, if_pos hnull']
    rfl
  · have hnull' : ¬b.toSwitch.data.isNone = true := hnull
    rw [if_neg hnull, if_neg hnull']
    by_cases hempty : src.bytes.length = 0
    · rw [if_pos hempty, if_pos hempty]
      rfl
    · rw [if_neg hempty, if_neg hempty]
      simp only [← hgrow]
      cases hb₂ : grow mem (reclaim b src.bytes.length) src.bytes.length with
      | none =>
        show some (_, 0) = some (_, 0)
        rw [← reclaim_toSwitch hmax]
        rfl
      | some b₂ =>
        show some _ = some _
        rw [← append_toSwitch]

end ToSwitch

end FreeSwitch.Esl
