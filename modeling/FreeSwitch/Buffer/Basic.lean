import FreeSwitch.Lib.Run

/-!
# `switch_buffer` — the byte buffer of `src/switch_buffer.c`

The storage behind `buffer->data` is a byte list, `head` is the offset `head - data`, and
the three counters are kept apart exactly as the source keeps them: nothing here assumes
that they agree. `switch_size_t` is 64 bits wide, and its additions and subtractions wrap.

`realloc` is a parameter of every call that can grow the buffer: an `Allocator` decides,
from the size asked for, whether the block is granted and what its fresh bytes hold.
`switch_assert` ends the process, so a call that fails an assertion has no result.
-/

namespace FreeSwitch.Buffer

/-! ## Sizes and C objects -/

/-- `PTRDIFF_MAX`: no C object is larger, and `malloc` and `realloc` refuse to make one. -/
def ptrdiffMax : Nat := 2 ^ 63 - 1

/-- Addition of `switch_size_t`. -/
def sizeAdd (a b : Nat) : Nat := (a + b) % 2 ^ 64

def sizeSub (a b : Nat) : Nat := (a + 2 ^ 64 - b) % 2 ^ 64

theorem sizeAdd_eq {a b : Nat} (h : a + b < 2 ^ 64) : sizeAdd a b = a + b :=
  Nat.mod_eq_of_lt h

theorem sizeSub_eq {a b : Nat} (hle : b ≤ a) (ha : a < 2 ^ 64) : sizeSub a b = a - b := by
  unfold sizeSub
  rw [show a + 2 ^ 64 - b = (a - b) + 2 ^ 64 from by omega, Nat.add_mod_right]
  exact Nat.mod_eq_of_lt (by omega)

/-- The bytes a caller passes in: an object of the C program, hence of bounded size. -/
structure Object where
  bytes : List UInt8
  fits : bytes.length ≤ ptrdiffMax

/-- What the allocator does with a request of a given size: refuse it, or grant it with
these indeterminate bytes. -/
abbrev Allocator := Nat → Option (Nat → UInt8)

/-- `realloc(data, size)`: the common prefix survives, the rest of the block is fresh. -/
def realloc (mem : Allocator) (data : List UInt8) (size : Nat) : Option (List UInt8) :=
  if size ≤ ptrdiffMax then
    (mem size).map fun fresh =>
      data.take size ++ (List.range (size - data.length)).map fresh
  else none

def memcpy (data : List UInt8) (off : Nat) (src : List UInt8) : List UInt8 :=
  data.take off ++ src ++ data.drop (off + src.length)

def memmove (data : List UInt8) (dst src len : Nat) : List UInt8 :=
  memcpy data dst ((data.drop src).take len)

/-! ## The buffer -/

/-- `struct switch_buffer`. -/
structure SwitchBuffer where
  data : Option (List UInt8)
  head : Nat
  used : Nat
  actuallyUsed : Nat
  datalen : Nat
  maxLen : Nat
  blocksize : Nat
  dynamic : Bool
  partition : Bool
  deriving DecidableEq

/-- The bytes at `buffer->data`. -/
def SwitchBuffer.block (b : SwitchBuffer) : List UInt8 := b.data.getD []

/-- `switch_core_alloc` clears the memory it returns. -/
def switchBufferCreate (maxLen : UInt64) : Option SwitchBuffer :=
  if maxLen.toNat ≤ ptrdiffMax then
    some { data := some (List.replicate maxLen.toNat 0), head := 0, used := 0,
           actuallyUsed := 0, datalen := maxLen.toNat, maxLen := 0, blocksize := 0,
           dynamic := false, partition := false }
  else none

/-- With `start_len = 0` there is no allocation and `data` stays `NULL`. -/
def switchBufferCreateDynamic (blocksize startLen maxLen : UInt64) : Option SwitchBuffer :=
  if startLen.toNat ≤ ptrdiffMax then
    some { data := if startLen.toNat = 0 then none else some (List.replicate startLen.toNat 0),
           head := 0, used := 0, actuallyUsed := 0, datalen := startLen.toNat,
           maxLen := maxLen.toNat, blocksize := blocksize.toNat,
           dynamic := true, partition := false }
  else none

/-- `switch_buffer_freespace`. -/
def switchBufferFreespace (b : SwitchBuffer) : Nat :=
  if b.dynamic then
    if b.maxLen ≠ 0 then sizeSub b.maxLen b.used else 1000000
  else sizeSub b.datalen b.used

/-- How many bytes a read, peek or toss of `datalen` covers. -/
def reading (b : SwitchBuffer) (datalen : Nat) : Nat :=
  if b.used ≥ datalen then datalen else b.used

/-- `switch_buffer_toss`. -/
def switchBufferToss (b : SwitchBuffer) (datalen : Nat) : SwitchBuffer × Nat :=
  if b.used < 1 then ({ b with used := 0 }, 0)
  else
    let b' := { b with used := sizeSub b.used (reading b datalen),
                       head := b.head + reading b datalen }
    (b', b'.used)

/-- Returns the buffer, the bytes copied out and the count. -/
def switchBufferRead (b : SwitchBuffer) (datalen : Nat) : SwitchBuffer × List UInt8 × Nat :=
  if b.used < 1 then ({ b with used := 0 }, [], 0)
  else
    ({ b with used := sizeSub b.used (reading b datalen),
              head := b.head + reading b datalen },
      (b.block.drop b.head).take (reading b datalen), reading b datalen)

/-- `switch_buffer_peek`: the bytes and their number. -/
def switchBufferPeek (b : SwitchBuffer) (datalen : Nat) : SwitchBuffer × List UInt8 × Nat :=
  if b.used < 1 then ({ b with used := 0 }, [], 0)
  else (b, (b.block.drop b.head).take (reading b datalen), reading b datalen)

/-- First part of `switch_buffer_write`: when the space behind the content is too small,
the content is moved to the front of the block. -/
def reclaim (b : SwitchBuffer) (datalen : Nat) : SwitchBuffer :=
  if sizeSub b.datalen b.actuallyUsed < datalen then
    { b with data := some (memmove b.block 0 b.head b.used), head := 0,
             actuallyUsed := b.used }
  else b

/-- The size `switch_buffer_write` asks `realloc` for. -/
def newSize (b : SwitchBuffer) (datalen : Nat) : Nat :=
  if sizeAdd b.datalen b.blocksize > sizeAdd b.datalen datalen then
    sizeAdd b.datalen b.blocksize
  else sizeAdd b.datalen datalen

/-- Does `switch_buffer_write` try to grow the block? The limit is tested here only. -/
def mustGrow (b : SwitchBuffer) (datalen : Nat) : Bool :=
  b.dynamic && decide (sizeSub b.datalen b.used < datalen) &&
    (decide (b.maxLen = 0) || decide (sizeAdd b.used datalen ≤ b.maxLen))

/-- Second part of `switch_buffer_write`; `none` is a refused `realloc`, which leaves
`head` reset. -/
def grow (mem : Allocator) (b : SwitchBuffer) (datalen : Nat) : Option SwitchBuffer :=
  if mustGrow b datalen then
    (realloc mem b.block (newSize b datalen)).map fun tmp =>
      { b with data := some tmp, head := 0, datalen := newSize b datalen }
  else some b

/-- Last part of `switch_buffer_write`: copy in, if there is room by now. -/
def append (b : SwitchBuffer) (src : List UInt8) : SwitchBuffer × Nat :=
  if sizeSub b.datalen b.used < src.length then (b, 0)
  else
    let b' := { b with data := some (memcpy b.block (b.head + b.used) src),
                       used := sizeAdd b.used src.length,
                       actuallyUsed := sizeAdd b.actuallyUsed src.length }
    (b', b'.used)

/-- `switch_buffer_write`. -/
def switchBufferWrite (mem : Allocator) (b : SwitchBuffer) (src : Object) :
    Option (SwitchBuffer × Nat) :=
  if b.partition then some (b, 0)
  else if b.data.isNone then none
  else if src.bytes.length = 0 then some (b, b.used)
  else
    let b₁ := reclaim b src.bytes.length
    match grow mem b₁ src.bytes.length with
    | none => some ({ b₁ with head := 0 }, 0)
    | some b₂ => some (append b₂ src.bytes)

/-- `switch_buffer_zero`; without a block its `assert` fails. -/
def switchBufferZero (b : SwitchBuffer) : Option SwitchBuffer :=
  if b.data.isNone then none
  else some { b with used := 0, actuallyUsed := 0, head := 0 }

/-- The two writes meet the allocator at different times, hence two of them. -/
def switchBufferZwrite (mem₁ mem₂ : Allocator) (b : SwitchBuffer) (src : Object) :
    Option (SwitchBuffer × Nat) :=
  if b.partition then some (b, 0)
  else do
    let (b₁, w) ← switchBufferWrite mem₁ b src
    if w = 0 then
      let b₂ ← switchBufferZero b₁
      switchBufferWrite mem₂ b₂ src
    else return (b₁, w)

/-- `switch_buffer_slide_write`: what does not fit pushes out the oldest bytes. -/
def switchBufferSlideWrite (mem₁ mem₂ : Allocator) (b : SwitchBuffer) (src : Object) :
    Option (SwitchBuffer × Nat) :=
  if b.partition then some (b, 0)
  else do
    let (b₁, w) ← switchBufferWrite mem₁ b src
    if w = 0 then
      switchBufferWrite mem₂ (switchBufferToss b₁ src.bytes.length).1 src
    else return (b₁, w)

/-! ## Calls -/

inductive Call where
  | write (src : Object)
  | zwrite (src : Object)
  | slideWrite (src : Object)
  | read (len : Nat)
  | peek (len : Nat)
  | toss (len : Nat)
  | zero

/-- What the caller gets back: the return value, and the bytes copied to its memory. -/
structure Reply where
  ret : Nat
  out : List UInt8 := []
  deriving DecidableEq

def perform (mem₁ mem₂ : Allocator) (b : SwitchBuffer) : Call → Option (SwitchBuffer × Reply)
  | .write src => (switchBufferWrite mem₁ b src).map fun (b', w) => (b', { ret := w })
  | .zwrite src => (switchBufferZwrite mem₁ mem₂ b src).map fun (b', w) => (b', { ret := w })
  | .slideWrite src =>
      (switchBufferSlideWrite mem₁ mem₂ b src).map fun (b', w) => (b', { ret := w })
  | .read len =>
      let r := switchBufferRead b len
      some (r.1, { out := r.2.1, ret := r.2.2 })
  | .peek len =>
      let r := switchBufferPeek b len
      some (r.1, { out := r.2.1, ret := r.2.2 })
  | .toss len =>
      let r := switchBufferToss b len
      some (r.1, { ret := r.2 })
  | .zero => (switchBufferZero b).map fun b' => (b', { ret := 0 })

/-- One call with its reply, whatever the allocator does. -/
def Step (b : SwitchBuffer) (label : Call × Reply) (b' : SwitchBuffer) : Prop :=
  ∃ mem₁ mem₂, perform mem₁ mem₂ b label.1 = some (b', label.2)

end FreeSwitch.Buffer
