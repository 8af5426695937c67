import FreeSwitch.Lib.TextMemory
import Mathlib.Data.FinEnum

/-!
# Separating strings — `src/switch_utils.c`

`switch_separate_string` cuts a text in place: a first pass finds the delimiters that are neither
escaped nor quoted and writes a NUL over each, and `cleanup_separated_string` then takes the quotes, the
escapes and the outer spaces from every piece, moving its characters to the left. Pointers are positions
in the memory.

* **`charStep`**, **`blankStep`** — a turn of the two loops that cut.
* **`cleanStep`**, **`cleanupSeparatedString`** — the second pass over a piece.
* **`switchSeparateString`** — the whole.
* **`switchEscapeChar`** — the way to protect characters from it.
-/

namespace FreeSwitch.Separate

open CString TextMemory

/-! ## Cutting -/

/-- `enum tokenizer_state`. Only the loop for spaces skips. -/
inductive Mode where
  | start
  | skipInitialSpace
  | findDelim
  | skipEndingSpace
deriving DecidableEq, Repr

structure Scan where
  mem : Str
  ptr : Nat
  array : List Nat
  insideQuotes : Bool
  mode : Mode

/-- A quote counts if one is open, or if there is another one to close it. -/
def quotes (mem : Str) (ptr : Nat) (insideQuotes : Bool) (c : UInt8) : Except Nat Bool :=
  if c = 39 then if insideQuotes then .ok true else occurs mem (ptr + 1) 39 else .ok false

def charFind (delim : UInt8) (s : Scan) (c : UInt8) : Except Nat Scan :=
  -- over the escaped character, whatever it is
  if c = 92 then .ok { s with ptr := s.ptr + 2 }
  else do
    if ← quotes s.mem s.ptr s.insideQuotes c then
      return { s with insideQuotes := !s.insideQuotes, ptr := s.ptr + 1 }
    else if c = delim ∧ s.insideQuotes = false then
      return { s with mem := ← write s.mem s.ptr 0, mode := .start, ptr := s.ptr + 1 }
    else return { s with ptr := s.ptr + 1 }

/-- A turn of the loop of `separate_string_char_delim`. -/
def charStep (delim : UInt8) (arraylen : Nat) (s : Scan) : Except Nat (Scan ⊕ Scan) := do
  let c ← read s.mem s.ptr
  if c = 0 ∨ arraylen ≤ s.array.length then return .inr s
  match s.mode with
  | .start => return .inl { s with array := s.array ++ [s.ptr], mode := .findDelim }
  | _ => return .inl (← charFind delim s c)

def blankFind (s : Scan) (c : UInt8) : Except Nat Scan :=
  if c = 92 then .ok { s with ptr := s.ptr + 2 }
  else if c = 39 then .ok { s with insideQuotes := !s.insideQuotes, ptr := s.ptr + 1 }
  else if c = 32 ∧ s.insideQuotes = false then do
    return { s with mem := ← write s.mem s.ptr 0, mode := .skipEndingSpace, ptr := s.ptr + 1 }
  else .ok { s with ptr := s.ptr + 1 }

/-- A turn of the loop of `separate_string_blank_delim`. -/
def blankStep (arraylen : Nat) (s : Scan) : Except Nat (Scan ⊕ Scan) := do
  let c ← read s.mem s.ptr
  if c = 0 ∨ arraylen ≤ s.array.length then return .inr s
  match s.mode with
  | .start => return .inl { s with array := s.array ++ [s.ptr], mode := .skipInitialSpace }
  | .skipInitialSpace =>
    return .inl (if c = 32 then { s with ptr := s.ptr + 1 } else { s with mode := .findDelim })
  | .findDelim => return .inl (← blankFind s c)
  | .skipEndingSpace =>
    return .inl (if c = 32 then { s with ptr := s.ptr + 1 } else { s with mode := .start })

/-! ## Cleaning a piece -/

def unescapeChar (escaped : UInt8) : UInt8 :=
  if escaped = 110 then 10 else if escaped = 114 then 13 else if escaped = 116 then 9
  else if escaped = 115 then 32 else escaped

/-- The characters that stand for themselves behind a backslash. -/
def isMeta (delim e : UInt8) : Prop := e = 39 ∨ e = 34 ∨ (delim ≠ 0 ∧ e = delim) ∨ e = 92

instance (delim e : UInt8) : Decidable (isMeta delim e) :=
  inferInstanceAs (Decidable (e = 39 ∨ e = 34 ∨ (delim ≠ 0 ∧ e = delim) ∨ e = 92))

/-- What a backslash with `e` behind it stands for. -/
def escaped (delim e : UInt8) : Option UInt8 :=
  if isMeta delim e then some e else if unescapeChar e ≠ e then some (unescapeChar e) else none

/-- `endp` is the place behind the last character that is not a space to be dropped. -/
structure Clean where
  mem : Str
  ptr : Nat
  dest : Nat
  endp : Option Nat
  insideQuotes : Bool

def cleanPlain (s : Clean) (c : UInt8) : Except Nat Clean := do
  if ← quotes s.mem s.ptr s.insideQuotes c then
    return { s with
      insideQuotes := !s.insideQuotes, endp := if s.insideQuotes then s.endp else some s.dest,
      ptr := s.ptr + 1 }
  else
    return { s with
      mem := ← write s.mem s.dest c, dest := s.dest + 1, ptr := s.ptr + 1
      endp := if c ≠ 32 ∨ s.insideQuotes = true then some (s.dest + 1) else s.endp }

def cleanStep (delim : UInt8) (s : Clean) : Except Nat (Clean ⊕ Clean) := do
  let c ← read s.mem s.ptr
  if c = 0 then return .inr s
  if c = 92 then
    match escaped delim (← read s.mem (s.ptr + 1)) with
    | some e =>
      return .inl { s with
        mem := ← write s.mem s.dest e, dest := s.dest + 1, ptr := s.ptr + 2, endp := some (s.dest + 1) }
    | none => return .inl (← cleanPlain s c)
  else return .inl (← cleanPlain s c)

def skipStep (mem : Str) (ptr : Nat) : Except Nat (Nat ⊕ Nat) := do
  return if (← read mem ptr) = 32 then .inl (ptr + 1) else .inr ptr

/-- The memory afterwards, and where the text starts then. -/
def cleanupSeparatedString (mem : Str) (str : Nat) (delim : UInt8) : Access (Str × Nat) := do
  let start ← loop (skipStep mem) (mem.length + 2) str
  let s ← loop (cleanStep delim) (mem.length + 2) ⟨mem, start, start, none, false⟩
  match s.endp with
  | some endp => return (← Access.of (write s.mem endp 0), start)
  | none => return (s.mem, start)

def cleanAll (delim : UInt8) : Str → List Nat → Access (Str × List Nat)
  | mem, [] => return (mem, [])
  | mem, str :: array => do
    let (mem, start) ← cleanupSeparatedString mem str delim
    let (mem, array) ← cleanAll delim mem array
    return (mem, start :: array)

/-! ## The whole -/

/-- More turns than the loops that cut can make. -/
def scanFuel (mem : Str) : Nat := 4 * (mem.length + 2)

/-- The memory afterwards, and the places of the pieces, in the order of the array. -/
def separateStringCharDelim (mem : Str) (buf : Nat) (delim : UInt8)
    (arraylen : Nat) : Access (Str × List Nat) := do
  let s ← loop (charStep delim arraylen) (scanFuel mem) ⟨mem, buf, [], false, .start⟩
  cleanAll delim s.mem s.array

def separateStringBlankDelim (mem : Str) (buf : Nat) (arraylen : Nat) : Access (Str × List Nat) := do
  let s ← loop (blankStep arraylen) (scanFuel mem) ⟨mem, buf, [], false, .start⟩
  cleanAll 0 s.mem s.array

/-- A text that begins with `^^` brings its own delimiter, if something comes behind it. -/
def ownDelim (mem : Str) (buf : Nat) (delim : UInt8) : Except Nat (Nat × UInt8) := do
  if (← read mem buf) = 94 then
    if (← read mem (buf + 1)) = 94 then
      let d ← read mem (buf + 2)
      if d ≠ 0 then
        if (← read mem (buf + 3)) ≠ 0 then return (buf + 3, d)
  return (buf, delim)

def switchSeparateString (mem : Str) (buf : Nat) (delim : UInt8)
    (arraylen : Nat) : Access (Str × List Nat) :=
  if arraylen = 0 then return (mem, [])
  else do
    let (buf, delim) ← Access.of (ownDelim mem buf delim)
    if delim = 32 then separateStringBlankDelim mem buf arraylen
    else separateStringCharDelim mem buf delim arraylen

/-- The texts of a result. -/
def tokens (out : Str × List Nat) : List Str := out.2.map (text out.1)

/-! ## Escaping -/

/-- `switch_escape_char` writes `esc` for each match in `delim`, before the character. -/
def escapeChars (text delim : Str) (esc : UInt8) : Str :=
  text.flatMap fun c => (delim.flatMap fun d => if c = d then [esc] else []) ++ [c]

/-- Without a match the text itself is returned. -/
def switchEscapeChar (text delim : Str) (esc : UInt8) : Str :=
  if ∀ c ∈ text, c ∉ delim then text else escapeChars text delim esc

end FreeSwitch.Separate
