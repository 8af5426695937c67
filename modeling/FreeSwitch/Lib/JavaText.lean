import Mathlib.Data.List.DropRight
import Mathlib.Tactic

/-!
# Texts of a Java program

A text is the list of its characters. The library methods that the modelled code calls on
texts, and `new String(bytes, UTF_8)`.

* **`decodeUtf8`** — reads byte by byte; a malformed sequence becomes one replacement character
  for each maximal piece of it, and a surrogate written in three bytes becomes one.
* **`lines`**, **`trim`**, **`isBlank`**, **`parseSigned`** — `split("\\r?\\n")`, `trim`,
  `isBlank` and `Integer.parseInt`/`Long.parseLong`.
-/

namespace JavaText

abbrev Text := List Char

/-- The characters of a literal. -/
def text (s : String) : Text := s.toList

/-! ## Decoding -/

def replacement : Char := Char.ofNat 0xFFFD

/-- A sequence whose first bytes have been read: the bits so far, the number of bytes still
missing, and the bounds of the next one. -/
structure Unfinished where
  code : Nat
  more : Nat
  least : Nat
  most : Nat
  not_ascii : 0x80 ≤ least
  /-- The finished sequence is no ASCII character: overlong forms are refused early. -/
  not_overlong : 2 ≤ code ∨ 1 < more ∧ 2 ≤ code * 64 + (least - 0x80)

/-- The character with a code, unless that is a surrogate. -/
def scalar (code : Nat) : Char :=
  if code < 0xD800 ∨ 0xDFFF < code ∧ code < 0x110000 then Char.ofNat code else replacement

/-- A byte at the start of a sequence: what is written at once, and what stays open. -/
def openWith (b : UInt8) : Text × Option Unfinished :=
  if b.toNat < 0x80 then ([Char.ofNat b.toNat], none)
  else if h : 0xC2 ≤ b.toNat ∧ b.toNat ≤ 0xDF then
    ([], some ⟨b.toNat - 0xC0, 1, 0x80, 0xBF, le_rfl, by omega⟩)
  else if b.toNat = 0xE0 then ([], some ⟨0, 2, 0xA0, 0xBF, by omega, by omega⟩)
  else if h : 0xE1 ≤ b.toNat ∧ b.toNat ≤ 0xEF then
    ([], some ⟨b.toNat - 0xE0, 2, 0x80, 0xBF, le_rfl, by omega⟩)
  else if b.toNat = 0xF0 then ([], some ⟨0, 3, 0x90, 0xBF, by omega, by omega⟩)
  else if h : 0xF1 ≤ b.toNat ∧ b.toNat ≤ 0xF4 then
    ([], some ⟨b.toNat - 0xF0, 3, 0x80, if b.toNat = 0xF4 then 0x8F else 0xBF, le_rfl, by omega⟩)
  else ([replacement], none)

/-- A byte in the bounds goes into the sequence; any other one ends it and starts anew. -/
def continueWith (p : Unfinished) (b : UInt8) : Text × Option Unfinished :=
  if h : p.least ≤ b.toNat ∧ b.toNat ≤ p.most then
    let code := p.code * 64 + (b.toNat - 0x80)
    if p.more ≤ 1 then ([scalar code], none)
    else ([], some ⟨code, p.more - 1, 0x80, 0xBF, le_rfl, .inl (by
      have := p.not_overlong
      omega)⟩)
  else (replacement :: (openWith b).1, (openWith b).2)

def decodeNext : Option Unfinished → UInt8 → Text × Option Unfinished
  | none => openWith
  | some p => continueWith p

def decodeFrom : Option Unfinished → List UInt8 → Text
  | none, [] => []
  | some _, [] => [replacement]
  | p, b :: bs => (decodeNext p b).1 ++ decodeFrom (decodeNext p b).2 bs

def decodeUtf8 (bs : List UInt8) : Text := decodeFrom none bs

/-! ## White space -/

/-- `Character.isWhitespace`: the separators but the no-break ones, and the control characters
that move on. -/
def isWhitespace (c : Char) : Bool :=
  let n := c.toNat
  (9 ≤ n && n ≤ 13) || (28 ≤ n && n ≤ 32) || n == 0x1680
    || (0x2000 ≤ n && n ≤ 0x200A && n != 0x2007) || n == 0x2028 || n == 0x2029 || n == 0x205F
    || n == 0x3000

def isBlank (s : Text) : Bool := s.all isWhitespace

/-- What `trim` takes off at both ends. -/
def trimmable (c : Char) : Bool := c.toNat ≤ 32

def trim (s : Text) : Text := (s.dropWhile trimmable).rdropWhile trimmable

/-- `split("\\r?\\n")` before the empty texts at the end are dropped. -/
def splitLines : Text → List Text
  | [] => [[]]
  | '\r' :: '\n' :: s => [] :: splitLines s
  | '\n' :: s => [] :: splitLines s
  | c :: s =>
    match splitLines s with
    | [] => [[c]]
    | line :: rest => (c :: line) :: rest

def lines (s : Text) : List Text := (splitLines s).rdropWhile List.isEmpty

/-! ## Numbers -/

/-- The zeros of the decimal digits, sixteen bits wide. -/
def zeros : List Nat :=
  [0x30, 0x660, 0x6F0, 0x7C0, 0x966, 0x9E6, 0xA66, 0xAE6, 0xB66, 0xBE6, 0xC66, 0xCE6, 0xD66,
    0xDE6, 0xE50, 0xED0, 0xF20, 0x1040, 0x1090, 0x17E0, 0x1810, 0x1946, 0x19D0, 0x1A80, 0x1A90,
    0x1B50, 0x1BB0, 0x1C40, 0x1C50, 0xA620, 0xA8D0, 0xA900, 0xA9D0, 0xA9F0, 0xAA50, 0xABF0,
    0xFF10]

/-- `Character.digit(c, 10)`. -/
def digit (c : Char) : Option Nat :=
  (zeros.find? fun z => z ≤ c.toNat && c.toNat ≤ z + 9).map fun z => c.toNat - z

def digitsFrom : Nat → Text → Option Nat
  | acc, [] => some acc
  | acc, c :: s =>
    match digit c with
    | some d => digitsFrom (acc * 10 + d) s
    | none => none

def magnitude (s : Text) : Option Nat := if s = [] then none else digitsFrom 0 s

/-- `Integer.parseInt` (32 bits) and `Long.parseLong` (64); `none` is a
`NumberFormatException`. -/
def parseSigned (bits : Nat) : Text → Option Int
  | '-' :: s => (magnitude s).bind fun n => if n ≤ 2 ^ (bits - 1) then some (-n) else none
  | '+' :: s => (magnitude s).bind fun n => if n < 2 ^ (bits - 1) then some (n : Int) else none
  | s => (magnitude s).bind fun n => if n < 2 ^ (bits - 1) then some (n : Int) else none

def parseInt : Text → Option Int := parseSigned 32

end JavaText
