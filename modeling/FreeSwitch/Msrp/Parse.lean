import FreeSwitch.Event.Headers
import FreeSwitch.Lib.Printf

/-!
# The MSRP parser — `src/switch_msrp.c`

`msrp_parse_headers` reads the lines of a message, from the start line on. The texts are cut in place,
so the memory changes while it is read. Memory is a list of bytes, of which the buffer is a part; behind
the list there are zeros.

A turn of the header loop is one line. What it does to the memory and to the fields of the message is
`Turn`; the headers it adds are left to `addHeaders`, as those calls can go wrong on their own: the
value is given to `switch_vasprintf` as the format, and the table of names has no place for
`MSRP_H_UNKNOWN`.

* **`turn`** — one line.
* **`findDelim`** — where the body of a message ends.
-/

namespace FreeSwitch.Msrp

open CString Event

/-! ## Messages -/

/-- `msrp_msg->state`. -/
inductive MsgState where
  | waitHeader | parseHeader | waitBody | done | error
  deriving DecidableEq

inductive Method where
  | unset | reply | send | auth | report
  deriving DecidableEq

/-- `switch_msrp_header_type_t`, with its misspelling. -/
inductive HeaderType where
  | fromPath | toPath | messageId | contentType | successReport | failureReport | status | keepalive
  | trasactionId | delimiter | codeDescription | unknown
  deriving DecidableEq

def HeaderType.index : HeaderType → Nat
  | fromPath => 0
  | toPath => 1
  | messageId => 2
  | contentType => 3
  | successReport => 4
  | failureReport => 5
  | status => 6
  | keepalive => 7
  | trasactionId => 8
  | delimiter => 9
  | codeDescription => 10
  | unknown => 11

/-- `HEADER_NAMES`. There is no name for the description of a code, so the last ones are one place
off. -/
def headerNames : List Str :=
  [bytes "MSRP_H_FROM_PATH", bytes "MSRP_H_TO_PATH", bytes "MSRP_H_MESSAGE_ID",
    bytes "MSRP_H_CONTENT_TYPE",
    bytes "MSRP_H_SUCCESS_REPORT", bytes "MSRP_H_FAILURE_REPORT", bytes "MSRP_H_STATUS",
    bytes "MSRP_H_KEEPALIVE",
    bytes "MSRP_H_TRASACTION_ID", bytes "MSRP_H_DELIMITER", bytes "MSRP_H_UNKNOWN"]

/-- `switch_msrp_msg_t`. -/
structure Msg where
  state : MsgState
  method : Method
  headers : SwitchEvent
  transactionId : Option Str
  delimiter : Option Str
  codeNumber : Int
  codeDescription : Option Str
  byteStart : Nat
  byteEnd : Nat
  bytes : Nat
  payloadBytes : Nat
  accumulatedBytes : Nat
  rangeStar : Bool
  /-- An offset in the memory, `none` for `NULL`. -/
  lastP : Option Nat
  payload : Option Str
  deriving DecidableEq

/-- `switch_msrp_msg_create`, with the event that `switch_event_create` makes. -/
def Msg.create (headers : SwitchEvent) : Msg where
  state := .waitHeader
  method := .unset
  headers := headers
  transactionId := none
  delimiter := none
  codeNumber := 0
  codeDescription := none
  byteStart := 0
  byteEnd := 0
  bytes := 0
  payloadBytes := 0
  accumulatedBytes := 0
  rangeStar := false
  lastP := none
  payload := none

/-- What ends the program, or is left undefined by C. -/
inductive Fault where
  /-- `switch_assert(msrp_msg->byte_start > 0)` -/
  | byteStart
  /-- `switch_assert(msrp_msg->delimiter)` -/
  | noDelimiter
  /-- `strlen` of a delimiter that is `NULL` -/
  | nullDelimiter
  /-- `HEADER_NAMES[MSRP_H_UNKNOWN]` -/
  | headerName
  /-- a format with a directive and no argument for it -/
  | format
  /-- a payload of a negative size -/
  | payload
  deriving DecidableEq

/-- `switch_msrp_msg_add_header`. -/
def addHeader (msg : Msg) (header : HeaderType × Str × List Str) : Except Fault Msg :=
  match printf header.2.1 header.2.2, headerNames[header.1.index]? with
  | none, _ => .error .format
  | some _, none => .error .headerName
  | some data, some name =>
    let headers := switchEventAddHeaderString msg.headers stackBottom name (some data)
    let value := (switchEventGetHeaderPtr headers name).bind Header.value
    .ok (match header.1 with
      | .trasactionId => { msg with headers, transactionId := value }
      | .delimiter => { msg with headers, delimiter := value }
      | .codeDescription => { msg with headers, codeDescription := value }
      | _ => { msg with headers })

/-- The calls of `switch_msrp_msg_add_header` for a line, up to the first that goes wrong. -/
def addHeaders (headers : List (HeaderType × Str × List Str)) (msg : Msg) : Except Fault Msg :=
  headers.foldlM addHeader msg

/-! ## Memory -/

/-- Behind the memory there are zeros. -/
def peek (mem : Str) (p : Nat) : UInt8 := mem.getD p 0

/-- The string at an offset. -/
def cstr (mem : Str) (p : Nat) : Str := (mem.drop p).takeWhile (· != 0)

/-- `strncasecmp` with the length of `t`. -/
def startsCI (mem : Str) (p : Nat) (t : Str) : Bool := decide (lower t <+: lower (mem.drop p))

/-- `while (q < end && !stop(*q)) q++`, for `n` bytes at most. -/
def scan (mem : Str) (stop : UInt8 → Bool) : Nat → Nat → Nat
  | p, 0 => p
  | p, n + 1 => if stop (peek mem p) then p else scan mem stop (p + 1) n

def scanTo (mem : Str) (stop : UInt8 → Bool) (p last : Nat) : Nat := scan mem stop p (last - p)

/-- A byte that ends a string that goes on to `c`. -/
def upTo (c b : UInt8) : Bool := b == 0 || b == c

/-- The line that ends at `q` becomes a string. -/
def cutLine (mem : Str) (q : Nat) : Str :=
  (if peek mem (q - 1) = 13 then mem.set (q - 1) 0 else mem).set q 0

/-- An `int` in a `switch_size_t`. -/
def sizeOfInt (z : Int) : Nat := (z % 2 ^ 64).toNat

/-! ## Lines -/

inductive Line where
  | start
  | header (h : HeaderType) (skip : Nat)
  | byteRange
  | blank
  | delimiter (d : Str)
  | unsupported
  deriving DecidableEq

/-- The names that are known, in the order in which they are tried. -/
def headerLines : List (Str × HeaderType) :=
  [(bytes "From-Path:", .fromPath), (bytes "To-Path:", .toPath), (bytes "Status:", .status),
    (bytes "Keep-Alive:", .keepalive), (bytes "Message-ID:", .messageId),
    (bytes "Content-Type:", .contentType),
    (bytes "Success-Report:", .successReport), (bytes "Failure-Report:", .failureReport)]

/-- The chain of tests of `msrp_parse_headers`. -/
def lineAt (mem : Str) (p : Nat) (delimiter : Option Str) : Line :=
  if startsCI mem p (bytes "MSRP ") then .start
  else
    match headerLines.find? fun x => startsCI mem p x.1 with
    | some (name, h) => .header h name.length
    | none =>
      if startsCI mem p (bytes "Byte-Range:") then .byteRange
      else if peek mem p = 13 ∧ peek mem (p + 1) = 10 then .blank
      else
        match delimiter with
        | some d => if startsCI mem p d then .delimiter d else .unsupported
        | none => .unsupported

/-- What a line does: the memory, the place behind it, the fields of the message, the headers to add,
and whether the loop goes on. -/
structure Turn where
  mem : Str
  p : Nat
  msg : Msg
  adds : List (HeaderType × Str × List Str)
  more : Bool

/-- `if (*p && *p == ' ') p++` -/
def skipSpace (mem : Str) (p : Nat) : Nat := if peek mem p = 32 then p + 1 else p

/-- `msrp_parse_header`: the memory, the place behind the line and the value, or `none` where there is
no value. -/
def parseHeader (mem : Str) (start skip last : Nat) : Option (Str × Nat × Str) :=
  let p := skipSpace mem (start + skip)
  let q := scanTo mem (· == 10) p last
  if p < q then some (cutLine mem q, q + 1, cstr (cutLine mem q) p) else none

/-- Without a value the loop ends. -/
def headerLine (last : Nat) (h : HeaderType) (skip : Nat) (mem : Str) (p : Nat) (msg : Msg) : Turn :=
  match parseHeader mem p skip last with
  | some (mem, p, value) => ⟨mem, p, msg, [(h, value, [])], true⟩
  | none => ⟨mem, p, msg, [], false⟩

/-- `MSRP transaction_id code_number code_description`, from the number on. -/
def replyLine (last : Nat) (mem : Str) (p : Nat) (msg : Msg)
    (adds : List (HeaderType × Str × List Str)) : Turn :=
  let msg := { msg with method := .reply }
  let q := scanTo mem (upTo 32) p last
  if p < q then
    let mem := mem.set q 0
    let msg := { msg with codeNumber := atoi (cstr mem p) }
    let p := q + 1
    let q := scanTo mem (upTo 10) p last
    if p < q then ⟨cutLine mem q, q + 1, msg,
      adds ++ [(.codeDescription, cstr (cutLine mem q) p, [])], true⟩
    else ⟨mem, p, msg, adds, true⟩
  else ⟨mem, p, msg, adds, true⟩

/-- What stands behind the name of a transaction. -/
def methodLine (last : Nat) (mem : Str) (p : Nat) (msg : Msg)
    (adds : List (HeaderType × Str × List Str)) : Turn :=
  if last ≤ p then ⟨mem, p, msg, adds, false⟩
  else if startsCI mem p (bytes "SEND") then ⟨mem, p + 6, { msg with method := .send }, adds, true⟩
  else if startsCI mem p (bytes "REPORT") then ⟨mem, p + 8, { msg with method := .report }, adds, true⟩
  else if startsCI mem p (bytes "AUTH") then ⟨mem, p + 6, { msg with method := .auth }, adds, true⟩
  else replyLine last mem p msg adds

def startLine (last : Nat) (mem : Str) (p : Nat) (msg : Msg) : Turn :=
  let p := p + 5
  let q := scanTo mem (upTo 32) p last
  if p < q then
    let mem := mem.set q 0
    methodLine last mem (q + 1) { msg with state := .parseHeader }
      [(.trasactionId, cstr mem p, []), (.delimiter, bytes "-------%s", [cstr mem p])]
  else methodLine last mem (q + 1) msg []

/-- The text before the `-` of a range. -/
def rangeStart (last : Nat) (mem : Str) (p : Nat) : Option Str :=
  let p := skipSpace mem (p + 11)
  let q := scanTo mem (upTo 45) p last
  if p < q then some (cstr (mem.set q 0) p) else none

/-- The range from its last number on. -/
def rangeTotal (last : Nat) (mem : Str) (p : Nat) (msg : Msg) : Turn :=
  let q := scanTo mem (upTo 10) p last
  if p < q then
    let mem := cutLine mem q
    let msg := { msg with bytes := sizeOfInt (atoi (cstr mem p)) }
    let msg := if msg.rangeStar then msg
      else { msg with payloadBytes := (msg.byteEnd + 1 + 2 ^ 64 - msg.byteStart) % 2 ^ 64 }
    if !msg.rangeStar && decide (msg.bytes < msg.payloadBytes) then
      ⟨mem, q + 1, { msg with state := .error }, [], false⟩
    else ⟨mem, q + 1, msg, [], true⟩
  else ⟨mem, p, msg, [], true⟩

/-- A `Byte-Range` line, when its first number is none that the assertion is against. -/
def byteRangeLine (last : Nat) (mem : Str) (p : Nat) (msg : Msg) : Turn :=
  let p := skipSpace mem (p + 11)
  let q := scanTo mem (upTo 45) p last
  if p < q then
    let mem := mem.set q 0
    let msg := { msg with byteStart := sizeOfInt (atoi (cstr mem p)) }
    let p := q + 1
    let msg := if peek mem p = 42 then { msg with rangeStar := true } else msg
    let q := scanTo mem (upTo 47) p last
    if p < q then
      let mem := mem.set q 0
      rangeTotal last mem (q + 1)
        { msg with byteEnd := if msg.rangeStar then 0 else sizeOfInt (atoi (cstr mem p)) }
    else ⟨mem, p, msg, [], true⟩
  else ⟨mem, p, msg, [], true⟩

/-- The line that ends a message. -/
def delimiterLine (last : Nat) (d : Str) (mem : Str) (p : Nat) (msg : Msg) : Turn :=
  let x := p + d.length
  if x < last then
    if peek mem x = 36 then
      let p := if peek mem (x + 1) = 13 then x + 2 else x + 1
      let p := if peek mem p = 10 then p + 1 else p
      ⟨mem, p, { msg with state := .done }, [], false⟩
    else if peek mem x = 43 then
      -- the place is still that of the delimiter here
      let p := if peek mem p = 13 then p + 1 else p
      let p := if peek mem p = 10 then p + 1 else p
      ⟨mem, p, msg, [], false⟩
    else ⟨mem, p, { msg with state := .error }, [], false⟩
  else ⟨mem, p, msg, [], false⟩

/-- A name that is not known. Without one the loop stays where it is. -/
def unsupportedLine (last : Nat) (mem : Str) (p : Nat) (msg : Msg) : Turn :=
  let q := scanTo mem (upTo 58) p last
  if p < q then
    match parseHeader (mem.set q 0) (q + 1) 0 last with
    | some (mem, p, value) => ⟨mem, p, msg, [(.unknown, value, [])], true⟩
    | none => ⟨mem.set q 0, p, msg, [], false⟩
  else ⟨mem, p, msg, [], true⟩

def lineTurn (last : Nat) (mem : Str) (p : Nat) (msg : Msg) : Turn :=
  match lineAt mem p msg.delimiter with
  | .start => startLine last mem p msg
  | .header h skip => headerLine last h skip mem p msg
  | .byteRange => byteRangeLine last mem p msg
  | .blank => ⟨mem, p + 2, { msg with state := .waitBody }, [], false⟩
  | .delimiter d => delimiterLine last d mem p msg
  | .unsupported => unsupportedLine last mem p msg

/-- The headers of a line go to the message. -/
def Turn.filed (t : Turn) : Except Fault Turn :=
  match addHeaders t.adds t.msg with
  | .ok msg => .ok { t with msg }
  | .error e => .error e

/-- One turn of the loop of `msrp_parse_headers`. -/
def turn (last : Nat) (mem : Str) (p : Nat) (msg : Msg) : Except Fault Turn :=
  if lineAt mem p msg.delimiter = .byteRange ∧ (rangeStart last mem p).any (fun s => atoi s == 0) then
    .error .byteStart
  else (lineTurn last mem p msg).filed

/-! ## The body -/

/-- `find_delim`: the bytes are compared without going back. -/
def findDelimFrom (mem d : Str) : Nat → Nat → Nat → Option Nat → Option Nat
  | 0, _, _, _ => none
  | n + 1, p, q, s =>
    if peek mem p = d.getD q 0 then
      if q + 1 = d.length then
        some (s.getD p) else findDelimFrom mem d n (p + 1) (q + 1) (some (s.getD p))
    else findDelimFrom mem d n (p + 1) 0 none

def findDelim (mem : Str) (buf len : Nat) (d : Str) : Option Nat :=
  if d = [] then none else findDelimFrom mem d (len - d.length) buf 0 none

end FreeSwitch.Msrp
