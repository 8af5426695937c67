import FreeSwitch.Lib.JavaText

/-!
# The event socket client — `java/ptt-monitor/…/EslClient.java`

`recvFrame` takes frames off a socket: a header block, a blank line, and a body of
`Content-Length` bytes. What has been read and not yet parsed is kept in `buffer`.

The socket is the list of what its reads will give: bytes, or a timeout; behind the last one the
stream ends. `readNBytes` is the library's: it reads on until it has its number of bytes, and a
timeout makes it throw what it already has away.
-/

namespace FreeSwitch.Ptt

open JavaText

/-! ## Headers -/

/-- A `HashMap<String, String>`, the latest `put` first; read with `lookup`. -/
abbrev Headers := List (Text × Text)

/-- The entry of one line: `indexOf(':')` behind the first character. -/
def headerOf (line : Text) : Option (Text × Text) :=
  if isBlank line then none
  else
    let name := line.takeWhile (· ≠ ':')
    if name = [] ∨ name = line then none
    else some (trim name, trim (line.drop (name.length + 1)))

def parseHeaders (s : Text) : Headers :=
  if isBlank s then [] else ((lines s).filterMap headerOf).reverse

def parseContentLength (s : Option Text) : Int :=
  match s with
  | none => 0
  | some s => if isBlank s then 0 else (parseInt (trim s)).getD 0

/-! ## Frames in the buffer -/

structure Frame where
  headers : Headers
  body : Text
  deriving DecidableEq

/-- The two forms of a blank line behind a header block. -/
inductive Separator where
  | lf
  | crlf
  deriving DecidableEq

def Separator.bytes : Separator → List UInt8
  | lf => [10, 10]
  | crlf => [13, 10, 13, 10]

def separatorAt (data : List UInt8) : Bool :=
  Separator.lf.bytes.isPrefixOf data || Separator.crlf.bytes.isPrefixOf data

def findHeaderSeparator : List UInt8 → Option Nat
  | [] => none
  | b :: data => if separatorAt (b :: data) then some 0 else (findHeaderSeparator data).map (· + 1)

inductive Parsed where
  /-- `null`: the buffer does not hold a whole frame. -/
  | incomplete
  | frame (frame : Frame) (remaining : List UInt8)
  /-- An unchecked exception, from an index outside the buffer. -/
  | throws
  deriving DecidableEq

def contentLengthOf (headerBytes : List UInt8) : Int :=
  parseContentLength ((parseHeaders (decodeUtf8 headerBytes)).lookup (text "Content-Length"))

/-- `total` is an `int`, and the sum in it can overflow. -/
def tryParseFrame (buffer : List UInt8) : Parsed :=
  match findHeaderSeparator buffer with
  | none => .incomplete
  | some sep =>
    let sepLen := if buffer[sep]? = some 13 then 4 else 2
    let contentLength := contentLengthOf (buffer.take sep)
    let bodyStart := sep + sepLen
    let total := (bodyStart + contentLength : Int).bmod (2 ^ 32)
    if (buffer.length : Int) < total then .incomplete
    else if contentLength < 0 ∨ total < 0 ∨ (buffer.length : Int) < bodyStart + contentLength then
      .throws
    else
      .frame
        { headers := parseHeaders (decodeUtf8 (buffer.take sep))
          body := decodeUtf8 ((buffer.drop bodyStart).take contentLength.toNat) }
        (buffer.drop total.toNat)

/-! ## The socket -/

inductive SocketRead where
  | data (bytes : List UInt8)
  | timeout
  deriving DecidableEq

/-- The bytes that are still to come. -/
def incoming : List SocketRead → List UInt8
  | [] => []
  | .data bytes :: reads => bytes ++ incoming reads
  | .timeout :: reads => incoming reads

/-- `input.readNBytes(n)` with `acc` already read: the bytes, or `none` for a
`SocketTimeoutException`; and the reads that are left. -/
def readNBytes : Nat → List SocketRead → List UInt8 → Option (List UInt8) × List SocketRead
  | 0, reads, acc => (some acc, reads)
  | _ + 1, [], acc => (some acc, [])
  | _ + 1, .timeout :: reads, _ => (none, reads)
  | n + 1, .data bytes :: reads, acc =>
    if bytes.length ≤ n + 1 then readNBytes (n + 1 - bytes.length) reads (acc ++ bytes)
    else (some (acc ++ bytes.take (n + 1)), .data (bytes.drop (n + 1)) :: reads)

structure Client where
  buffer : List UInt8
  reads : List SocketRead
  deriving DecidableEq

inductive Received where
  | null
  | frame (frame : Frame)
  | throws
  deriving DecidableEq

/-- The number of bytes asked for at once. -/
def chunkSize : Nat := 65535

/-- The loop of `recvFrame`, with a bound on its rounds: `none` when they are used up. An array
that would need more than `2 ^ 31 - 1` bytes cannot be made. -/
def recvLoop : Nat → Client → Option (Received × Client)
  | 0, _ => none
  | rounds + 1, c =>
    match tryParseFrame c.buffer with
    | .frame frame remaining => some (.frame frame, { c with buffer := remaining })
    | .throws => some (.throws, c)
    | .incomplete =>
      match readNBytes chunkSize c.reads [] with
      | (none, reads) => some (.null, { c with reads })
      | (some [], reads) => some (.null, { c with reads })
      | (some chunk, reads) =>
        if 2 ^ 31 ≤ c.buffer.length + chunk.length then some (.throws, { c with reads })
        else recvLoop rounds { buffer := c.buffer ++ chunk, reads }

/-- Every round but the last takes a byte from the socket. -/
def recvFrame (c : Client) : Option (Received × Client) :=
  recvLoop ((incoming c.reads).length + 1) c

/-- The frames of the first calls of `recvFrame`, up to an exception. -/
def receivedFrames : Nat → Client → List Frame
  | 0, _ => []
  | calls + 1, c =>
    match recvFrame c with
    | some (.frame frame, c) => frame :: receivedFrames calls c
    | some (.null, c) => receivedFrames calls c
    | some (.throws, _) => []
    | none => []

/-! ## A call returns -/

theorem readNBytes_incoming :
    ∀ (reads : List SocketRead) (n : Nat) (acc : List UInt8) {chunk : List UInt8}
      {rest : List SocketRead}, readNBytes n reads acc = (some chunk, rest) →
        chunk ++ incoming rest = acc ++ incoming reads := by
  intro reads
  induction reads with
  | nil =>
    intro n acc chunk rest h
    cases n <;> (cases h; rfl)
  | cons read reads ih =>
    intro n acc chunk rest h
    cases n with
    | zero => cases h; rfl
    | succ n =>
      cases read with
      | timeout => cases h
      | data bytes =>
        rw [readNBytes] at h
        split at h
        · rw [ih _ _ h]
          simp [incoming]
        · cases h
          rw [incoming, incoming, List.append_assoc, ← List.append_assoc (bytes.take (n + 1)),
            List.take_append_drop]

theorem recvLoop_isSome : ∀ (rounds : Nat) (c : Client), (incoming c.reads).length < rounds →
      (recvLoop rounds c).isSome := by
  intro rounds
  induction rounds with
  | zero => intro c h; omega
  | succ rounds ih =>
    intro c h
    rw [recvLoop]
    split
    · rfl
    · rfl
    · split
      · rfl
      · rfl
      · rename_i chunk reads hchunk hread
        split
        · rfl
        · -- The chunk is not empty, so fewer bytes are left.
          apply ih
          have hbytes := congrArg List.length (readNBytes_incoming _ _ _ hread)
          have hpos : 0 < chunk.length := List.length_pos_iff.mpr (fun h0 => hchunk h0)
          simp only [List.length_append, List.length_nil] at hbytes
          show (incoming reads).length < rounds
          omega

/-- `recvFrame` returns, whatever the socket gives. -/
theorem recvFrame_isSome (c : Client) : (recvFrame c).isSome :=
  recvLoop_isSome _ c (Nat.lt_succ_self _)

end FreeSwitch.Ptt
