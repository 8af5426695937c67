import FreeSwitch.Msrp.Parse

/-!
# Sending a message — `switch_msrp_perform_send` of `src/switch_msrp.c`

The headers, the payload and the end line go into a buffer on the stack. The payload is refused where
the headers and the payload alone would fill the buffer; the end line and its NUL come behind that.

* **`performSend`** — what is written, where, and the length that is sent.
* **`performSend_within_iff`** — when all of it is in the buffer.
-/

namespace FreeSwitch.Msrp

open CString Event

/-- `SWITCH_RTP_MAX_BUF_LEN - 32` -/
def msrpBuffSize : Nat := 16384 - 32

/-- `switch_msrp_msg_get_header`. -/
def getHeader (msg : Msg) (h : HeaderType) : Option Str :=
  headerNames[h.index]?.bind (switchEventGetHeader msg.headers)

structure Session where
  running : Bool
  localPath : Option Str
  remotePath : Option Str

/-- A message in the buffer: the texts, the place of the end line, and the length for the socket. -/
structure Sent where
  head : Str
  body : Str
  endAt : Nat
  endLine : Str
  len : Nat

inductive SendResult where
  /-- `SWITCH_STATUS_SUCCESS` with a warning -/
  | discarded
  /-- the payload is too large -/
  | refused
  | sent (s : Sent)

/-- The places and the bytes that are written there. Both `sprintf` write a NUL. -/
def Sent.writes (s : Sent) : List (Nat × Str) :=
  [(0, s.head ++ [0]), (s.head.length, s.body), (s.endAt, s.endLine ++ [0])]

/-- `%s` of a string that may be `NULL`. -/
def shownPath (path : Option Str) : Str := path.getD (bytes "(null)")

def sendHead (id : Str) (toPath : Option Str) (fromPath : Str) (msg : Msg) : Str :=
  let range := printNat (if msg.payload.isSome then msg.payloadBytes else 0)
  bytes "MSRP " ++ id ++ bytes " SEND\r\nTo-Path: " ++ shownPath toPath ++
    bytes "\r\nFrom-Path: " ++ fromPath ++
    bytes "\r\nContent-Type: " ++ (getHeader msg .contentType).getD [] ++ bytes "\r\nByte-Range: 1-" ++
      range ++ bytes "/" ++
    range ++ if msg.payload.isSome then bytes "\r\n\r\n" else []

/-- `id` is the transaction id that `random_string` makes. `memcpy` takes `payload_bytes` bytes of the
payload, whatever its length is. -/
def performSend (ms : Session) (msg : Msg) (id : Str) : SendResult :=
  if ms.running then
    match (getHeader msg .fromPath).or ms.localPath with
    | none => .discarded
    | some fromPath =>
      let head := sendHead id ((getHeader msg .toPath).or ms.remotePath) fromPath msg
      let endLine := bytes "\r\n-------" ++ id ++ bytes "$\r\n"
      match msg.payload with
      | some payload =>
        let len := (head.length + msg.payloadBytes) % 2 ^ 64
        if msrpBuffSize ≤ len then .refused
        else .sent ⟨head, payload.takeD msg.payloadBytes 0, len, endLine,
          (len + (12 + id.length)) % 2 ^ 64⟩
      | none => .sent ⟨head, [], head.length, endLine, (head.length + (12 + id.length)) % 2 ^ 64⟩
  else .discarded

/-- The end line stands behind the payload, as `switch_size_t` counts, and the length goes up by its
length. -/
theorem performSend_sent {ms : Session} {msg : Msg} {id : Str} {s : Sent}
    (h : performSend ms msg id = .sent s) :
    s.endLine.length = id.length + 12 ∧
    (s.head.length + s.body.length < 2 ^ 64 → s.endAt = s.head.length + s.body.length) ∧
      s.len = (s.endAt + (12 + id.length)) % 2 ^ 64 := by
  have hline : (bytes "\r\n-------" ++ id ++ bytes "$\r\n").length = id.length + 12 := by
    rw [List.length_append, List.length_append, show (bytes "\r\n-------").length = 9 by decide,
      show (bytes "$\r\n").length = 3 by decide]
    omega
  unfold performSend at h
  split at h
  · split at h
    · exact absurd h nofun
    · next fromPath _ =>
      dsimp only at h
      generalize sendHead id _ fromPath msg = head at h
      split at h
      · split at h
        · exact absurd h nofun
        · obtain rfl := SendResult.sent.inj h
          refine ⟨hline, fun hlt => ?_, rfl⟩
          rw [List.takeD_length] at hlt ⊢
          exact Nat.mod_eq_of_lt hlt
      · obtain rfl := SendResult.sent.inj h
        exact ⟨hline, fun _ => (Nat.add_zero _).symm, rfl⟩
  · exact absurd h nofun

/-- Everything is written inside the buffer, and the length is that of the message, where 28 bytes and
the NUL are left behind the headers and the payload. -/
theorem performSend_within_iff {ms : Session} {msg : Msg} {id : Str} {s : Sent} (hid : id.length = 16)
    (h : performSend ms msg id = .sent s) :
    (∀ w ∈ s.writes, w.1 + w.2.length ≤ msrpBuffSize) ∧
    s.len = s.head.length + s.body.length + s.endLine.length ↔
      s.head.length + s.body.length + 28 < msrpBuffSize := by
  obtain ⟨hline, hat, hlen⟩ := performSend_sent h
  have hsize : msrpBuffSize < 2 ^ 64 := by decide
  constructor
  · rintro ⟨hwithin, -⟩
    have hbody := hwithin (s.head.length, s.body) (by simp [Sent.writes])
    have hend := hwithin (s.endAt, s.endLine ++ [0]) (by simp [Sent.writes])
    rw [List.length_append, List.length_singleton] at hend
    dsimp only at hbody
    have hat := hat (by omega)
    omega
  · intro hroom
    have hat := hat (by omega)
    refine ⟨?_, by omega⟩
    intro w hw
    simp only [Sent.writes, List.mem_cons, List.not_mem_nil, or_false] at hw
    rcases hw with rfl | rfl | rfl
    all_goals simp only [List.length_append, List.length_singleton]
    all_goals omega

/-- The session and the message of the two cases below. -/
def quietSession : Session := ⟨true, some (bytes "b"), some (bytes "a")⟩

def withPayload (n : Nat) : Msg :=
  { Msg.create blankEvent with payload := some (List.replicate n 65), payloadBytes := n }

def someId : Str := bytes "d4c667b2351e958f"

/-- A payload of one byte. -/
theorem performSend_short : ∃ s, performSend quietSession (withPayload 1) someId = .sent s ∧
    ∀ w ∈ s.writes, w.1 + w.2.length ≤ msrpBuffSize := by
  refine ⟨_, rfl, ?_⟩
  exact ((@performSend_within_iff quietSession (withPayload 1) someId _
    (by decide) rfl).mpr (by decide)).1

/-- The headers and a payload of 16252 bytes leave one byte of the buffer, and the end line needs 29. -/
theorem performSend_overrun : ∃ s, performSend quietSession (withPayload 16252) someId = .sent s ∧
    s.head.length = 99 ∧ s.body.length = 16252 ∧ ∃ w ∈ s.writes, msrpBuffSize < w.1 + w.2.length := by
  refine ⟨_, rfl, by decide, List.takeD_length _ _ _, _, List.mem_of_mem_getLast? rfl, by decide⟩

end FreeSwitch.Msrp
