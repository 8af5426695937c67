import FreeSwitch.Ptt.Frames

/-!
# The end of the stream — `EslClient.readEvent` and the loops of `PttEventMonitor`

`recvFrame` returns `null` at the end of the stream, as it does for a timeout, and `readEvent` passes it
on. The loop of `eventLoop` goes round on `null`; only an exception leads back to `connect`.

* **`tryParseFrame_cases`** — what a buffer can begin with.
* **`throwsWithin_iff`** — at the end of the stream, `readEvent` comes to an exception only where the
  buffer holds a header block with an impossible length.
* **`reconnects_iff`** — so the monitor connects again in that case.
-/

namespace FreeSwitch.Ptt

open JavaText

/-! ## The monitor -/

inductive Event where
  | null
  | event (headers : Headers)
  | throws
  deriving DecidableEq

def eventOf (frame : Frame) : Event :=
  if (frame.headers.lookup (text "Content-Type")).getD [] = text "text/event-plain" then
    .event (parseHeaders frame.body)
  else .null

def readEvent (c : Client) : Event × Client :=
  match (recvFrame c).get (recvFrame_isSome c) with
  | (.null, c) => (.null, c)
  | (.throws, c) => (.throws, c)
  | (.frame frame, c) => (eventOf frame, c)

/-- One of the first calls throws. -/
def throwsWithin : Nat → Client → Prop
  | 0, _ => False
  | calls + 1, c => (readEvent c).1 = .throws ∨ throwsWithin calls (readEvent c).2

section

variable {σ : Type} (connect : Nat → Option Client) (onAnswer onHangup : σ → Headers → Option σ)

/-- What `eventLoop` does with an event; `none` for an exception. -/
def dispatch (calls : σ) (event : Headers) : Option σ :=
  if event = [] then some calls
  else
    let name := (event.lookup (text "Event-Name")).getD []
    if name = text "CHANNEL_ANSWER" then onAnswer calls event
    else if name = text "CHANNEL_HANGUP_COMPLETE" then onHangup calls event
    else some calls

/-- `runForever` at the top of one of its two loops: before `connect`, or connected and in
`eventLoop`. -/
structure Running (σ : Type) where
  client : Option Client
  connects : Nat
  calls : σ

/-- One turn of a loop. `connect` gives a client or an exception, and so does the round of
`eventLoop`. -/
def turn (m : Running σ) : Running σ :=
  match m.client with
  | none => { m with client := connect m.connects, connects := m.connects + 1 }
  | some c =>
    match readEvent c with
    | (.throws, _) => { m with client := none }
    | (.null, c) => { m with client := some c }
    | (.event event, c) =>
      match dispatch onAnswer onHangup m.calls event with
      | none => { m with client := none }
      | some calls => { m with client := some c, calls }

end

/-! ## What a buffer begins with -/

theorem parseInt_range {s : Text} {n : Int} (h : parseInt s = some n) : -2 ^ 31 ≤ n ∧ n < 2 ^ 31 := by
  unfold parseInt parseSigned at h
  split at h
  all_goals
    obtain ⟨m, -, hm⟩ := Option.bind_eq_some_iff.mp h
    split at hm
    · obtain rfl := Option.some.inj hm
      constructor <;> omega
    · exact nomatch hm

theorem contentLengthOf_range (header : List UInt8) :
    -2 ^ 31 ≤ contentLengthOf header ∧ contentLengthOf header < 2 ^ 31 := by
  unfold contentLengthOf parseContentLength
  split
  case h_1 => decide
  case h_2 s _ =>
    split
    · decide
    cases hs : parseInt (trim s) with
    | none => decide
    | some n => exact parseInt_range hs

theorem findHeaderSeparator_eq_some {data : List UInt8} {sep : Nat}
    (h : findHeaderSeparator data = some sep) :
    ∃ (header : List UInt8) (separator : Separator) (rest : List UInt8),
      data = header ++ separator.bytes ++ rest ∧
      ∀ s : Separator, ¬ s.bytes <:+: (header ++ separator.bytes).dropLast := by
  induction data generalizing sep with
  | nil => exact nomatch h
  | cons b data ih =>
    rw [findHeaderSeparator] at h
    split at h
    case isTrue hhere =>
      obtain ⟨separator, rest, hrest⟩ := separatorAt_iff.mp hhere
      refine ⟨[], separator, rest, hrest.symm, ?_⟩
      cases separator <;> (intro s; cases s <;> decide)
    case isFalse hhere =>
      obtain ⟨sep, hsep, -⟩ := Option.map_eq_some_iff.mp h
      obtain ⟨header, separator, rest, rfl, hno⟩ := ih hsep
      have hne : header ++ separator.bytes ≠ [] := by cases separator <;> simp [Separator.bytes]
      refine ⟨b :: header, separator, rest, rfl, fun s hs => ?_⟩
      rw [List.cons_append, List.dropLast_cons_of_ne_nil hne, List.infix_cons_iff] at hs
      -- it would begin here, or lie in the rest of the block
      rcases hs with hs | hs
      · refine hhere (separatorAt_iff.mpr ⟨s, hs.trans ?_⟩)
        rw [List.cons_prefix_cons]
        exact ⟨rfl, (List.dropLast_prefix _).trans (List.prefix_append _ _)⟩
      · exact hno s hs

/-- A header block whose length is negative or takes the end of the frame out of the range of an
`int`. -/
structure BadHead (header : List UInt8) (separator : Separator) : Prop where
  no_blank_line : ∀ s : Separator, ¬ s.bytes <:+: (header ++ separator.bytes).dropLast
  length : contentLengthOf header < 0 ∨
    (2 ^ 31 : Int) ≤ (header.length + separator.bytes.length : Nat) + contentLengthOf header

theorem tryParseFrame_bad {header rest : List UInt8} {separator : Separator}
    (h : BadHead header separator) (hlen : (header ++ separator.bytes ++ rest).length < 2 ^ 31) :
    tryParseFrame (header ++ separator.bytes ++ rest) = .throws := by
  have hrange := contentLengthOf_range header
  have hlength := h.length
  rw [List.length_append, List.length_append] at hlen
  rw [tryParseFrame_head rest h.no_blank_line]
  dsimp only
  by_cases hneg : contentLengthOf header < 0
  · rw [if_neg ?_, if_pos (.inl hneg)]
    rw [Int.bmod_eq_of_le (by omega) (by omega)]
    omega
  · -- the sum has become negative
    have hover : ((header.length + separator.bytes.length : Nat) + contentLengthOf header).bmod
        (2 ^ 32) < 0 := by
      rw [Int.bmod_def]
      split <;> omega
    rw [if_neg (by omega), if_pos (.inr (.inl hover))]

/-- A buffer begins with a whole frame, with a header block that makes it throw, or is a part of a
frame. -/
theorem tryParseFrame_cases {buffer : List UInt8} (hlen : buffer.length < 2 ^ 31) :
    tryParseFrame buffer = .incomplete ∨
      (∃ (header : List UInt8) (separator : Separator) (rest : List UInt8), BadHead header separator ∧
        buffer = header ++ separator.bytes ++ rest) ∨
      ∃ (f : SentFrame) (rest : List UInt8), f.bytes.length < 2 ^ 31 ∧ buffer = f.bytes ++ rest := by
  cases hfind : findHeaderSeparator buffer with
  | none =>
    left
    rw [tryParseFrame, hfind]
  | some sep =>
    obtain ⟨header, separator, rest, rfl, hno⟩ := findHeaderSeparator_eq_some hfind
    by_cases hlength : contentLengthOf header < 0 ∨
        (2 ^ 31 : Int) ≤ (header.length + separator.bytes.length : Nat) + contentLengthOf header
    · exact .inr (.inl ⟨header, separator, rest, ⟨hno, hlength⟩, rfl⟩)
    obtain ⟨n, hn⟩ := Int.eq_ofNat_of_zero_le (show 0 ≤ contentLengthOf header by omega)
    by_cases hwhole : n ≤ rest.length
    · -- the body is there
      refine .inr (.inr ⟨⟨header, separator, rest.take n, hno, ?_⟩, rest.drop n, ?_, ?_⟩)
      · rw [hn, List.length_take, Nat.min_eq_left hwhole]
      · simp only [SentFrame.bytes, SentFrame.head, List.length_append, List.length_take]
        omega
      · simp only [SentFrame.bytes, SentFrame.head, List.append_assoc, List.take_append_drop]
    · -- some of it is missing
      left
      let f : SentFrame := ⟨header, separator, rest ++ List.replicate (n - rest.length) 0, hno, by
        rw [hn, List.length_append, List.length_replicate]
        omega⟩
      have hbytes : f.bytes = header ++ separator.bytes ++ rest ++ List.replicate (n - rest.length) 0 :=
        (List.append_assoc _ _ _).symm
      refine @tryParseFrame_unfinished f ?_ _ ⟨_, hbytes.symm⟩ fun heq => ?_
      · rw [f.length_bytes, List.length_append, List.length_replicate]
        show header.length + separator.bytes.length + _ < _
        omega
      · have hsame := congrArg List.length (heq.trans hbytes)
        simp only [List.length_append, List.length_replicate] at hsame
        omega

/-! ## Calls at the end of the stream -/

/-- Whole frames, and then a header block that makes `tryParseFrame` throw. -/
inductive Broken : List UInt8 → Prop where
  | head {header : List UInt8} {separator : Separator} (bad : BadHead header separator)
      (rest : List UInt8) :
      Broken (header ++ separator.bytes ++ rest)
  | behind (f : SentFrame) {rest : List UInt8} (int : f.bytes.length < 2 ^ 31) (h : Broken rest) :
      Broken (f.bytes ++ rest)

theorem recvFrame_end (buffer : List UInt8) :
    recvFrame ⟨buffer, []⟩ = some (match tryParseFrame buffer with
    | .frame frame rest => (.frame frame, ⟨rest, []⟩)
    | .throws => (.throws, ⟨buffer, []⟩)
    | .incomplete => (.null, ⟨buffer, []⟩)) := by
  show recvLoop 1 _ = _
  rw [recvLoop]
  cases tryParseFrame buffer <;> rfl

/-- At the end of the stream, a call only looks into the buffer. -/
theorem readEvent_end (buffer : List UInt8) : readEvent ⟨buffer, []⟩ = match tryParseFrame buffer with
    | .frame frame rest => (eventOf frame, ⟨rest, []⟩)
    | .throws => (.throws, ⟨buffer, []⟩)
    | .incomplete => (.null, ⟨buffer, []⟩) := by
  unfold readEvent
  rw [Option.get_of_eq_some (recvFrame_isSome ⟨buffer, []⟩) (recvFrame_end buffer)]
  cases tryParseFrame buffer <;> rfl

theorem eventOf_ne_throws (frame : Frame) : eventOf frame ≠ .throws := by
  unfold eventOf
  split <;> nofun

theorem broken_of_throwsWithin {calls : Nat} {buffer : List UInt8} (hlen : buffer.length < 2 ^ 31)
    (h : throwsWithin calls ⟨buffer, []⟩) : Broken buffer := by
  induction calls generalizing buffer with
  | zero => exact h.elim
  | succ calls ih =>
    rw [throwsWithin, readEvent_end] at h
    rcases tryParseFrame_cases hlen with
      hnone | ⟨header, separator, rest, hbad, rfl⟩ | ⟨f, rest, hlt, rfl⟩
    · -- the call returns `null` and changes nothing
      rw [hnone] at h
      exact ih hlen (h.resolve_left nofun)
    · exact .head hbad rest
    · rw [tryParseFrame_sent hlt rest] at h
      rw [List.length_append] at hlen
      exact .behind f hlt (ih (by omega) (h.resolve_left (eventOf_ne_throws f.frame)))

/-- **At the end of the stream a call throws in the end exactly if the buffer is broken.** -/
theorem throwsWithin_iff {buffer : List UInt8} (hlen : buffer.length < 2 ^ 31) :
    (∃ calls, throwsWithin calls ⟨buffer, []⟩) ↔ Broken buffer := by
  refine ⟨fun ⟨_, h⟩ => broken_of_throwsWithin hlen h, fun h => ?_⟩
  induction h with
  | head bad rest =>
    refine ⟨1, .inl ?_⟩
    rw [readEvent_end, tryParseFrame_bad bad hlen]
  | @behind f rest hlt _ ih =>
    rw [List.length_append] at hlen
    obtain ⟨calls, hcalls⟩ := ih (by omega)
    refine ⟨calls + 1, .inr ?_⟩
    rwa [readEvent_end, tryParseFrame_sent hlt]

section

variable {σ : Type} (connect : Nat → Option Client) (onAnswer onHangup : σ → Headers → Option σ)

/-- An exception of `readEvent` ends `eventLoop`, if an exception of a handler has not done so
before. -/
theorem disconnects_of_throwsWithin {calls : Nat} {c : Client} (h : throwsWithin calls c)
    (connects : Nat) (s : σ) :
    ∃ turns s', (turn connect onAnswer onHangup)^[turns] ⟨some c, connects, s⟩ =
      ⟨none, connects, s'⟩ := by
  induction calls generalizing c s with
  | zero => exact h.elim
  | succ calls ih =>
    rcases hread : readEvent c with ⟨event, c'⟩
    rw [throwsWithin, hread] at h
    -- one turn, and what follows it
    have hturn : ∀ {m}, turn connect onAnswer onHangup ⟨some c, connects, s⟩ = m →
        (∃ turns s', (turn connect onAnswer onHangup)^[turns] m = ⟨none, connects, s'⟩) →
          ∃ turns s', (turn connect onAnswer onHangup)^[turns] ⟨some c, connects, s⟩ =
            ⟨none, connects, s'⟩ := by
      rintro m rfl ⟨turns, s', hturns⟩
      exact ⟨turns + 1, s', hturns⟩
    cases event with
    | throws => exact ⟨1, s, by simp only [Function.iterate_one, turn, hread]⟩
    | null => exact hturn (by simp only [turn, hread]) (ih (h.resolve_left nofun) s)
    | event headers =>
      cases hdispatch : dispatch onAnswer onHangup s headers with
      | none => exact ⟨1, s, by simp only [Function.iterate_one, turn, hread, hdispatch]⟩
      | some s₁ => exact hturn (by simp only [turn, hread, hdispatch]) (ih (h.resolve_left nofun) s₁)

/-- **The monitor connects again.** -/
theorem reconnects_iff (c : Client) (hend : c.reads = []) (hlen : c.buffer.length < 2 ^ 31)
    (connects : Nat) (s : σ) :
    ((∃ calls, throwsWithin calls c)
      ∧ (∃ turns, ((turn connect onAnswer onHangup)^[turns] ⟨some c, connects, s⟩).client = none)
      ∧ ∃ turns, connects < ((turn connect onAnswer onHangup)^[turns] ⟨some c, connects, s⟩).connects)
      ↔ Broken c.buffer := by
  obtain ⟨buffer, reads⟩ := c
  obtain rfl : reads = [] := hend
  refine ⟨fun h => (throwsWithin_iff hlen).mp h.1, fun h => ?_⟩
  obtain ⟨calls, hcalls⟩ := (throwsWithin_iff hlen).mpr h
  obtain ⟨turns, s', hturns⟩ := disconnects_of_throwsWithin connect onAnswer onHangup hcalls connects s
  refine ⟨⟨calls, hcalls⟩, ⟨turns, by rw [hturns]⟩, turns + 1, ?_⟩
  rw [Function.iterate_succ_apply', hturns]
  exact Nat.lt_succ_self connects

end

/-- A header block with the length `-1`, in front of its blank line. -/
def negativeHead : List UInt8 := CString.bytes "Content-Length: -1"

theorem reconnects_iff_negative :
    (∃ calls, throwsWithin calls ⟨negativeHead ++ Separator.lf.bytes ++ [], []⟩)
      ∧ (∃ turns, ((turn (fun _ => none) (fun _ _ => some ()) (fun _ _ => some ()))^[turns]
        ⟨some ⟨negativeHead ++ Separator.lf.bytes ++ [], []⟩, 1, ()⟩).client = none)
      ∧ ∃ turns, 1 < ((turn (fun _ => none) (fun _ _ => some ()) (fun _ _ => some ()))^[turns]
        ⟨some ⟨negativeHead ++ Separator.lf.bytes ++ [], []⟩, 1, ()⟩).connects := by
  have hbad : BadHead negativeHead .lf :=
    ⟨fun s => by cases s <;> decide +kernel, .inl (by decide +kernel)⟩
  exact (reconnects_iff (fun _ => none) (fun _ _ => some ()) (fun _ _ => some ())
    ⟨negativeHead ++ Separator.lf.bytes ++ [], []⟩
    rfl (by decide +kernel) 1 ()).mpr (.head hbad [])

/-- Nothing is left in the buffer: `readEvent` returns `null` for ever. -/
theorem readEvent_never_throws : ¬ ∃ calls, throwsWithin calls ⟨[], []⟩ := by
  rintro ⟨calls, h⟩
  induction calls with
  | zero => exact h
  | succ calls ih => exact ih (h.resolve_left nofun)

end FreeSwitch.Ptt
