import FreeSwitch.Lib.CString
import FreeSwitch.Ptt.EslClient

/-!
# What `recvFrame` makes of a stream of frames

`readNBytes` asks for 65535 bytes at a time and throws away what it has when a read times out.
So nothing is lost as long as a timeout falls only between two such requests, and then the calls
return the frames of the stream one by one. A frame that arrives and is followed by a silence is
lost.

* **`SentFrame`** — what the other side sends.
* **`tryParseFrame_sent`** / **`tryParseFrame_unfinished`** — the buffer parses as soon as a frame
  is whole, and not before.
* **`readNBytes_aligned`** — a request that no timeout cuts short loses nothing.
* **`recvLoop_spec`** — one call, from a buffer in the middle of the stream.
-/

namespace FreeSwitch.Ptt

open JavaText

/-! ## Frames on the wire -/

/-- A header block without a blank line, the blank line that ends it, and a body of the length
that the header block states. -/
structure SentFrame where
  header : List UInt8
  separator : Separator
  body : List UInt8
  no_blank_line : ∀ s : Separator, ¬ s.bytes <:+: (header ++ separator.bytes).dropLast
  body_length : contentLengthOf header = body.length

namespace SentFrame

def head (f : SentFrame) : List UInt8 := f.header ++ f.separator.bytes

def bytes (f : SentFrame) : List UInt8 := f.head ++ f.body

/-- The frame as the client's data. -/
def frame (f : SentFrame) : Frame :=
  { headers := parseHeaders (decodeUtf8 f.header), body := decodeUtf8 f.body }

/-- An array can hold the frame and the 65535 bytes that come behind a part of it. -/
def Fits (f : SentFrame) : Prop := f.bytes.length + chunkSize ≤ 2 ^ 31

instance (f : SentFrame) : Decidable f.Fits := inferInstanceAs (Decidable (_ ≤ _))

end SentFrame

/-- What is left at the end of the stream: a frame of which some bytes are missing. -/
def Cut (tail : List UInt8) : Prop := ∃ f : SentFrame, f.Fits ∧ tail <+: f.bytes ∧ tail ≠ f.bytes

/-! ## The buffer -/

theorem separatorAt_iff {data : List UInt8} :
    separatorAt data = true ↔ ∃ s : Separator, s.bytes <+: data := by
  rw [separatorAt, Bool.or_eq_true, List.isPrefixOf_iff_prefix, List.isPrefixOf_iff_prefix]
  constructor
  · rintro (h | h)
    · exact ⟨.lf, h⟩
    · exact ⟨.crlf, h⟩
  · rintro ⟨s, h⟩
    cases s with
    | lf => exact .inl h
    | crlf => exact .inr h

theorem findHeaderSeparator_eq_none {data : List UInt8}
    (h : ∀ s : Separator, ¬ s.bytes <:+: data) : findHeaderSeparator data = none := by
  induction data with
  | nil => rfl
  | cons b data ih =>
    have hhere : separatorAt (b :: data) = false := by
      rw [← Bool.not_eq_true, separatorAt_iff]
      exact fun ⟨s, hs⟩ => h s hs.isInfix
    have hrest : findHeaderSeparator data = none :=
      ih fun s hs => h s (List.infix_cons_iff.mpr (.inr hs))
    simp [findHeaderSeparator, hhere, hrest]

/-- No separator begins before the one that ends the block: it would lie in the block and that
one without its last byte. -/
theorem not_separatorAt_cons {b : UInt8} {header rest : List UInt8} {separator : Separator}
    (h : ∀ s : Separator, ¬ s.bytes <:+: (b :: header ++ separator.bytes).dropLast) :
    separatorAt (b :: header ++ separator.bytes ++ rest) = false := by
  rw [← Bool.not_eq_true, separatorAt_iff]
  rintro ⟨s, hs⟩
  have hlen : s.bytes.length < (b :: header ++ separator.bytes).length → False := by
    intro hlt
    apply h s
    apply List.IsPrefix.isInfix
    rw [List.dropLast_eq_take]
    have htake := List.prefix_take_iff.mpr ⟨hs, Nat.le_sub_one_of_lt hlt⟩
    rwa [List.take_append_of_le_length (Nat.sub_le _ _)] at htake
  -- Only a separator of four bytes in a block of one or two bytes is left.
  cases separator with
  | crlf => exact hlen (by cases s <;> simp [Separator.bytes])
  | lf =>
    cases s with
    | lf => exact hlen (by simp [Separator.bytes])
    | crlf =>
      match header with
      | [] => simp [Separator.bytes, List.cons_prefix_cons] at hs
      | [c] => simp [Separator.bytes, List.cons_prefix_cons] at hs
      | c :: d :: header => exact hlen (by simp [Separator.bytes])

theorem findHeaderSeparator_head {header rest : List UInt8} {separator : Separator}
    (h : ∀ s : Separator, ¬ s.bytes <:+: (header ++ separator.bytes).dropLast) :
    findHeaderSeparator (header ++ separator.bytes ++ rest) = some header.length := by
  induction header with
  | nil =>
    have hhere : separatorAt (separator.bytes ++ rest) = true :=
      separatorAt_iff.mpr ⟨separator, List.prefix_append _ _⟩
    cases separator <;>
      · simp only [Separator.bytes, List.nil_append, List.cons_append] at hhere ⊢
        rw [findHeaderSeparator, if_pos hhere]
        rfl
  | cons b header ih =>
    have hne : header ++ separator.bytes ≠ [] := by cases separator <;> simp [Separator.bytes]
    have hrest := ih fun s hs => h s (by
      rw [List.cons_append, List.dropLast_cons_of_ne_nil hne]
      exact List.infix_cons_iff.mpr (.inr hs))
    have hhere := @not_separatorAt_cons b header rest separator h
    rw [List.cons_append, List.cons_append] at hhere ⊢
    rw [findHeaderSeparator, hhere, hrest]
    rfl

theorem separator_length (s : Separator) (header rest : List UInt8) :
    (if (header ++ s.bytes ++ rest)[header.length]? = some 13 then 4 else 2) = s.bytes.length := by
  cases s <;> simp [Separator.bytes]

theorem SentFrame.length_bytes (f : SentFrame) :
    f.bytes.length = f.header.length + f.separator.bytes.length + f.body.length := by
  rw [SentFrame.bytes, SentFrame.head, List.length_append, List.length_append]

theorem SentFrame.Fits.lt {f : SentFrame} (hfit : f.Fits) : f.bytes.length < 2 ^ 31 := by
  have hbound : f.bytes.length + 65535 ≤ 2 ^ 31 := hfit
  omega

/-- A buffer that begins with a header block and its blank line. -/
theorem tryParseFrame_head {header : List UInt8} {separator : Separator} (rest : List UInt8)
    (h : ∀ s : Separator, ¬ s.bytes <:+: (header ++ separator.bytes).dropLast) :
    tryParseFrame (header ++ separator.bytes ++ rest) =
      let bodyStart := header.length + separator.bytes.length
      let total := (bodyStart + contentLengthOf header : Int).bmod (2 ^ 32)
      if (bodyStart + rest.length : Int) < total then .incomplete
      else if contentLengthOf header < 0 ∨ total < 0 ∨ (rest.length : Int) < contentLengthOf header then
        .throws
      else
        .frame ⟨parseHeaders (decodeUtf8 header), decodeUtf8 (rest.take (contentLengthOf header).toNat)⟩
          ((header ++ separator.bytes ++ rest).drop total.toNat) := by
  have htake : (header ++ separator.bytes ++ rest).take header.length = header := by
    rw [List.append_assoc, List.take_left]
  have hbody : (header ++ separator.bytes ++ rest).drop (header.length + separator.bytes.length) =
      rest := by
    rw [← List.length_append, List.drop_left]
  have hlen : ((header ++ separator.bytes ++ rest).length : Int) =
      (header.length + separator.bytes.length : Nat) + rest.length := by
    rw [List.length_append, List.length_append, Nat.cast_add]
  simp only [tryParseFrame, findHeaderSeparator_head h, separator_length, htake, hbody, hlen,
    Int.add_lt_add_iff_left]

theorem SentFrame.total {f : SentFrame} (hlt : f.bytes.length < 2 ^ 31) :
    ((f.header.length + f.separator.bytes.length : Nat) + contentLengthOf f.header : Int).bmod (2 ^ 32)
      = f.bytes.length := by
  have hlen := f.length_bytes
  rw [f.body_length, Int.bmod_eq_of_le (by omega) (by omega)]
  omega

/-- A whole frame in front of the buffer is taken out. -/
theorem tryParseFrame_sent {f : SentFrame} (hlt : f.bytes.length < 2 ^ 31) (rest : List UInt8) :
    tryParseFrame (f.bytes ++ rest) = .frame f.frame rest := by
  have hlen := f.length_bytes
  have hhead := tryParseFrame_head (f.body ++ rest) f.no_blank_line
  have hdata : f.header ++ f.separator.bytes ++ (f.body ++ rest) = f.bytes ++ rest :=
    (List.append_assoc _ _ _).symm
  simp only [SentFrame.total hlt, hdata] at hhead
  rw [f.body_length, List.length_append] at hhead
  rw [hhead, if_neg (by omega), if_neg (by omega), Int.toNat_natCast, Int.toNat_natCast, List.take_left,
    List.drop_left]
  rfl

/-- A part of a frame is left in the buffer. -/
theorem tryParseFrame_unfinished {f : SentFrame} (hbound : f.bytes.length < 2 ^ 31) {part : List UInt8}
    (hpart : part <+: f.bytes) (hne : part ≠ f.bytes) : tryParseFrame part = .incomplete := by
  have hlt : part.length < f.bytes.length :=
    lt_of_le_of_ne hpart.length_le fun h => hne (hpart.eq_of_length h)
  by_cases hhead : part.length < f.head.length
  · -- The blank line is not there yet.
    have hnone : findHeaderSeparator part = none := by
      apply findHeaderSeparator_eq_none
      intro s hs
      apply f.no_blank_line s
      refine hs.trans (List.IsPrefix.isInfix ?_)
      show part <+: f.head.dropLast
      rw [List.dropLast_eq_take]
      have htake := List.prefix_take_iff.mpr ⟨hpart, Nat.le_sub_one_of_lt hhead⟩
      rwa [SentFrame.bytes, List.take_append_of_le_length (Nat.sub_le _ _)] at htake
    rw [tryParseFrame, hnone]
  · obtain ⟨body, rfl⟩ : ∃ body, part = f.head ++ body := by
      have hhead' : f.head <+: part :=
        List.prefix_of_prefix_length_le (List.prefix_append _ _) hpart (by omega)
      exact hhead'.imp fun _ h => h.symm
    rw [List.length_append, SentFrame.head, List.length_append] at hlt
    rw [SentFrame.head, tryParseFrame_head body f.no_blank_line]
    simp only [SentFrame.total hbound]
    rw [if_pos (by omega)]

/-! ## Requests and timeouts -/

/-- A timeout falls only where a request of 65535 bytes ends; `arrived` bytes have come
before. -/
def Aligned : Nat → List SocketRead → Prop
  | _, [] => True
  | arrived, .timeout :: reads => arrived % chunkSize = 0 ∧ Aligned arrived reads
  | arrived, .data bytes :: reads => Aligned (arrived + bytes.length) reads

instance decidableAligned : ∀ (arrived : Nat) (reads : List SocketRead),
    Decidable (Aligned arrived reads)
  | _, [] => inferInstanceAs (Decidable True)
  | arrived, .timeout :: reads =>
    have := decidableAligned arrived reads
    inferInstanceAs (Decidable (_ ∧ _))
  | arrived, .data bytes :: reads => decidableAligned (arrived + bytes.length) reads

theorem Aligned.congr {arrived arrived' : Nat} {reads : List SocketRead}
    (h : Aligned arrived reads) (hmod : arrived % chunkSize = arrived' % chunkSize) :
    Aligned arrived' reads := by
  induction reads generalizing arrived arrived' with
  | nil => trivial
  | cons read reads ih =>
    cases read with
    | timeout => exact ⟨hmod ▸ h.1, ih h.2 hmod⟩
    | data bytes => exact ih h (by rw [Nat.add_mod, hmod, ← Nat.add_mod])

/-- What a request can do that starts where `n` bytes are missing to the next boundary. -/
inductive Request (n : Nat) (acc : List UInt8) (reads : List SocketRead) :
    Option (List UInt8) × List SocketRead → Prop where
  | done (chunk : List UInt8) (rest : List SocketRead)
      (bytes : chunk ++ incoming rest = acc ++ incoming reads) (aligned : Aligned 0 rest)
      (full : acc.length + n ≤ chunk.length ∨ rest = [])
      (le : chunk.length ≤ acc.length + n) (shorter : rest.length ≤ reads.length) :
      Request n acc reads (some chunk, rest)
  | timeout (rest : List SocketRead) (start : n = chunkSize)
      (bytes : incoming rest = incoming reads) (aligned : Aligned 0 rest)
      (shorter : rest.length < reads.length) :
      Request n acc reads (none, rest)

theorem readNBytes_aligned :
    ∀ (reads : List SocketRead) (n arrived : Nat) (acc : List UInt8), n ≤ chunkSize →
      (arrived + n) % chunkSize = 0 → Aligned arrived reads →
      Request n acc reads (readNBytes n reads acc) := by
  intro reads
  induction reads with
  | nil =>
    intro n arrived acc hn hmod h
    cases n <;> exact .done acc [] rfl trivial (.inr rfl) (by omega) le_rfl
  | cons read reads ih =>
    intro n arrived acc hn hmod h
    cases n with
    | zero =>
      have haligned : Aligned 0 (read :: reads) := h.congr (by simpa using hmod)
      exact .done acc (read :: reads) rfl haligned (.inl le_rfl) le_rfl le_rfl
    | succ n =>
      cases read with
      | timeout =>
        -- The boundary is here, so the request has just begun.
        have hstart : n + 1 = chunkSize := by
          have h0 := h.1
          simp only [chunkSize] at h0 hmod hn ⊢
          omega
        exact .timeout reads hstart rfl (h.2.congr (by simpa using h.1)) (by simp)
      | data bytes =>
        rw [readNBytes]
        split
        · rename_i hle
          have hnext : Aligned (arrived + bytes.length) reads := h
          have hrec := ih (n + 1 - bytes.length) _ (acc ++ bytes) (by omega)
            (by rwa [show arrived + bytes.length + (n + 1 - bytes.length) = arrived + (n + 1) by omega])
            hnext
          generalize readNBytes (n + 1 - bytes.length) reads (acc ++ bytes) = result at hrec ⊢
          cases hrec with
          | done chunk rest hbytes haligned hfull hle' hshort =>
            simp only [List.length_append] at hfull hle'
            refine .done chunk rest (by simpa [incoming] using hbytes) haligned ?_ (by omega)
              (by simp; omega)
            rcases hfull with hfull | hfull
            · exact .inl (by omega)
            · exact .inr hfull
          | timeout rest hstart hbytes haligned hshort =>
            have hnil : bytes = [] := List.length_eq_zero_iff.mp (by omega)
            subst hnil
            exact .timeout rest (by simpa using hstart) (by simpa [incoming] using hbytes) haligned
              (by simp; omega)
        · rename_i hgt
          have hdrop : Aligned 0 (.data (bytes.drop (n + 1)) :: reads) := by
            show Aligned (0 + (bytes.drop (n + 1)).length) reads
            have hall : Aligned (arrived + bytes.length) reads := h
            refine hall.congr ?_
            simp only [List.length_drop, chunkSize] at hmod ⊢
            omega
          refine .done _ _ ?_ hdrop (.inl ?_) ?_ le_rfl
          · rw [incoming, incoming, List.append_assoc, ← List.append_assoc (bytes.take (n + 1)),
              List.take_append_drop]
          · simp; omega
          · simp

/-! ## One call and all calls -/

/-- The client stands in the stream: what it has and what will come are the frames not yet
returned. -/
structure Within (frames : List SentFrame) (tail : List UInt8) (c : Client) : Prop where
  stream : c.buffer ++ incoming c.reads = frames.flatMap SentFrame.bytes ++ tail
  aligned : Aligned 0 c.reads
  fits : ∀ f ∈ frames, f.Fits
  cut : Cut tail

/-- The buffer begins with the next frame, or is a part of a frame. -/
theorem Within.buffer_cases {frames : List SentFrame} {tail : List UInt8} {c : Client}
    (h : Within frames tail c) :
    (∃ f fs rest, frames = f :: fs ∧ c.buffer = f.bytes ++ rest) ∨
      (∃ f : SentFrame, f.Fits ∧ c.buffer <+: f.bytes ∧ c.buffer ≠ f.bytes ∧
        (incoming c.reads = [] → frames = [])) := by
  have hbegins : c.buffer <+: frames.flatMap SentFrame.bytes ++ tail := ⟨_, h.stream⟩
  cases frames with
  | nil =>
    obtain ⟨f, hfit, htail, hne⟩ := h.cut
    have hbuffer : c.buffer <+: tail := by simpa using hbegins
    refine .inr ⟨f, hfit, hbuffer.trans htail, ?_, fun _ => rfl⟩
    intro heq
    exact hne (htail.eq_of_length_le (heq ▸ hbuffer.length_le))
  | cons f fs =>
    have hf : f.bytes <+: (f :: fs).flatMap SentFrame.bytes ++ tail := by simp
    by_cases hlen : f.bytes.length ≤ c.buffer.length
    · obtain ⟨rest, hrest⟩ := List.prefix_of_prefix_length_le hf hbegins hlen
      exact .inl ⟨f, fs, rest, rfl, hrest.symm⟩
    · refine .inr ⟨f, h.fits f List.mem_cons_self,
        List.prefix_of_prefix_length_le hbegins hf (by omega), ?_, ?_⟩
      · intro heq
        exact hlen (by rw [heq])
      · intro hdone
        exfalso
        have hlength := congrArg List.length h.stream
        simp only [hdone, List.append_nil, List.flatMap_cons, List.length_append] at hlength
        omega

/-- What a call gives, and where it leaves the client. -/
inductive Call (frames : List SentFrame) (tail : List UInt8) (reads : List SocketRead) :
    Received × Client → Prop where
  | frame (f : SentFrame) (fs : List SentFrame) (c : Client) (next : frames = f :: fs)
      (within : Within fs tail c) (shorter : c.reads.length ≤ reads.length) :
      Call frames tail reads (.frame f.frame, c)
  | timeout (c : Client) (within : Within frames tail c) (shorter : c.reads.length < reads.length) :
      Call frames tail reads (.null, c)
  | ended (c : Client) (none_left : frames = []) (within : Within frames tail c)
      (at_end : c.reads = []) :
      Call frames tail reads (.null, c)

theorem Call.mono {frames : List SentFrame} {tail : List UInt8} {reads reads' : List SocketRead}
    {r : Received × Client} (h : Call frames tail reads r) (hle : reads.length ≤ reads'.length) :
    Call frames tail reads' r := by
  cases h with
  | frame f fs c hnext hwithin hshort => exact .frame f fs c hnext hwithin (hshort.trans hle)
  | timeout c hwithin hshort => exact .timeout c hwithin (hshort.trans_le hle)
  | ended c hnone hwithin hend => exact .ended c hnone hwithin hend

theorem recvLoop_spec {frames : List SentFrame} {tail : List UInt8} :
    ∀ (rounds : Nat) (c : Client), (incoming c.reads).length < rounds → Within frames tail c →
      ∃ r, recvLoop rounds c = some r ∧ Call frames tail c.reads r := by
  intro rounds
  induction rounds with
  | zero => intro c hr; omega
  | succ rounds ih =>
    intro c hr h
    rw [recvLoop]
    rcases h.buffer_cases with ⟨f, fs, rest, rfl, hbuffer⟩ | ⟨f, hfit, hpart, hne, hend⟩
    · -- A frame is there.
      have hfits := List.forall_mem_cons.mp h.fits
      rw [hbuffer, tryParseFrame_sent hfits.1.lt]
      refine ⟨_, rfl, .frame f fs _ rfl ⟨?_, h.aligned, hfits.2, h.cut⟩ le_rfl⟩
      have hstream := h.stream
      rw [hbuffer, List.flatMap_cons, List.append_assoc, List.append_assoc] at hstream
      exact List.append_cancel_left hstream
    · rw [tryParseFrame_unfinished hfit.lt hpart hne]
      have hrequest := readNBytes_aligned c.reads chunkSize 0 [] le_rfl (by simp) h.aligned
      cases hread : readNBytes chunkSize c.reads [] with
      | mk chunk reads =>
        rw [hread] at hrequest
        cases hrequest with
        | timeout _ _ hbytes haligned hshort =>
          exact ⟨_, rfl, .timeout _ ⟨by simpa [hbytes] using h.stream, haligned, h.fits, h.cut⟩ hshort⟩
        | done chunk _ hbytes haligned hfull hle hshort =>
          simp only [List.nil_append, List.length_nil, Nat.zero_add] at hbytes hfull hle
          have hbytes' := congrArg List.length hbytes
          rw [List.length_append] at hbytes'
          cases chunk with
          | nil =>
            -- The end of the stream.
            have hreads : reads = [] := by simpa [chunkSize] using hfull
            subst hreads
            have hnone : incoming c.reads = [] := by simpa [incoming] using hbytes.symm
            refine ⟨_, rfl, .ended _ (hend hnone) ⟨?_, haligned, h.fits, h.cut⟩ rfl⟩
            simpa [hnone, incoming] using h.stream
          | cons b chunk =>
            have hsmall : ¬ 2 ^ 31 ≤ c.buffer.length + (b :: chunk).length := by
              have hlt : c.buffer.length < f.bytes.length :=
                lt_of_le_of_ne hpart.length_le fun heq => hne (hpart.eq_of_length heq)
              have hfit' : f.bytes.length + chunkSize ≤ 2 ^ 31 := hfit
              omega
            have hwithin : Within frames tail ⟨c.buffer ++ b :: chunk, reads⟩ :=
              ⟨by rw [List.append_assoc, hbytes]; exact h.stream, haligned, h.fits, h.cut⟩
            have hfewer : (incoming reads).length < rounds := by
              rw [List.length_cons] at hbytes'
              omega
            obtain ⟨r, hr', hcall⟩ := ih _ hfewer hwithin
            refine ⟨r, ?_, hcall.mono hshort⟩
            show (if 2 ^ 31 ≤ c.buffer.length + (b :: chunk).length then _ else _) = some r
            rw [if_neg hsmall, hr']

theorem receivedFrames_spec {tail : List UInt8} :
    ∀ (calls : Nat) (frames : List SentFrame) (c : Client), Within frames tail c →
      frames.length + c.reads.length ≤ calls → receivedFrames calls c = frames.map SentFrame.frame := by
  intro calls
  induction calls with
  | zero =>
    intro frames c _ hcalls
    rw [List.length_eq_zero_iff.mp (show frames.length = 0 by omega)]
    rfl
  | succ calls ih =>
    intro frames c h hcalls
    obtain ⟨r, hr, hcall⟩ := recvLoop_spec _ c (Nat.lt_succ_self _) h
    rw [receivedFrames, recvFrame, hr]
    cases hcall with
    | frame f fs c' hnext hwithin hshort =>
      subst hnext
      show f.frame :: receivedFrames calls c' = _
      rw [List.map_cons, ih fs c' hwithin (by simp only [List.length_cons] at hcalls; omega)]
    | timeout c' hwithin hshort => exact ih frames c' hwithin (by omega)
    | ended c' hnone hwithin hend =>
      exact ih frames c' hwithin (by simp [hnone, hend])

/-- The calls of `recvFrame` return the frames of the stream, in order, each once. -/
def Delivers (frames : List SentFrame) (reads : List SocketRead) : Prop :=
  ∃ n, ∀ calls, n ≤ calls → receivedFrames calls ⟨[], reads⟩ = frames.map SentFrame.frame

/-- One frame with a body of two bytes. -/
def okFrame : SentFrame where
  header := CString.bytes "Content-Length: 2"
  separator := .lf
  body := CString.bytes "ok"
  no_blank_line := by
    intro s
    cases s <;> decide +kernel
  body_length := by decide +kernel

theorem cut_nil : Cut [] := ⟨okFrame, by decide +kernel, List.nil_prefix, by decide +kernel⟩

/-- A frame that arrives whole, and then a read that times out: the frame is lost, and no later
call finds it. -/
theorem recvFrame_loses_frame :
    incoming [.data okFrame.bytes, .timeout] = [okFrame].flatMap SentFrame.bytes ++ [] ∧
      Cut [] ∧ okFrame.Fits ∧ ¬ Delivers [okFrame] [.data okFrame.bytes, .timeout] := by
  refine ⟨rfl, cut_nil, by decide +kernel, ?_⟩
  rintro ⟨n, h⟩
  have hend : ∀ calls, receivedFrames calls ⟨[], []⟩ = [] := by
    intro calls
    induction calls with
    | zero => rfl
    | succ calls ih => exact ih
  have hlost : receivedFrames (n + 1) ⟨[], [.data okFrame.bytes, .timeout]⟩ = [] := by
    have hcall : recvFrame ⟨[], [.data okFrame.bytes, .timeout]⟩ = some (.null, ⟨[], []⟩) := by
      decide +kernel
    rw [receivedFrames, hcall]
    exact hend n
  have hall := h (n + 1) (Nat.le_succ n)
  rw [hlost] at hall
  simp at hall

/-- Where every timeout falls between two requests of 65535 bytes, nothing is lost. -/
theorem recvFrame_delivers (frames : List SentFrame) (tail : List UInt8) (reads : List SocketRead)
    (hstream : incoming reads = frames.flatMap SentFrame.bytes ++ tail) (htail : Cut tail)
    (hfits : ∀ f ∈ frames, f.Fits) (haligned : Aligned 0 reads) : Delivers frames reads :=
  ⟨frames.length + reads.length, fun calls hcalls =>
    receivedFrames_spec calls frames ⟨[], reads⟩ ⟨hstream, haligned, hfits, htail⟩ hcalls⟩

/-- Two frames over three reads, with timeouts before the first byte. -/
theorem recvFrame_delivers_two :
    Delivers [okFrame, okFrame]
      [.timeout, .timeout, .data (okFrame.bytes ++ okFrame.header), .data okFrame.separator.bytes,
        .data okFrame.body] :=
  recvFrame_delivers [okFrame, okFrame] [] _ (by decide +kernel) cut_nil
    (by
      intro f hf
      have : f = okFrame := by simpa using hf
      subst this
      decide +kernel)
    (by decide +kernel)

end FreeSwitch.Ptt
