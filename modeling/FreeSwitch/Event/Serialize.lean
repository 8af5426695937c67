import FreeSwitch.Event.Headers
import FreeSwitch.Event.UrlEncode

/-!
# `switch_event_serialize` — `src/switch_event.c`

The text of an event is printed piece by piece into a buffer that grows by estimates: one buffer
for the encoded value of a header, one for the text. Where an estimate is short, `snprintf` and
the encoder cut the piece off and say nothing.

* **`plainText`** — the whole text.
* **`TextFits`** — every estimate is enough, by the lengths of names and encodings.
* **`serialize_plainText_iff`** — the whole text comes out exactly then.

Short estimates: an array is measured by its elements, without the prefix and the separators,
which take six bytes each when they are encoded; `_undef_` is not counted; a `Content-Length` of
seven digits or more does not fit in the 25 bytes that are set aside.
-/

namespace FreeSwitch.Event

open CString

/-! ## The code -/

/-- The state of the loop over the headers: the text so far, `len` being its length, and the sizes
of the two buffers. -/
structure Serializing where
  buf : Str
  dlen : Nat
  encodeLen : Nat
  deriving DecidableEq

def blocksize : Nat := 512

def beginSerializing : Serializing := { buf := [], dlen := blocksize * 2, encodeLen := 1536 }

/-- A header in the list has a value. -/
def Header.text (hp : Header) : Str := hp.value.getD []

/-- `new_len`: the room that is set aside for the encoded value. -/
def newLen (hp : Header) : Nat :=
  if hp.array = [] then hp.text.length * 3 + 1
  else (hp.array.map fun element => element.length * 3 + 1).sum

/-- `dlen` when `llen` more bytes are expected. -/
def grow (dlen len llen : Nat) : Nat :=
  if dlen < len + llen then dlen + (blocksize + (len + llen)) else dlen

/-- `switch_snprintf(buf + len, dlen - len, "%s", text)`. -/
def printAt (buf : Str) (dlen : Nat) (text : Str) : Str := buf ++ text.take (dlen - buf.length - 1)

def undef : Str := bytes "_undef_"

def headerLine (name value : Str) : Str :=
  name ++ [58, 32] ++ (if value = [] then undef else value) ++ [10]

/-- One round of the loop. -/
def serializeHeader (encode : Bool) (st : Serializing) (hp : Header) : Serializing :=
  let encodeLen := max st.encodeLen (newLen hp)
  let encodeBuf :=
    if encode then switchUrlEncode hp.text encodeLen
    else ([91] ++ hp.text ++ [93]).take (encodeLen - 1)
  let llen := hp.name.length + encodeBuf.length + 8
  let dlen := grow st.dlen st.buf.length llen
  { buf := printAt st.buf dlen (headerLine hp.name encodeBuf), dlen, encodeLen }

def contentLength (blen : Int) (body : Str) : Str :=
  bytes "Content-Length: " ++ printInt blen ++ [10, 10] ++ body

/-- The part behind the headers. `blen` is an `int`. Where it makes the estimate negative, the
sum wraps around as a `size_t` and no buffer of that size can be had: `none`. -/
def serializeBody (st : Serializing) (body : Option Str) : Option Str :=
  match body with
  | none => some (printAt st.buf st.dlen [10])
  | some body =>
    let blen := intOfSize body.length
    let llen : Int := if blen = 0 then 5 else blen + 25
    if st.buf.length + llen < 0 then none
    else
      let dlen := grow st.dlen 0 (st.buf.length + llen).toNat
      some (printAt st.buf dlen (if blen = 0 then [10] else contentLength blen body))

def switchEventSerialize (ev : SwitchEvent) (encode : Bool) : Option Str :=
  serializeBody (ev.headers.foldl (serializeHeader encode) beginSerializing) ev.body

/-! ## The whole text -/

def plainLine (hp : Header) : Str := headerLine hp.name (urlEncode hp.text)

def plainBody (body : Option Str) : Str :=
  match body with
  | none | some [] => [10]
  | some body => contentLength body.length body

def plainText (ev : SwitchEvent) : Str := ev.headers.flatMap plainLine ++ plainBody ev.body

/-! ## What the whole text asks for

Lengths only: how long the text is in front of a header, and how large the two buffers are by then,
follows from the names and the encodings of the headers before it. -/

/-- The length of the text so far, and the sizes of the two buffers. -/
structure Sizes where
  len : Nat
  dlen : Nat
  encodeLen : Nat
  deriving DecidableEq

/-- A name, a colon and a space, the encoding or `_undef_`, a line feed. -/
def lineLength (hp : Header) : Nat :=
  hp.name.length + (if hp.text = [] then 7 else (urlEncode hp.text).length) + 3

/-- Behind the line of a header. -/
def Sizes.behind (z : Sizes) (hp : Header) : Sizes where
  len := z.len + lineLength hp
  dlen := grow z.dlen z.len (hp.name.length + (urlEncode hp.text).length + 8)
  encodeLen := max z.encodeLen (newLen hp)

/-- The encoding fits in its buffer. For an empty value the text grows by one byte less than its line
takes: it fits if the buffer is grown at all, or if there is room anyway. -/
def HeaderFits (z : Sizes) (hp : Header) : Prop :=
  (urlEncode hp.text).length < max z.encodeLen (newLen hp) ∧
    (hp.text = [] → z.dlen < z.len + hp.name.length + 8 ∨ z.len + hp.name.length + 11 ≤ z.dlen)

/-- The estimate for the part behind the headers is enough. -/
def BodyFits (z : Sizes) (body : Option Str) : Prop :=
  match body with
  | none => z.len + 2 ≤ z.dlen
  | some body =>
    body.length < 2 ^ 31 ∧
      (body = [] ∨ z.dlen < z.len + body.length + 25 ∨
        z.len + body.length + 19 + (printNat body.length).length ≤ z.dlen)

/-- The estimates are enough for each header in turn, and for the body behind them. -/
def TextFits : Sizes → List Header → Option Str → Prop
  | z, [], body => BodyFits z body
  | z, hp :: hps, body => HeaderFits z hp ∧ TextFits (z.behind hp) hps body

def Serializing.sizes (st : Serializing) : Sizes := ⟨st.buf.length, st.dlen, st.encodeLen⟩

/-! ## One header -/

/-- What the code computes in a state that the loop reaches. -/
structure Serializing.Ready (st : Serializing) : Prop where
  encodeLen : 4 ≤ st.encodeLen
  room : st.buf.length < st.dlen

theorem ready_begin : beginSerializing.Ready := ⟨by decide, by decide⟩

theorem length_printAt_lt {buf text : Str} {dlen : Nat} (h : buf.length < dlen) :
    (printAt buf dlen text).length < dlen := by
  rw [printAt, List.length_append, List.length_take]
  omega

theorem le_grow (dlen len llen : Nat) : dlen ≤ grow dlen len llen := by
  unfold grow
  split <;> omega

theorem Serializing.Ready.header {st : Serializing} (h : st.Ready) (encode : Bool) (hp : Header) :
    (serializeHeader encode st hp).Ready :=
  ⟨h.encodeLen.trans (le_max_left _ _),
    length_printAt_lt (h.room.trans_le (le_grow _ _ _))⟩

theorem length_headerLine (name value : Str) :
    (headerLine name value).length = name.length + (if value = [] then 7 else value.length) + 3 := by
  unfold headerLine
  split
  · simp only [List.length_append, List.length_cons, List.length_nil]
    rfl
  · simp only [List.length_append, List.length_cons, List.length_nil]
    omega

theorem headerLine_inj {name a b : Str} (ha : a ≠ []) (hb : b ≠ []) :
    headerLine name a = headerLine name b ↔ a = b := by
  rw [headerLine, headerLine, if_neg ha, if_neg hb, List.append_left_inj, List.append_right_inj]

/-- The line of a value fits in what is set aside for it. -/
theorem length_headerLine_le_grow (dlen len : Nat) (name : Str) {value : Str} (hvalue : value ≠ []) :
    (headerLine name value).length ≤ grow dlen len (name.length + value.length + 8) - len - 1 := by
  rw [length_headerLine, if_neg hvalue, grow]
  split <;> omega

/-- What is written for a header is no longer than its line, and is the line exactly if the
estimates fit. -/
theorem serializeHeader_spec {st : Serializing} (h : st.Ready) (hp : Header) :
    ∃ piece, (serializeHeader true st hp).buf = st.buf ++ piece ∧
      piece.length ≤ (plainLine hp).length ∧ (piece = plainLine hp ↔ HeaderFits st.sizes hp) := by
  have hlen : 4 ≤ max st.encodeLen (newLen hp) := h.encodeLen.trans (le_max_left _ _)
  have hroom := h.room
  refine ⟨_, rfl, ?_⟩
  simp only [if_true]
  unfold HeaderFits plainLine Serializing.sizes
  dsimp only
  generalize max st.encodeLen (newLen hp) = limit at hlen ⊢
  by_cases htext : hp.text = []
  · -- `_undef_` stands for the value.
    have henc : switchUrlEncode hp.text limit = [] := (switchUrlEncode_eq_nil_iff hlen).mpr htext
    have hfull : urlEncode hp.text = [] := urlEncode_eq_nil_iff.mpr htext
    rw [henc, hfull]
    refine ⟨List.length_take_le' _ _, ?_⟩
    rw [List.take_eq_self_iff, length_headerLine, if_pos rfl, grow]
    simp only [htext, List.length_nil, true_implies, Nat.add_zero, blocksize]
    split <;> omega
  · have henc : switchUrlEncode hp.text limit ≠ [] := mt (switchUrlEncode_eq_nil_iff hlen).mp htext
    have hfull : urlEncode hp.text ≠ [] := mt urlEncode_eq_nil_iff.mp htext
    have hle := length_switchUrlEncode_le hp.text limit
    rw [List.take_of_length_le (length_headerLine_le_grow _ _ _ henc)]
    constructor
    · rw [length_headerLine, length_headerLine, if_neg henc, if_neg hfull]
      omega
    · rw [headerLine_inj henc hfull, switchUrlEncode_eq_iff (by omega)]
      simp [htext]

/-! ## All headers -/

/-- The estimates are enough for each header, in the state of the loop that it finds. -/
def HeadersFit : Serializing → List Header → Prop
  | _, [] => True
  | st, hp :: hps => HeaderFits st.sizes hp ∧ HeadersFit (serializeHeader true st hp) hps

theorem length_plainLine (hp : Header) : (plainLine hp).length = lineLength hp := by
  rw [plainLine, length_headerLine, lineLength]
  simp only [urlEncode_eq_nil_iff]

/-- A header that fits leaves the sizes of its whole line. -/
theorem sizes_serializeHeader {st : Serializing} (h : st.Ready) {hp : Header}
    (hfits : HeaderFits st.sizes hp) : (serializeHeader true st hp).sizes = st.sizes.behind hp := by
  have hlen : 4 ≤ max st.encodeLen (newLen hp) := h.encodeLen.trans (le_max_left _ _)
  have hencode : switchUrlEncode hp.text (max st.encodeLen (newLen hp)) = urlEncode hp.text :=
    (switchUrlEncode_eq_iff (by omega)).mpr hfits.1
  obtain ⟨piece, hpiece, -, hwhole⟩ := serializeHeader_spec h hp
  have hbuf : (serializeHeader true st hp).buf.length = st.buf.length + lineLength hp := by
    rw [hpiece, hwhole.mpr hfits, List.length_append, length_plainLine]
  unfold Serializing.sizes Sizes.behind
  rw [hbuf]
  simp only [serializeHeader, if_true, hencode]

/-- So the states of the loop can be read off the lengths. -/
theorem textFits_iff (body : Option Str) : ∀ (hps : List Header) {st : Serializing}, st.Ready →
    (TextFits st.sizes hps body ↔
      HeadersFit st hps ∧ BodyFits (hps.foldl (serializeHeader true) st).sizes body) := by
  intro hps
  induction hps with
  | nil => intro st _; simp [TextFits, HeadersFit]
  | cons hp hps ih =>
    intro st h
    rw [TextFits, HeadersFit, and_assoc, List.foldl_cons]
    refine and_congr_right fun hfits => ?_
    rw [← sizes_serializeHeader h hfits, ih (h.header true hp)]

theorem serializeHeaders_spec : ∀ (hps : List Header) {st : Serializing}, st.Ready →
      (hps.foldl (serializeHeader true) st).Ready ∧
        ∃ pieces, (hps.foldl (serializeHeader true) st).buf = st.buf ++ pieces ∧
          pieces.length ≤ (hps.flatMap plainLine).length ∧
          (pieces = hps.flatMap plainLine ↔ HeadersFit st hps) := by
  intro hps
  induction hps with
  | nil =>
    intro st h
    exact ⟨h, [], by simp, by simp, by simp [HeadersFit]⟩
  | cons hp hps ih =>
    intro st h
    obtain ⟨piece, hpiece, hle, hfits⟩ := serializeHeader_spec h hp
    obtain ⟨hready, pieces, hpieces, hle', hfits'⟩ := ih (h.header true hp)
    refine ⟨hready, piece ++ pieces, ?_, ?_, ?_⟩
    · rw [List.foldl_cons, hpieces, hpiece, List.append_assoc]
    · simp only [List.flatMap_cons, List.length_append]
      omega
    · -- No piece is longer than its line, so none can make up for another.
      rw [List.flatMap_cons, HeadersFit, ← hfits, ← hfits']
      constructor
      · intro heq
        have hlength := congrArg List.length heq
        rw [List.length_append, List.length_append] at hlength
        exact List.append_inj heq (by omega)
      · rintro ⟨rfl, rfl⟩
        rfl

/-! ## The body -/

theorem length_contentLength (blen : Int) (body : Str) :
    (contentLength blen body).length = 18 + (printInt blen).length + body.length := by
  have h : (bytes "Content-Length: ").length = 16 := by decide
  simp only [contentLength, List.length_append, h, List.length_cons, List.length_nil]
  omega

/-- Texts that are not longer than they should be, and a last one that is cut off. -/
theorem append_take_eq_iff {pieces whole text : Str} {n : Nat} (hle : pieces.length ≤ whole.length) :
    pieces ++ text.take n = whole ++ text ↔ pieces = whole ∧ text.length ≤ n := by
  constructor
  · intro heq
    have hlength := congrArg List.length heq
    rw [List.length_append, List.length_append, List.length_take] at hlength
    obtain ⟨hwhole, htext⟩ := List.append_inj heq (by omega)
    exact ⟨hwhole, (List.take_eq_self_iff _).mp htext⟩
  · rintro ⟨rfl, htext⟩
    rw [List.take_of_length_le htext]

theorem eq_of_append_lf {a b rest : Str} (ha : 10 ∉ a) (hb : 10 ∉ b)
    (h : a ++ [10] <+: b ++ 10 :: rest) : a = b := by
  induction a generalizing b with
  | nil =>
    cases b with
    | nil => rfl
    | cons c b =>
      have hc : 10 = c := (List.cons_prefix_cons.mp h).1
      exact absurd (hc ▸ List.mem_cons_self) hb
  | cons c a ih =>
    cases b with
    | nil =>
      have hc : c = 10 := (List.cons_prefix_cons.mp h).1
      exact absurd (hc ▸ List.mem_cons_self) ha
    | cons d b =>
      obtain ⟨rfl, hrest⟩ := List.cons_prefix_cons.mp h
      rw [ih (List.not_mem_of_not_mem_cons ha) (List.not_mem_of_not_mem_cons hb) hrest]

theorem lf_not_mem_printNat (n : Nat) : 10 ∉ printNat n :=
  fun h => absurd (isDigit_of_mem_printNat h) (by decide)

theorem lf_not_mem_printInt (z : Int) : 10 ∉ printInt z := by
  unfold printInt
  split
  · simpa using lf_not_mem_printNat _
  · exact lf_not_mem_printNat _

/-- A length that does not fit in an `int` is printed as another number. -/
theorem printInt_bmod_ne {n : Nat} (hn : 2 ^ 31 ≤ n) (hblen : intOfSize n ≠ 0) :
    printInt (intOfSize n) ≠ printNat n := by
  have hlt := intOfSize_lt n
  unfold printInt
  split
  · intro heq
    have hsign : (45 : UInt8) ∈ printNat n := heq ▸ List.mem_cons_self
    exact absurd (isDigit_of_mem_printNat hsign) (by decide)
  · rw [ne_eq, printNat_inj (by omega) (by omega)]
    omega

theorem length_printInt_bmod_le {n : Nat} (hn : 2 ^ 31 ≤ n) :
    (printInt (intOfSize n)).length ≤ (printNat n).length + 1 := by
  have hlo := le_intOfSize n
  have hhi := intOfSize_lt n
  have hshort : (printNat (intOfSize n).natAbs).length ≤ 10 :=
    (length_printNat_le_iff (by omega)).mpr (by omega)
  have hlong : ¬ (printNat n).length ≤ 9 := by
    rw [length_printNat_le_iff (by omega)]
    omega
  unfold printInt
  split
  · rw [List.length_cons]
    omega
  · omega

theorem plainLines_end (hps : List Header) :
    hps.flatMap plainLine = [] ∨ ∃ lines, hps.flatMap plainLine = lines ++ [10] := by
  cases hps using List.reverseRecOn with
  | nil => exact .inl rfl
  | append_singleton hps hp =>
    refine .inr ⟨hps.flatMap plainLine ++ (hp.name ++ [58, 32] ++
      (if urlEncode hp.text = [] then undef else urlEncode hp.text)), ?_⟩
    rw [List.flatMap_append, List.append_assoc]
    simp [plainLine, headerLine]

/-- A body that is announced with another number never makes up the whole text. -/
theorem append_take_contentLength_ne {hps : List Header} {pieces body : Str} {blen : Int} {k : Nat}
    (hle : pieces.length ≤ (hps.flatMap plainLine).length) (hne : printInt blen ≠ printNat body.length)
    (hprint : (printInt blen).length ≤ (printNat body.length).length + 1) :
    pieces ++ (contentLength blen body).take k ≠
      hps.flatMap plainLine ++ contentLength body.length body := by
  intro heq
  have hcut := List.length_take_le' k (contentLength blen body)
  have hlength := congrArg List.length heq
  rw [List.length_append, List.length_append] at hlength
  rw [length_contentLength] at hcut
  rw [length_contentLength, printInt_natCast] at hlength
  by_cases hsame : pieces.length = (hps.flatMap plainLine).length
  · -- The wrong number is there to be seen.
    have hpre : contentLength body.length body <+: contentLength blen body := by
      rw [← (List.append_inj heq hsame).2]
      exact List.take_prefix _ _
    rw [contentLength, contentLength, printInt_natCast, List.append_assoc, List.append_assoc,
      List.append_assoc, List.append_assoc, List.prefix_append_right_inj] at hpre
    have hdigits : printNat body.length ++ [10] <+: printInt blen ++ 10 :: 10 :: body := by
      refine List.IsPrefix.trans ?_ hpre
      rw [List.prefix_append_right_inj]
      exact ⟨10 :: body, rfl⟩
    exact hne
      (eq_of_append_lf (lf_not_mem_printNat _) (lf_not_mem_printInt _) hdigits).symm
  · -- One byte of the lines is missing, and `C` stands where a line ends.
    rcases plainLines_end hps with hnil | ⟨lines, hlines⟩
    · rw [hnil] at hsame hle
      simp only [List.length_nil, Nat.le_zero] at hsame hle
      exact hsame hle
    · rw [hlines, List.append_assoc] at heq
      rw [hlines, List.length_append, List.length_singleton] at hlength hsame hle
      have htail := (List.append_inj heq (by omega)).2
      have hhead := congrArg List.head? htail
      have hk : k ≠ 0 := by
        rintro rfl
        simp at htail
      rw [List.head?_take, if_neg hk] at hhead
      exact absurd hhead (by simp [contentLength, bytes])

theorem serializeBody_small (st : Serializing) {body : Str} (h : body.length < 2 ^ 31) :
    serializeBody st (some body) =
      some (printAt st.buf (grow st.dlen 0 (st.buf.length + if body = [] then 5 else body.length + 25))
        (plainBody (some body))) := by
  have hblen : intOfSize body.length = body.length := intOfSize_of_lt h
  rw [serializeBody]
  simp only [hblen]
  cases body with
  | nil => rfl
  | cons c body =>
    have hpos : ((c :: body).length : Int) ≠ 0 := by simp; omega
    rw [if_neg hpos, if_neg (by omega), if_neg hpos, if_neg (List.cons_ne_nil c body)]
    congr 3

/-- Where the length does not fit in an `int`, something else is written, if anything. -/
theorem serializeBody_large (st : Serializing) {hps : List Header} {body : Str}
    (hle : st.buf.length ≤ (hps.flatMap plainLine).length) (h : ¬ body.length < 2 ^ 31) :
    serializeBody st (some body) ≠ some (hps.flatMap plainLine ++ contentLength body.length body) := by
  rw [serializeBody]
  have hne : intOfSize body.length ≠ 0 →
      printInt (intOfSize body.length) ≠ printNat body.length :=
    printInt_bmod_ne (Nat.le_of_not_lt h)
  have hprint := length_printInt_bmod_le (Nat.le_of_not_lt h)
  generalize intOfSize body.length = blen at hne hprint ⊢
  dsimp only
  by_cases hzero : blen = 0
  · -- The length is a multiple of `2 ^ 32`: only a line feed is written.
    simp only [hzero, if_true]
    rw [if_neg (by omega), ne_eq, Option.some.injEq, printAt]
    intro heq
    have hlength := congrArg List.length heq
    rw [List.length_append, List.length_append, length_contentLength, List.length_take,
      List.length_singleton] at hlength
    omega
  · simp only [hzero, if_false]
    split
    · exact Option.some_ne_none _ |>.symm
    · rw [ne_eq, Option.some.injEq]
      exact append_take_contentLength_ne hle (hne hzero) hprint

/-- The text of an event is whole exactly if the estimates are enough for every header in turn, and
for the body: from an empty text and buffers of 1024 and 1536 bytes on. -/
theorem serialize_plainText_iff (ev : SwitchEvent) :
    switchEventSerialize ev true = some (plainText ev) ↔
      TextFits ⟨0, 1024, 1536⟩ ev.headers ev.body := by
  rw [show (⟨0, 1024, 1536⟩ : Sizes) = beginSerializing.sizes from rfl,
    textFits_iff ev.body _ ready_begin]
  obtain ⟨hready, pieces, hbuf, hle, hfits⟩ := serializeHeaders_spec ev.headers ready_begin
  have hbuf : (ev.headers.foldl (serializeHeader true) beginSerializing).buf = pieces := by
    simpa [beginSerializing] using hbuf
  rw [switchEventSerialize, plainText, ← hfits]
  generalize ev.headers.foldl (serializeHeader true) beginSerializing = st at hready hbuf ⊢
  have hroom := hready.room
  subst hbuf
  cases ev.body with
  | none =>
    show some (st.buf ++ [10].take (st.dlen - st.buf.length - 1)) = some (_ ++ [10]) ↔
      _ ∧ st.buf.length + 2 ≤ st.dlen
    rw [Option.some.injEq, append_take_eq_iff hle, List.length_singleton]
    exact and_congr_right fun _ => by omega
  | some body =>
    by_cases hbody : body.length < 2 ^ 31
    · rw [serializeBody_small st hbody, Option.some.injEq, printAt, append_take_eq_iff hle]
      refine and_congr_right fun _ => ?_
      cases body with
      | nil =>
        refine iff_of_true ?_ ⟨hbody, .inl rfl⟩
        show 1 ≤ grow st.dlen 0 (st.buf.length + if True then 5 else 25) - st.buf.length - 1
        simp only [grow, blocksize, if_true]
        split <;> omega
      | cons c body =>
        have hdigits : (printNat (c :: body).length).length ≤ 10 :=
          (length_printNat_le_iff (by omega)).mpr (by omega)
        show (contentLength (c :: body).length (c :: body)).length ≤
            grow st.dlen 0 (st.buf.length + ((c :: body).length + 25)) - st.buf.length - 1 ↔
          (c :: body).length < 2 ^ 31 ∧ (c :: body = [] ∨ _)
        rw [length_contentLength, printInt_natCast]
        simp only [grow, blocksize, hbody, true_and, reduceCtorEq, false_or, Serializing.sizes]
        split <;> omega
    · -- The condition fails, and so does the text.
      have htext : plainBody (some body) = contentLength body.length body := by
        cases body with
        | nil => exact absurd (show (0 : Nat) < 2 ^ 31 by decide) hbody
        | cons c body => rfl
      rw [htext]
      exact iff_of_false (serializeBody_large st hle hbody) fun h => hbody h.2.1

/-- What `switch_event_add_header_string` makes of `x[299]`: an array of 300 elements, of which only
the last one is not empty. -/
def longArray : SwitchEvent := setIndexed blankEvent stackBottom (bytes "x") 299 (bytes "a")

/-- Its value of 606 bytes is encoded in 1806, in a buffer of 1536: the rest of the array, the
element with it, is missing from the text. -/
theorem serialize_cuts_array :
    longArray.headers.map (fun hp => (newLen hp, hp.text.length, (urlEncode hp.text).length)) =
        [(303, 606, 1806)] ∧
      (switchEventSerialize longArray true).map List.length = some 1540 ∧
      (plainText longArray).length = 1811 ∧
      switchEventSerialize longArray true ≠ some (plainText longArray) := by
  decide +kernel

end FreeSwitch.Event
