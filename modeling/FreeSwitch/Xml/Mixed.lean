import FreeSwitch.Xml.ToXml

/-!
# XML — text among the children

The writer copies the text of a tag in parts, each up to the place of the next child. What it writes is
given here together with what it stands for: a byte, an entity or a reference for bytes of the text, all
else for a child.

* **`toxmlTags_render`** — the items are what is written between the start of a tag and its end.
* **`stands_iff`** — an encoded text stands for all of its bytes if its UTF-8 is complete.
* **`mixed_content_iff`** — when the text is written once, with each child at its place;
  **`mixed_content_twice`** — a child at offset 0.
-/

namespace FreeSwitch.Xml

open CString

/-! ## The start of a tag -/

def indentText (count : Nat) : Str := List.replicate (2 * count) 32

theorem indent_text : ∀ (count : Nat) (o : Out),
      (indent count o).text = o.text ++ indentText count := by
  intro count
  induction count with
  | zero => intro o; exact (List.append_nil _).symm
  | succ count ih =>
    intro o
    show (indent count (o.print xmlIndent)).text = _
    rw [ih]
    show o.text ++ [32, 32] ++ indentText count = _
    rw [List.append_assoc]
    rfl

theorem openTag_text (count : Nat) (name : Str) (o : Out) : (openTag count name o).text
      = o.text ++ (if o.text.getLast? = some 62 then [10] else []) ++ indentText count ++
        60 :: name := by
  unfold openTag
  show (indent count _).text ++ (60 :: name) = _
  rw [indent_text]
  show Out.text (if o.text.getLast? = some 62 then _ else _) ++ _ ++ _ = _
  split
  · rfl
  · rw [List.append_nil]
    rfl

/-- The root of a tree without a DTD. -/
def plainRoot : Root := ⟨[], []⟩

/-! ## What is written for what -/

/-- Something written inside of a tag. -/
inductive Item where
  /-- For these bytes of the text. -/
  | text (piece : Piece) (stands : Str)
  | child (xml : Tag) (written : Str)

def Piece.written : Piece → Str
  | skip => []
  | byte c => [c]
  | text s => s

def Item.written : Item → Str
  | text piece _ => piece.written
  | child _ written => written

/-- A text with tags in it. -/
inductive Content where
  | char (c : UInt8)
  | child (xml : Tag)

def Item.content : Item → List Content
  | text _ stands => stands.map .char
  | child xml _ => [.child xml]

section

variable (utf8 : Bool)

/-- What a round of the encoder writes a piece for, and the bytes held back afterwards. A reference
stands for the sequence it ends; a sequence that is given up stands for nothing. -/
def account (e : Encoder) (held : Str) (c : UInt8) (r : Encoder × Piece) : Str × Str :=
  match r.2 with
  | .skip => ([], if r.1.expecting = 0 then [] else held ++ [c])
  | .byte _ => ([c], held)
  | .text _ => if 0 < e.expecting ∧ r.1.expecting = 0 then (held ++ [c], []) else ([c], held)

/-- The rounds of `ampLoop`. -/
def ampItems : Option Nat → Encoder → Str → Str → List Item
  | some 0, _, _, _ => []
  | _, _, _, [] => []
  | limit, e, held, c :: s =>
    let r := encodeByte utf8 false e c s.head?
    .text r.2 (account e held c r).1 :: ampItems (limit.map (· - 1)) r.1 (account e held c r).2 s

def textItems (limit : Option Nat) (s : Str) : List Item := ampItems utf8 limit ⟨false, 0, 0⟩ [] s

variable (root : Root)

/-- What `toxmlTags` writes. -/
def tagsItems (count : Nat) (txt : Str) (start : Nat) : List Tag → Out → List Item
  | [], _ => textItems utf8 none (txt.drop start)
  | xml :: xmls, o =>
    let before := switchXmlAmpencode utf8 false (textLimit start xml.off) (txt.drop start) o
    let behind := toxmlTag utf8 root count xml before
    textItems utf8 (textLimit start xml.off) (txt.drop start)
      ++ .child xml (behind.text.drop before.text.length)
      :: tagsItems count txt (min txt.length xml.off) xmls behind

/-- The start of a tag. -/
def tagStart (count : Nat) (xml : Tag) (o : Out) : Out :=
  printEnd xml
    (printDefaults utf8 root count xml (printAttrs utf8 root count xml (openTag count xml.name o)))

/-- What `toxmlTag` writes between the start and the end of the tag. -/
def tagItems (count : Nat) (xml : Tag) (o : Out) : List Item :=
  tagsItems utf8 root (count + 1) (xml.txt.getD []) 0 xml.child (tagStart utf8 root count xml o)

/-! ## The items are what is written -/

variable {utf8 root}

theorem emit_text (o : Out) (piece : Piece) :
    ((o.reserve 10).emit piece).text = o.text ++ piece.written := by
  cases piece with
  | skip => exact (List.append_nil _).symm
  | byte c => rfl
  | text s => rfl

theorem ampLoop_round {limit : Option Nat} (hlimit : limit ≠ some 0) (attr : Bool) (e : Encoder)
    (c : UInt8) (s : Str) (o : Out) : ampLoop utf8 attr limit e (c :: s) o
      = ampLoop utf8 attr (limit.map (· - 1)) (encodeByte utf8 attr e c s.head?).1 s
          ((o.reserve 10).emit (encodeByte utf8 attr e c s.head?).2) := by
  match limit with
  | none => rfl
  | some 0 => exact absurd rfl hlimit
  | some (n + 1) => rfl

theorem ampItems_cons {limit : Option Nat} (hlimit : limit ≠ some 0) (e : Encoder) (held : Str)
    (c : UInt8) (s : Str) :
    ampItems utf8 limit e held (c :: s)
      = .text (encodeByte utf8 false e c s.head?).2
        (account e held c (encodeByte utf8 false e c s.head?)).1
        :: ampItems utf8 (limit.map (· - 1)) (encodeByte utf8 false e c s.head?).1
          (account e held c (encodeByte utf8 false e c s.head?)).2 s := by
  match limit with
  | none => rfl
  | some 0 => exact absurd rfl hlimit
  | some (n + 1) => rfl

/-- Induction along the rounds. -/
theorem rounds_induction (utf8 : Bool) {P : Option Nat → Encoder → Str → Str → Prop}
    (stop : ∀ limit e held s, limit = some 0 ∨ s = [] → P limit e held s)
    (round : ∀ limit e held c s, limit ≠ some 0 →
      P (limit.map (· - 1)) (encodeByte utf8 false e c s.head?).1
        (account e held c (encodeByte utf8 false e c s.head?)).2 s → P limit e held (c :: s))
    (limit : Option Nat) (e : Encoder) (held s : Str) : P limit e held s := by
  induction s generalizing limit e held with
  | nil => exact stop limit e held [] (.inr rfl)
  | cons c s ih =>
    by_cases hlimit : limit = some 0
    · exact stop limit e held (c :: s) (.inl hlimit)
    · exact round limit e held c s hlimit (ih _ _ _)

theorem ampItems_of_end {limit : Option Nat} {s : Str} (h : limit = some 0 ∨ s = []) (e : Encoder)
    (held : Str) :
    ampItems utf8 limit e held s = [] := by
  rcases h with rfl | rfl
  · rw [ampItems]
  · match limit with
    | none | some 0 | some (n + 1) => rfl

theorem ampLoop_render (limit : Option Nat) (e : Encoder) (held s : Str) : ∀ o : Out,
    (ampLoop utf8 false limit e s o).text
      = o.text ++ (ampItems utf8 limit e held s).flatMap Item.written := by
  induction limit, e, held, s using rounds_induction utf8 with
  | stop limit e held s h =>
    intro o
    rw [ampItems_of_end h]
    rcases h with rfl | rfl
    · rw [ampLoop]
      exact (List.append_nil _).symm
    · match limit with
      | none | some 0 | some (n + 1) => exact (List.append_nil _).symm
  | round limit e held c s hlimit ih =>
    intro o
    rw [ampItems_cons hlimit, List.flatMap_cons, ← List.append_assoc, Item.written, ← emit_text,
      ampLoop_round hlimit]
    exact ih _

theorem ampencode_render (limit : Option Nat) (s : Str) (o : Out) :
    (switchXmlAmpencode utf8 false limit s o).text
      = o.text ++ (textItems utf8 limit s).flatMap Item.written := by
  rw [switchXmlAmpencode]
  split
  · next hnil =>
    rw [textItems, ampItems_of_end (.inr hnil)]
    exact (List.append_nil _).symm
  · exact ampLoop_render limit _ [] s o

/-- Nothing that is written is taken back. -/
def Extends (f : Out → Out) : Prop := ∀ o, o.text <+: (f o).text

theorem Extends.comp {f g : Out → Out} (hf : Extends f) (hg : Extends g) : Extends fun o => g (f o) :=
  fun o => (hf o).trans (hg (f o))

theorem extends_ampencode (attr : Bool) (limit : Option Nat) (s : Str) :
    Extends (switchXmlAmpencode utf8 attr limit s) := by
  have hloop : ∀ (s : Str) (limit : Option Nat) (e : Encoder),
      Extends (ampLoop utf8 attr limit e s) := by
    intro s
    induction s with
    | nil =>
      intro limit e o
      match limit with
      | none | some 0 | some (n + 1) => exact List.prefix_rfl
    | cons c s ih =>
      intro limit e o
      by_cases hlimit : limit = some 0
      · rw [hlimit]
        exact List.prefix_rfl
      · rw [ampLoop_round hlimit]
        refine List.IsPrefix.trans ?_ (ih _ _ _)
        rw [emit_text]
        exact List.prefix_append _ _
  intro o
  rw [switchXmlAmpencode]
  split
  · exact List.prefix_rfl
  · exact hloop s limit _ o

theorem extends_print (data : Str) :
    Extends fun o => o.print data := fun o => List.prefix_append o.text data

theorem extends_foldl {α : Type} {f : Out → α → Out} (hf : ∀ a, Extends fun o => f o a) (as : List α) :
    Extends fun o => as.foldl f o := by
  induction as with
  | nil => exact fun o => List.prefix_rfl
  | cons a as ih => exact (hf a).comp ih

theorem extends_ite {f : Out → Out} (hf : Extends f) (p : Out → Prop) [DecidablePred p] :
    Extends fun o => if p o then f o else o := by
  intro o
  show o.text <+: (if p o then f o else o).text
  split
  · exact hf o
  · exact List.prefix_rfl

theorem extends_printAttr (slack count : Nat) (name value : Str) :
    Extends (printAttr utf8 slack count name value) := by
  intro o
  exact (((extends_print (32 :: name ++ bytes "=\"")).comp (extends_ampencode true none value)).comp
    (extends_print [34])) (o.reserve _)

theorem extends_tagStart (count : Nat) (xml : Tag) : Extends (tagStart utf8 root count xml) := by
  have hopen : Extends (openTag count xml.name) := by
    intro o
    rw [openTag_text, List.append_assoc, List.append_assoc]
    exact List.prefix_append _ _
  have hattrs : Extends (printAttrs utf8 root count xml) := by
    refine extends_foldl (fun entry => ?_) xml.attr
    exact extends_ite (extends_printAttr 7 count entry.1 entry.2.text) fun _ =>
      shown root xml entry.1 entry.2
  have hdefaults : Extends (printDefaults utf8 root count xml) := by
    refine extends_foldl (fun entry => ?_) (root.defaults xml)
    cases entry.2 with
    | none => exact fun o => List.prefix_rfl
    | some value =>
      exact extends_ite (extends_printAttr 8 count entry.1 value.text) fun _ =>
        shown root xml entry.1 value
  exact ((hopen.comp hattrs).comp hdefaults).comp (extends_print _)

/-- The end of a tag that has something in it, behind what is written. -/
def tagEnd (count : Nat) (xml : Tag) (written : Str) : Str :=
  (if written.getLast? = some 10 then indentText count else []) ++
    (bytes "</" ++ xml.name ++ bytes ">\n")

theorem closeTag_text {xml : Tag} (hxml : xml.hasContent = true) (count : Nat) (o : Out) :
    (closeTag count xml o).text = o.text ++ tagEnd count xml o.text := by
  unfold closeTag tagEnd
  rw [if_pos hxml, ← List.append_assoc]
  show Out.text (if o.text.getLast? = some 10 then _ else _) ++ _ = _
  split
  · rw [indent_text]
    rfl
  · rw [List.append_nil]
    rfl

theorem extends_closeTag (count : Nat) (xml : Tag) : Extends (closeTag count xml) := by
  have hindent : Extends (indent count) := extends_foldl extends_print _
  intro o
  rw [closeTag]
  dsimp only
  split
  · exact ((extends_ite hindent fun o => o.text.getLast? = some 10).comp (extends_print _))
      (o.reserve _)
  · exact List.prefix_rfl

theorem toxmlTag_eq (count : Nat) (xml : Tag) (o : Out) : toxmlTag utf8 root count xml o
      = closeTag count xml (toxmlTags utf8 root (count + 1) (xml.txt.getD []) 0 xml.child
          (tagStart utf8 root count xml o)) := by
  obtain ⟨name, attr, txt, off, child⟩ := xml
  rw [toxmlTag]
  cases child with
  | nil => rw [toxmlTags]; rfl
  | cons x xs => rfl

mutual

theorem extends_toxmlTag (count : Nat) : ∀ xml : Tag, Extends (toxmlTag utf8 root count xml)
  | ⟨name, attr, txt, off, child⟩ => by
    intro o
    rw [toxmlTag_eq]
    exact (((extends_tagStart count _).comp (extends_toxmlTags (count + 1) (txt.getD []) 0 child)).comp
      (extends_closeTag count _)) o

theorem extends_toxmlTags (count : Nat) (txt : Str) (start : Nat) :
    ∀ xmls : List Tag, Extends (toxmlTags utf8 root count txt start xmls)
  | [] => by
    intro o
    rw [toxmlTags]
    exact extends_ampencode false none _ o
  | xml :: xmls => by
    intro o
    rw [toxmlTags]
    exact (((extends_ampencode false _ _).comp (extends_toxmlTag count xml)).comp
      (extends_toxmlTags count txt _ xmls)) o

end

theorem toxmlTags_render (count : Nat) (txt : Str) (start : Nat) (xmls : List Tag) (o : Out) :
    (toxmlTags utf8 root count txt start xmls o).text
      = o.text ++ (tagsItems utf8 root count txt start xmls o).flatMap Item.written := by
  induction xmls generalizing start o with
  | nil =>
    rw [toxmlTags]
    exact ampencode_render none _ o
  | cons xml xmls ih =>
    rw [toxmlTags, tagsItems]
    have hchild := List.prefix_iff_eq_append.mp (@extends_toxmlTag utf8 root count xml
      (switchXmlAmpencode utf8 false (textLimit start xml.off) (txt.drop start) o))
    rw [ih, List.flatMap_append, List.flatMap_cons, Item.written, ← List.append_assoc,
      ← List.append_assoc,
      ← ampencode_render, hchild]

/-! ## Encoding -/

/-- The part of a text that is encoded. -/
def slice : Option Nat → Str → Str
  | none, s => s
  | some n, s => s.take n

theorem slice_cons {limit : Option Nat} (hlimit : limit ≠ some 0) (c : UInt8) (s : Str) :
    slice limit (c :: s) = c :: slice (limit.map (· - 1)) s := by
  match limit with
  | none => rfl
  | some 0 => exact absurd rfl hlimit
  | some (n + 1) => rfl

theorem slice_of_end {limit : Option Nat} {s : Str} (h : limit = some 0 ∨ s = []) :
    slice limit s = [] := by
  rcases h with rfl | rfl
  · rfl
  · match limit with
    | none | some 0 | some (n + 1) => rfl

theorem length_content_le (limit : Option Nat) (e : Encoder) (held s : Str) :
    ((ampItems utf8 limit e held s).flatMap Item.content).length
      ≤ held.length + (slice limit s).length := by
  induction limit, e, held, s using rounds_induction utf8 with
  | stop limit e held s h =>
    rw [ampItems_of_end h]
    exact Nat.zero_le _
  | round limit e held c s hlimit ih =>
    have hround : ∀ r, (account e held c r).1.length + (account e held c r).2.length
        ≤ held.length + 1 := by
      intro r
      unfold account
      split
      · split <;> simp
      · simp [Nat.add_comm]
      · split <;> simp [Nat.add_comm]
    have hround := hround (encodeByte utf8 false e c s.head?)
    rw [ampItems_cons hlimit, slice_cons hlimit, List.flatMap_cons, List.length_append, Item.content,
      List.length_map,
      List.length_cons]
    omega

/-- The bytes that are treated alike wherever they are found. -/
def Special (c : UInt8) : Prop := c ∈ ([38, 60, 62, 34, 10, 9, 13] : List UInt8)

theorem Special.lt {c : UInt8} (hc : Special c) : c < 128 := by
  simp only [Special, List.mem_cons, List.not_mem_nil, or_false] at hc
  rcases hc with rfl | rfl | rfl | rfl | rfl | rfl | rfl <;> decide

theorem account_special {e : Encoder} (himmune : e.immune = false) {c : UInt8}
    (hc : Special c) (held : Str)
    (next : Option UInt8) : account e held c (encodeByte utf8 false e c next) = ([c], held) ∧
      ((encodeByte utf8 false e c next).1 = e ∧ ¬(c = 60 ∧ next = some 33)
        ∨ (c = 60 ∧ next = some 33) ∧ (encodeByte utf8 false e c next).1.immune = true) := by
  simp only [Special, List.mem_cons, List.not_mem_nil, or_false] at hc
  rcases hc with rfl | rfl | rfl | rfl | rfl | rfl | rfl
  case inr.inl =>
    by_cases hnext : next = some 33 <;> simp [encodeByte, account, himmune, hnext]
    omega
  all_goals simp [encodeByte, account, himmune]; omega

theorem encodeByte_ordinary {e : Encoder} (himmune : e.immune = false) {c : UInt8} (hc : ¬Special c)
    (next : Option UInt8) : encodeByte utf8 false e c next =
      if utf8 ∧ e.expecting = 0 ∧ 128 ≤ c then (leadByte e c, .skip)
      else if utf8 ∧ 0 < e.expecting then nextByte e c else (e, .byte c) := by
  simp only [Special, List.mem_cons, List.not_mem_nil, or_false, not_or] at hc
  simp [encodeByte, himmune, hc]

/-- A text that is copied, with entities at most. -/
theorem content_of_plain (limit : Option Nat) (e : Encoder) (held s : Str) :
    (e.immune = true ∨ utf8 = false ∧ e.expecting = 0) →
    (ampItems utf8 limit e held s).flatMap Item.content = (slice limit s).map .char := by
  induction limit, e, held, s using rounds_induction utf8 with
  | stop limit e held s h =>
    intro _
    rw [ampItems_of_end h, slice_of_end h]
    rfl
  | round limit e held c s hlimit ih =>
    intro h
    have hround : account e held c (encodeByte utf8 false e c s.head?) = ([c], held)
        ∧ ((encodeByte utf8 false e c s.head?).1.immune = true
          ∨ utf8 = false ∧ (encodeByte utf8 false e c s.head?).1.expecting = 0) := by
      cases himmune : e.immune with
      | true => simp [encodeByte, himmune, account]
      | false =>
        obtain ⟨hutf8, hexpecting⟩ := h.resolve_left (by simp [himmune])
        by_cases hc : Special c
        · obtain ⟨haccount, hnext⟩ := @account_special utf8 e himmune c hc held s.head?
          refine ⟨haccount, ?_⟩
          rcases hnext with ⟨hsame, -⟩ | ⟨-, himmune'⟩
          · rw [hsame]
            exact Or.inr ⟨hutf8, hexpecting⟩
          · exact Or.inl himmune'
        · rw [encodeByte_ordinary himmune hc]
          simp [hutf8, hexpecting, account]
    rw [ampItems_cons hlimit, slice_cons hlimit, List.flatMap_cons, ih hround.2, hround.1]
    rfl

/-- Sequences of UTF-8 that are complete, with `k` bytes of the first still to come. Behind a `<!` all
is copied. -/
def Whole : Nat → Str → Prop
  | 0, [] => True
  | _ + 1, [] => False
  | 0, c :: s =>
    if c < 128 then (c = 60 ∧ s.head? = some 33) ∨ Whole 0 s
    else 192 ≤ c ∧ Whole (if c < 224 then 1 else if c < 240 then 2 else 3) s
  | k + 1, c :: s => (128 ≤ c ∧ c < 192) ∧ Whole k s

/-- The bytes held back are those of a sequence that has begun. -/
def Holds (e : Encoder) (held : Str) : Prop :=
  if e.expecting = 0 then held = [] else ∃ d h, held = d :: h ∧ 128 ≤ d

theorem head?_slice {limit : Option Nat} {s : Str} (h : slice limit s ≠ []) :
    (slice limit s).head? = s.head? := by
  match limit with
  | none => rfl
  | some 0 => exact absurd rfl h
  | some (n + 1) =>
    cases s with
    | nil => rfl
    | cons c s => rfl

theorem whole_special {c : UInt8} (hc : Special c) (k : Nat) (s : Str) :
    Whole k (c :: s) ↔ k = 0 ∧ ((c = 60 ∧ s.head? = some 33) ∨ Whole 0 s) := by
  cases k with
  | zero => rw [Whole, if_pos hc.lt, eq_self_iff_true, true_and]
  | succ k =>
    rw [Whole]
    refine iff_of_false ?_ nofun
    rintro ⟨⟨hhigh, -⟩, -⟩
    exact absurd hc.lt (UInt8.not_lt.mpr hhigh)

theorem whole_ordinary {c : UInt8} (hc : ¬Special c) (hlow : c < 128) (s : Str) :
    Whole 0 (c :: s) ↔ Whole 0 s := by
  rw [Whole, if_pos hlow, or_iff_right]
  rintro ⟨rfl, -⟩
  exact hc (by simp [Special])

theorem stands_iff_of_end {limit : Option Nat} {s : Str} (h : limit = some 0 ∨ s = [])
    {e : Encoder} {held : Str} (hheld : Holds e held) :
    (ampItems true limit e held s).flatMap Item.content = (held ++ slice limit s).map .char
      ↔ Whole e.expecting (slice limit s) := by
  rw [ampItems_of_end h, slice_of_end h, List.append_nil]
  rw [Holds] at hheld
  split at hheld
  · next hzero =>
    rw [hheld, hzero]
    exact iff_of_true rfl trivial
  · next hpos =>
    obtain ⟨d, h, rfl, -⟩ := hheld
    obtain ⟨k, hk⟩ := Nat.exists_eq_succ_of_ne_zero hpos
    rw [hk]
    exact iff_of_false nofun id

/-- A byte for which nothing is written, and that is not held back either, is lost. -/
theorem stands_of_lost (s : Str) (limit : Option Nat) (e : Encoder) (c : UInt8) (held : Str) :
    (ampItems true limit e [] s).flatMap Item.content ≠ (held ++ c :: slice limit s).map .char := by
  intro h
  have hlen := congrArg List.length h
  have hle := @length_content_le true limit e [] s
  simp only [List.length_map, List.length_append, List.length_cons, List.length_nil] at hlen hle
  omega

/-- What is written stands for the bytes held back and for all of the text. -/
def Stands (limit : Option Nat) (e : Encoder) (held s : Str) : Prop :=
  (ampItems true limit e held s).flatMap Item.content = (held ++ slice limit s).map .char

/-- The same for a byte and the text behind it, which the limit is for. -/
def StandsCons (limit : Option Nat) (e : Encoder) (held : Str) (c : UInt8) (s : Str) : Prop :=
  let r := encodeByte true false e c s.head?
  (account e held c r).1.map .char ++
    (ampItems true limit r.1 (account e held c r).2 s).flatMap Item.content
    = (held ++ c :: slice limit s).map .char

theorem stands_cons {limit : Option Nat} (hlimit : limit ≠ some 0) (e : Encoder) (held : Str)
    (c : UInt8) (s : Str) :
    Stands limit e held (c :: s) ↔ StandsCons (limit.map (· - 1)) e held c s := by
  rw [Stands, ampItems_cons hlimit, slice_cons hlimit, List.flatMap_cons, Item.content]
  rfl

/-- A byte that is written at once, between sequences. -/
theorem char_cons_inj (c : UInt8) (as bs : List Content) :
    [c].map Content.char ++ as = Content.char c :: bs ↔ as = bs := List.cons_inj_right _

theorem expecting_leadByte (e : Encoder) {c : UInt8} (hlead : 192 ≤ c) :
    (leadByte e c).expecting = if c < 224 then 1 else if c < 240 then 2 else 3 := by
  rw [leadByte, if_neg (UInt8.not_lt.mpr hlead)]
  split
  · rfl
  · split <;> rfl

theorem immune_leadByte (e : Encoder) (c : UInt8) : (leadByte e c).immune = e.immune := by
  unfold leadByte
  split_ifs <;> rfl

section

variable {s : Str} {limit : Option Nat} {e : Encoder} {held : Str} {c : UInt8}

theorem Holds.eq_nil (hheld : Holds e held) (hzero : e.expecting = 0) : held = [] := by
  simpa [Holds, hzero] using hheld

theorem Holds.eq_cons (hheld : Holds e held) (hpos : e.expecting ≠ 0) :
    ∃ d h, held = d :: h ∧ 128 ≤ d := by
  simpa [Holds, hpos] using hheld

-- what is known of the text behind the byte
variable (ih : ∀ held e,
  e.immune = false → Holds e held → (Stands limit e held s ↔ Whole e.expecting (slice limit s)))

include ih

/-- A byte that is treated alike everywhere breaks the sequence that it stands in. -/
theorem stands_special (himmune : e.immune = false) (hheld : Holds e held) (hc : Special c) :
    StandsCons limit e held c s ↔ Whole e.expecting (c :: slice limit s) := by
  obtain ⟨haccount, hnext⟩ := @account_special true e himmune c hc held s.head?
  rw [StandsCons]
  rw [haccount, whole_special hc]
  by_cases hzero : e.expecting = 0
  · obtain rfl := hheld.eq_nil hzero
    rw [hzero, eq_self_iff_true, true_and]
    refine (char_cons_inj c _ _).trans ?_
    rcases hnext with ⟨hsame, hplain⟩ | ⟨⟨h60, h33⟩, himmune'⟩
    · rw [hsame]
      refine (ih [] e himmune hheld).trans ?_
      rw [hzero, or_iff_right]
      rintro ⟨h60, h33⟩
      have hne : slice limit s ≠ [] := by
        intro hnil
        rw [hnil] at h33
        cases h33
      exact hplain ⟨h60, head?_slice hne ▸ h33⟩
    · refine iff_of_true (content_of_plain limit _ [] s (Or.inl himmune')) ?_
      by_cases hnil : slice limit s = []
      · rw [hnil]
        exact Or.inr trivial
      · exact Or.inl ⟨h60, (head?_slice hnil).trans h33⟩
  · -- the byte is written in front of the sequence that it stands in
    refine iff_of_false ?_ fun h => hzero h.1
    obtain ⟨d, h, rfl, hd⟩ := hheld.eq_cons hzero
    intro heq
    obtain rfl : c = d := Content.char.inj (List.cons.inj heq).1
    exact absurd hc.lt (UInt8.not_lt.mpr hd)

/-- A byte where a sequence may begin. -/
theorem stands_lead (himmune : e.immune = false) (hheld : Holds e held) (hc : ¬Special c)
    (hzero : e.expecting = 0) :
    StandsCons limit e held c s ↔ Whole e.expecting (c :: slice limit s) := by
  obtain rfl := hheld.eq_nil hzero
  rw [StandsCons]
  rw [encodeByte_ordinary himmune hc, hzero]
  by_cases hhigh : 128 ≤ c
  · rw [if_pos ⟨rfl, rfl, hhigh⟩, Whole, if_neg (UInt8.not_lt.mpr hhigh)]
    by_cases hlead : 192 ≤ c
    · have hexpecting := expecting_leadByte e hlead
      have hpos : (leadByte e c).expecting ≠ 0 := by
        rw [hexpecting]
        split
        · decide
        · split <;> decide
      have hheld' : Holds (leadByte e c) [c] := by
        rw [Holds, if_neg hpos]
        exact ⟨c, [], rfl, hhigh⟩
      rw [← hexpecting, and_iff_right hlead,
        ← ih [c] _ ((immune_leadByte e c).trans himmune) hheld', account,
        if_neg hpos]
      rfl
    · have hgiven : (leadByte e c).expecting = 0 := by
        rw [leadByte, if_pos (UInt8.not_le.mp hlead)]
      rw [account, if_pos hgiven]
      exact iff_of_false (stands_of_lost s limit _ c []) fun h => hlead h.1
  · rw [if_neg (fun h => hhigh h.2.2), if_neg (by simp), whole_ordinary hc (UInt8.not_le.mp hhigh)]
    refine (char_cons_inj c _ _).trans ?_
    rw [← hzero]
    exact ih [] e himmune hheld

/-- A byte inside of a sequence goes on with it, or the sequence is lost. -/
theorem stands_next (himmune : e.immune = false) (hheld : Holds e held) (hc : ¬Special c)
    (hpos : e.expecting ≠ 0) :
    StandsCons limit e held c s ↔ Whole e.expecting (c :: slice limit s) := by
  obtain ⟨d, h, rfl, hd⟩ := hheld.eq_cons hpos
  rw [StandsCons]
  rw [encodeByte_ordinary himmune hc, if_neg (fun h => hpos h.2.1),
    if_pos ⟨rfl, Nat.pos_of_ne_zero hpos⟩, nextByte]
  obtain ⟨immune, expecting, unicode⟩ := e
  obtain ⟨k, rfl⟩ : ∃ k, expecting = k + 1 := Nat.exists_eq_succ_of_ne_zero hpos
  rw [Whole]
  by_cases hnext : 128 ≤ c ∧ c < 192
  · rw [if_pos hnext, and_iff_right hnext]
    cases k with
    | zero =>
      refine Iff.trans ?_ (ih [] ⟨immune, 0, unicode * 64 + c.toNat % 64⟩ himmune rfl)
      show (d :: h ++ [c]).map Content.char ++ _ = _ ↔ _
      rw [List.append_cons (d :: h) c (slice limit s),
        @List.map_append _ _ _ (d :: h ++ [c]) (slice limit s),
        List.append_cancel_left_eq]
      rfl
    | succ k =>
      refine Iff.trans ?_ (ih (d :: h ++ [c]) ⟨immune, k + 1, unicode * 64 + c.toNat % 64⟩ himmune
        ⟨d, h ++ [c], rfl, hd⟩)
      rw [List.append_cons]
      rfl
  · rw [if_neg hnext]
    exact iff_of_false (stands_of_lost s limit _ c (d :: h)) fun h => hnext h.1

end

/-- An encoded text stands for all of its bytes exactly if its sequences are complete. -/
theorem stands_iff (s held : Str) (limit : Option Nat) (e : Encoder) (himmune : e.immune = false)
    (hheld : Holds e held) : Stands limit e held s ↔ Whole e.expecting (slice limit s) := by
  induction s generalizing held limit e with
  | nil => exact stands_iff_of_end (.inr rfl) hheld
  | cons c s ih =>
    by_cases hlimit : limit = some 0
    · exact stands_iff_of_end (.inl hlimit) hheld
    rw [stands_cons hlimit, slice_cons hlimit]
    have ih := fun held e himmune hheld => ih held (limit.map (· - 1)) e himmune hheld
    by_cases hc : Special c
    · exact stands_special ih himmune hheld hc
    by_cases hzero : e.expecting = 0
    · exact stands_lead ih himmune hheld hc hzero
    · exact stands_next ih himmune hheld hc hzero

/-! ## A tag with text and children -/

/-- Complete sequences, where they matter. -/
def Clean (utf8 : Bool) (s : Str) : Prop := utf8 = true → Whole 0 s

theorem textItems_content_iff (limit : Option Nat) (s : Str) :
    (textItems utf8 limit s).flatMap Item.content = (slice limit s).map .char
      ↔ Clean utf8 (slice limit s) := by
  cases utf8 with
  | false => exact iff_of_true (content_of_plain limit _ [] s (Or.inr ⟨rfl, rfl⟩)) nofun
  | true => exact (stands_iff s [] limit ⟨false, 0, 0⟩ rfl rfl).trans ⟨fun h _ => h, fun h => h rfl⟩

theorem exists_chars (limit : Option Nat) (e : Encoder) (held s : Str) :
    ∃ cs : Str, (ampItems utf8 limit e held s).flatMap Item.content = cs.map .char := by
  induction limit, e, held, s using rounds_induction utf8 with
  | stop limit e held s h => exact ⟨[], by rw [ampItems_of_end h]; rfl⟩
  | round limit e held c s hlimit ih =>
    obtain ⟨cs, hcs⟩ := ih
    refine ⟨(account e held c (encodeByte utf8 false e c s.head?)).1 ++ cs, ?_⟩
    rw [ampItems_cons hlimit, List.flatMap_cons, hcs, List.map_append]
    rfl

/-- A limit only cuts. -/
theorem ampItems_begins (s held : Str) (n : Nat) (e : Encoder) :
    ampItems utf8 (some n) e held s <+: ampItems utf8 none e held s := by
  induction s generalizing held n e with
  | nil =>
    rw [ampItems_of_end (.inr rfl)]
    exact List.nil_prefix
  | cons c s ih =>
    cases n with
    | zero =>
      rw [ampItems_of_end (.inl rfl)]
      exact List.nil_prefix
    | succ n => exact (List.prefix_cons_inj _).mpr (ih _ n _)

/-- Something is written for a text that begins with complete sequences. -/
theorem content_ne_nil {s : Str} {n : Nat} (hs : s ≠ []) (hn : 0 < n) (hclean : Clean utf8 (s.take n)) :
    (textItems utf8 none s).flatMap Item.content ≠ [] := by
  intro hnil
  obtain ⟨rest, hrest⟩ := @ampItems_begins utf8 s [] n ⟨false, 0, 0⟩
  have hcut := (textItems_content_iff (some n) s).mpr hclean
  rw [textItems, ← hrest, List.flatMap_append, List.append_eq_nil_iff] at hnil
  rw [textItems, hnil.1] at hcut
  have htake := List.map_eq_nil_iff.mp hcut.symm
  rw [slice, List.take_eq_nil_iff] at htake
  exact htake.elim hn.ne' hs

/-- The text between the children. -/
def slices (txt : Str) : Nat → List Nat → List Str
  | start, [] => [txt.drop start]
  | start, off :: offs => (txt.drop start).take (off - start) :: slices txt off offs

/-- The text with each child at its offset. -/
def mixed (txt : Str) : Nat → List Tag → List Content
  | start, [] => (txt.drop start).map .char
  | start, xml :: xmls => ((txt.drop start).take (xml.off - start)).map .char ++
    .child xml :: mixed txt xml.off xmls

theorem exists_slice {txt : Str} {start : Nat} {offs : List Nat}
    (hoffs : List.IsChain (· ≤ ·) (start :: offs))
    (hstart : start < txt.length) : ∃ n, 0 < n ∧ (txt.drop start).take n ∈ slices txt start offs := by
  induction offs with
  | nil =>
    refine ⟨txt.length, by omega, ?_⟩
    rw [slices, List.take_of_length_le (by simp)]
    exact List.mem_singleton_self _
  | cons off offs ih =>
    obtain ⟨hle, htail⟩ := List.isChain_cons_cons.mp hoffs
    rw [slices]
    rcases Nat.lt_or_eq_of_le hle with hlt | rfl
    · exact ⟨off - start, by omega, List.mem_cons_self⟩
    · obtain ⟨n, hn, hmem⟩ := ih htail
      exact ⟨n, hn, List.mem_cons_of_mem _ hmem⟩

theorem chars_child_inj (as bs : Str) (xml : Tag) (A B : List Content) :
    as.map Content.char ++ .child xml :: A = bs.map .char ++ .child xml :: B ↔ as = bs ∧ A = B := by
  induction as generalizing bs with
  | nil => cases bs <;> simp
  | cons a as ih => cases bs with
    | nil => simp
    | cons b bs => simp [ih, and_assoc]

theorem tagsItems_content_iff (count : Nat) (txt : Str) (start : Nat) (xmls : List Tag) (o : Out)
    (hoffs : List.IsChain (· ≤ ·) (start :: xmls.map Tag.off))
    (hin : ∀ xml ∈ xmls, xml.off ≤ txt.length) :
    (tagsItems utf8 root count txt start xmls o).flatMap Item.content = mixed txt start xmls
      ↔ List.IsChain (fun a b => a < b ∨ txt.length ≤ a) (start :: xmls.map Tag.off)
        ∧ ∀ s ∈ slices txt start (xmls.map Tag.off), Clean utf8 s := by
  induction xmls generalizing start o with
  | nil =>
    refine (textItems_content_iff none _).trans ?_
    simp [slices, slice]
  | cons xml xmls ih =>
    rw [List.map_cons] at hoffs ⊢
    obtain ⟨hle, htail⟩ := List.isChain_cons_cons.mp hoffs
    have hrest := fun o => ih xml.off o htail fun x hx => hin x (List.mem_cons_of_mem xml hx)
    obtain ⟨cs, hcs⟩ : ∃ cs : Str,
      (textItems utf8 (textLimit start xml.off) (txt.drop start)).flatMap Item.content
        = cs.map .char := exists_chars _ _ _ _
    have hmap : ∀ t : Str, cs = t ↔ cs.map Content.char = t.map .char := fun t =>
      (List.map_injective_iff.mpr (fun _ _ => Content.char.inj)).eq_iff.symm
    rw [tagsItems, mixed, List.flatMap_append, List.flatMap_cons, hcs,
      Nat.min_eq_right (hin xml List.mem_cons_self),
      slices, List.isChain_cons_cons, List.forall_mem_cons]
    refine ((chars_child_inj cs _ xml _ _).trans (and_congr (hmap _) (hrest _))).trans ?_
    rw [← hcs, textLimit]
    split
    · next hlt =>
      have hslice := @textItems_content_iff utf8 (some (xml.off - start)) (txt.drop start)
      rw [slice] at hslice
      rw [hslice]
      tauto
    · -- there is no text between the two, but all that is left of it is written
      next hge =>
      obtain rfl : start = xml.off := Nat.le_antisymm hle (Nat.not_lt.mp hge)
      rw [Nat.sub_self, List.take_zero]
      by_cases hend : txt.length ≤ xml.off
      · rw [List.drop_eq_nil_of_le hend]
        have hclean : Clean utf8 [] := fun _ => trivial
        have hnil : (textItems utf8 none []).flatMap Item.content = [] := rfl
        rw [hnil]
        tauto
      · refine iff_of_false ?_ fun h => h.1.1.elim hge hend
        rintro ⟨hnil, -, hclean⟩
        obtain ⟨n, hn, hmem⟩ := exists_slice htail (Nat.not_le.mp hend)
        refine content_ne_nil ?_ hn (hclean _ hmem) hnil
        rw [ne_eq, List.drop_eq_nil_iff]
        exact hend

end

/-- The output for a tag is its start, the items, and its end. The items have each byte of the text once
and in order, and each child at its offset, exactly if every child is behind the one before it and not
at the start of the text, unless it is at the end of the text; and if, when UTF-8 is encoded, no
sequence is cut or incomplete. -/
theorem mixed_content_iff (utf8 : Bool) (root : Root) (count : Nat) (xml : Tag) (o : Out) (txt : Str)
    (htxt : xml.txt = some txt) (hoffs : List.IsChain (· ≤ ·) (0 :: xml.child.map Tag.off))
    (hin : ∀ x ∈ xml.child, x.off ≤ txt.length) :
    (∃ written, written = (tagStart utf8 root count xml o).text ++
      (tagItems utf8 root count xml o).flatMap Item.written
        ∧ (toxmlTag utf8 root count xml o).text = written ++ tagEnd count xml written)
      ∧ ((tagItems utf8 root count xml o).flatMap Item.content = mixed txt 0 xml.child
        ↔ List.IsChain (fun a b => a < b ∨ txt.length ≤ a) (0 :: xml.child.map Tag.off)
          ∧ ∀ s ∈ slices txt 0 (xml.child.map Tag.off), Clean utf8 s) := by
  constructor
  · rw [toxmlTag_eq, tagItems, ← toxmlTags_render]
    exact ⟨_, rfl, closeTag_text (by rw [Tag.hasContent, htxt]; exact Bool.or_true _) count _⟩
  · rw [tagItems, htxt]
    exact tagsItems_content_iff (count + 1) txt 0 xml.child _ hoffs hin

/-- `a` with the child at its end. -/
def tagBehind : Tag := ⟨[116], [], some [97], 0, [⟨[98], [], some [], 1, []⟩]⟩

theorem mixed_content_iff_behind :
    (tagItems true plainRoot 0 tagBehind ⟨[], 0, []⟩).flatMap Item.content
    = [.char 97, .child ⟨[98], [], some [], 1, []⟩] := by
  refine (mixed_content_iff true plainRoot 0 tagBehind ⟨[], 0, []⟩ [97] rfl ?_ ?_).2.mpr ⟨?_, ?_⟩
  · simp [tagBehind]
  · simp [tagBehind]
  · simp [tagBehind]
  · simp [tagBehind, slices, Clean, Whole]

/-- A child at offset 0: the `a` is written in front of it and behind it. -/
def tagBefore : Tag := ⟨[116], [], some [97], 0, [⟨[98], [], some [], 0, []⟩]⟩

theorem mixed_content_twice :
    (toxmlTag true plainRoot 0 tagBefore ⟨[], 0, []⟩).text = bytes "<t>a  <b></b>\na</t>\n"
      ∧ (tagItems true plainRoot 0 tagBefore ⟨[], 0, []⟩).flatMap Item.content
        ≠ mixed [97] 0 tagBefore.child := by
  refine ⟨by decide +kernel, ?_⟩
  intro h
  exact absurd (congrArg List.length h) (by decide)

end FreeSwitch.Xml
