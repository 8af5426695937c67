import FreeSwitch.Lib.CString

/-!
# XML — `switch_xml_toxml`

The writer appends to a buffer that it makes larger on the way: ahead of every byte it encodes, and
ahead of every piece of markup, by fixed amounts. Every write is noted down with the size that the
buffer has at that moment.

* **`switchXmlAmpencode`** — the text of a tag or an attribute.
* **`toxmlTag`** / **`toxmlTags`** — `switch_xml_toxml_r`, for one tag and for the tags of a parent
  in their order.
* **`switchXmlToxmlBuf`** — with the declaration and the processing instructions around it.
-/

namespace FreeSwitch.Xml

open CString

/-! ## The buffer -/

/-- A write of some bytes, with a NUL behind them if it is made by `sprintf`. -/
structure Write where
  start : Nat
  data : Str
  nul : Bool
  /-- The size of the buffer. -/
  max : Nat
  deriving DecidableEq

/-- The buffer, with the writes made to it from the last one back. -/
structure Out where
  text : Str
  max : Nat
  writes : List Write
  deriving DecidableEq

def bufsize : Nat := 1024

/-- `while (need > max) max += SWITCH_XML_BUFSIZE`. -/
def grow (max need : Nat) : Nat := max + bufsize * ((need - max + (bufsize - 1)) / bufsize)

namespace Out

/-- Room for `n` bytes behind the text. -/
def reserve (o : Out) (n : Nat) : Out := { o with max := grow o.max (o.text.length + n) }

def put (o : Out) (c : UInt8) : Out :=
  { o with text := o.text ++ [c], writes := ⟨o.text.length, [c], false, o.max⟩ :: o.writes }

/-- `len += sprintf(s + len, ...)`. -/
def print (o : Out) (data : Str) : Out :=
  { o with text := o.text ++ data, writes := ⟨o.text.length, data, true, o.max⟩ :: o.writes }

end Out

/-! ## Encoding -/

/-- `%X`. -/
def printHex (n : Nat) : Str :=
  if n = 0 then [48]
  else (Nat.digits 16 n).reverse.map fun d => UInt8.ofNat (if d < 10 then 48 + d else 55 + d)

/-- The local variables of `switch_xml_ampencode`. -/
structure Encoder where
  immune : Bool
  expecting : Nat
  unicode : Nat

/-- What one byte of the text is written as. -/
inductive Piece where
  | skip
  | byte (c : UInt8)
  | text (s : Str)

section

-- `USE_UTF_8_ENCODING`
variable (utf8 : Bool)

/-- The first byte of a sequence; a byte that cannot be one is skipped. -/
def leadByte (e : Encoder) (c : UInt8) : Encoder :=
  if c < 192 then { e with expecting := 0 }
  else if c < 224 then { e with unicode := c.toNat % 32, expecting := 1 }
  else if c < 240 then { e with unicode := c.toNat % 16, expecting := 2 }
  else { e with unicode := c.toNat % 8, expecting := 3 }

/-- A byte where a further one of a sequence is due. -/
def nextByte (e : Encoder) (c : UInt8) : Encoder × Piece :=
  if 128 ≤ c ∧ c < 192 then
    let unicode := e.unicode * 64 + c.toNat % 64
    ({ e with unicode, expecting := e.expecting - 1 },
      if e.expecting = 1 then .text (bytes "&#x" ++ printHex unicode ++ bytes ";") else .skip)
  else ({ e with expecting := 0 }, .skip)

/-- One round of the loop; `next` is the byte behind. A `<!` switches the encoding off. -/
def encodeByte (attr : Bool) (e : Encoder) (c : UInt8) (next : Option UInt8) : Encoder × Piece :=
  if e.immune then (e, .byte c)
  else if c = 38 then (e, .text (bytes "&amp;"))
  else if c = 60 then
    if next = some 33 then ({ e with immune := true }, .byte c) else (e, .text (bytes "&lt;"))
  else if c = 62 then (e, .text (bytes "&gt;"))
  else if c = 34 then (e, .text (if attr then bytes "&quot;" else [34]))
  else if c = 10 then (e, .text (if attr then bytes "&#xA;" else [10]))
  else if c = 9 then (e, .text (if attr then bytes "&#x9;" else [9]))
  else if c = 13 then (e, .text (bytes "&#xD;"))
  else if utf8 ∧ e.expecting = 0 ∧ 128 ≤ c then (leadByte e c, .skip)
  else if utf8 ∧ 0 < e.expecting then nextByte e c
  else (e, .byte c)

def Out.emit (o : Out) : Piece → Out
  | .skip => o
  | .byte c => o.put c
  | .text s => o.print s

/-- The room is made before the end of the text is seen. -/
def ampLoop (attr : Bool) : Option Nat → Encoder → Str → Out → Out
  | some 0, _, _, o => o
  | _, _, [], o => o.reserve 10
  | limit, e, c :: s, o =>
    let (e', piece) := encodeByte utf8 attr e c s.head?
    ampLoop attr (limit.map (· - 1)) e' s ((o.reserve 10).emit piece)

/-- `limit`: the parameter `len`, of which 0 stands for none. -/
def switchXmlAmpencode (attr : Bool) (limit : Option Nat) (s : Str) (o : Out) : Out :=
  if s = [] then o else ampLoop utf8 attr limit ⟨false, 0, 0⟩ s o

end

/-! ## Tags -/

/-- A value of an attribute, with its address: the values are compared as pointers. -/
structure Value where
  addr : Nat
  text : Str
  deriving DecidableEq

/-- A tag with its children in the order of `child`, `ordered`. -/
structure Tag where
  name : Str
  attr : List (Str × Value)
  txt : Option Str
  off : Nat
  child : List Tag

/-- What the tags have in common: default attributes by tag, and processing instructions by target,
with whether they come behind the root. -/
structure Root where
  attr : List (Str × List (Str × Option Value))
  pi : List (Str × List (Str × Bool))

/-- The default attributes of a tag. -/
def Root.defaults (root : Root) (xml : Tag) : List (Str × Option Value) :=
  ((root.attr.find? fun entry => entry.1 = xml.name).map Prod.snd).getD []

/-- `switch_xml_attr`: the attributes of the tag go before the default ones. -/
def switchXmlAttr (root : Root) (xml : Tag) (attr : Str) : Option Value :=
  match xml.attr.find? fun entry => entry.1 = attr with
  | some entry => some entry.2
  | none => ((root.defaults xml).find? fun entry => entry.1 = attr).bind Prod.snd

/-- Whether the value is the one the attribute has. -/
def shown (root : Root) (xml : Tag) (attr : Str) (value : Value) : Prop :=
  (switchXmlAttr root xml attr).map Value.addr = some value.addr

instance (root : Root) (xml : Tag) (attr : Str) (value : Value) :
    Decidable (shown root xml attr value) := inferInstanceAs (Decidable (_ = _))

def xmlIndent : Str := bytes "  "

def indent (count : Nat) (o : Out) : Out := (List.replicate count xmlIndent).foldl Out.print o

/-- A tag that follows another one starts a line. -/
def openTag (count : Nat) (name : Str) (o : Out) : Out :=
  let o := o.reserve (name.length + 5 + xmlIndent.length * count + 1)
  let o := if o.text.getLast? = some 62 then o.print [10] else o
  (indent count o).print (60 :: name)

/-- `slack`: 7 for an attribute of the tag, 8 for a default one. -/
def printAttr (utf8 : Bool) (slack count : Nat) (name value : Str) (o : Out) : Out :=
  let o := o.reserve (name.length + slack + xmlIndent.length * count)
  let o := o.print (32 :: name ++ bytes "=\"")
  (switchXmlAmpencode utf8 true none value o).print [34]

def printAttrs (utf8 : Bool) (root : Root) (count : Nat) (xml : Tag) (o : Out) : Out :=
  xml.attr.foldl (fun o entry =>
    if shown root xml entry.1 entry.2 then printAttr utf8 7 count entry.1 entry.2.text o else o) o

def printDefaults (utf8 : Bool) (root : Root) (count : Nat) (xml : Tag) (o : Out) : Out :=
  (root.defaults xml).foldl (fun o entry =>
    match entry.2 with
    | some value =>
      if shown root xml entry.1 value then printAttr utf8 8 count entry.1 value.text o else o
    | none => o) o

def Tag.hasContent (xml : Tag) : Bool := !xml.child.isEmpty || xml.txt.isSome

/-- A tag without text or children is closed at once. -/
def printEnd (xml : Tag) (o : Out) : Out :=
  o.print (if xml.hasContent then bytes ">" else bytes "/>\n")

/-- A line of its own is indented. -/
def closeTag (count : Nat) (xml : Tag) (o : Out) : Out :=
  let o := o.reserve (xml.name.length + 5 + xmlIndent.length * count)
  if xml.hasContent then
    let o := if o.text.getLast? = some 10 then indent count o else o
    o.print (bytes "</" ++ xml.name ++ bytes ">\n")
  else o

/-- How much of the text of the parent stands in front of a tag. A tag at the place of the one
before gets a length of 0, which is no limit; one in front of it, a length beyond the text. -/
def textLimit (start off : Nat) : Option Nat := if start < off then some (off - start) else none

section

variable (utf8 : Bool) (root : Root)

mutual

def toxmlTag (count : Nat) : Tag → Out → Out
  | ⟨name, attr, txt, off, child⟩, o =>
    let xml : Tag := ⟨name, attr, txt, off, child⟩
    let o := openTag count name o
    let o := printEnd xml (printDefaults utf8 root count xml (printAttrs utf8 root count xml o))
    let o :=
      if child.isEmpty then switchXmlAmpencode utf8 false none (txt.getD []) o
      else toxmlTags (count + 1) (txt.getD []) 0 child o
    closeTag count xml o

/-- The tags of a parent with that text, of which `start` bytes are written. -/
def toxmlTags (count : Nat) (txt : Str) (start : Nat) : List Tag → Out → Out
  | [], o => switchXmlAmpencode utf8 false none (txt.drop start) o
  | xml :: xmls, o =>
    let o := switchXmlAmpencode utf8 false (textLimit start xml.off) (txt.drop start) o
    let o := toxmlTag count xml o
    toxmlTags count txt (min txt.length xml.off) xmls o

end

def printPi (lead target : Str) (o : Out) (n : Str) : Out :=
  let o := o.reserve (target.length + n.length + 7)
  o.print (lead ++ bytes "<?" ++ target ++ (if n = [] then [] else [32]) ++ n ++ bytes "?>")

/-- The processing instructions in front of the root, or behind it. -/
def printPis (after : Bool) (o : Out) : Out :=
  root.pi.foldl (fun o entry =>
    (entry.2.filter fun n => n.2 = after).foldl
      (fun o n => printPi (if after then [10] else []) entry.1 o n.1) o) o

/-- `none`: no tag, or one without a name. -/
def switchXmlToxmlBuf (buflen : Nat) (xml : Option Tag) (hasParent prnHeader : Bool) : Out :=
  let o : Out := ⟨[], buflen, []⟩
  let o := if prnHeader then o.print (bytes "<?xml version=\"1.0\"?>\n") else o
  match xml with
  | none => o
  | some xml =>
    let o := if hasParent then o else printPis root false o
    let o := toxmlTag utf8 root 0 xml o
    if hasParent then o else printPis root true o

def switchXmlToxml (xml : Option Tag) (hasParent prnHeader : Bool) : Out :=
  switchXmlToxmlBuf utf8 root bufsize xml hasParent prnHeader

end

end FreeSwitch.Xml
