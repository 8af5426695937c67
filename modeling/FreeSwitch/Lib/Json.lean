import Mathlib.Tactic

/-!
# JSON texts

A reader for the grammar of JSON: a value from the front of a text, and what is left of the text. The
depth is bounded by an amount of fuel. Texts are built up from those of their parts, and so is what is
read.

* **`value`** — the reader; **`Decodes`** — a text as a whole, with enough fuel.
* **`Reads`** — a text stands for a value under a condition, and for nothing else without it.
* **`Reads.string`**, **`Reads.number`**, **`Reads.array`**, **`Reads.object`** — the parts.
-/

namespace Json

abbrev Text := List Char

/-- A number is `mantissa * 10 ^ exponent`. -/
inductive Value where
  | null
  | bool (b : Bool)
  | num (mantissa exponent : Int)
  | str (s : Text)
  | arr (elements : List Value)
  | obj (members : List (Text × Value))

/-! ## The reader -/

def isWs (c : Char) : Bool := c = ' ' || c = '\t' || c = '\n' || c = '\r'

def skip (s : Text) : Text := s.dropWhile isWs

def hexDigit (c : Char) : Option Nat :=
  if c.isDigit then some (c.toNat - 48)
  else if 'a' ≤ c ∧ c ≤ 'f' then some (c.toNat - 87)
  else if 'A' ≤ c ∧ c ≤ 'F' then some (c.toNat - 55)
  else none

def hexUnit (a b c d : Char) : Option Nat := do
  return ((← hexDigit a) * 16 + (← hexDigit b)) * 256 + ((← hexDigit c) * 16 + (← hexDigit d))

/-- What an escape of one character stands for. -/
def unescape (c : Char) : Option Char :=
  [('"', '"'), ('\\', '\\'), ('/', '/'), ('b', '\x08'), ('f', '\x0c'), ('n', '\n'), ('r', '\r'),
    ('t', '\t')].lookup c

/-- A character, or one half of a pair of surrogates. -/
abbrev Piece := Char ⊕ Nat

/-- The characters. Half a pair without the other one is replaced. -/
def join : List Piece → Text
  | [] => []
  | .inl c :: l => c :: join l
  | .inr high :: .inr low :: l =>
    if 0xD800 ≤ high ∧ high < 0xDC00 ∧ 0xDC00 ≤ low ∧ low < 0xE000 then
      Char.ofNat (0x10000 + (high - 0xD800) * 0x400 + (low - 0xDC00)) :: join l
    else Char.ofNat 0xFFFD :: join (.inr low :: l)
  | .inr _ :: l => Char.ofNat 0xFFFD :: join l

/-- The rest of a string behind its first `"`. -/
def pieces : Text → Option (List Piece × Text)
  | [] => none
  | '"' :: s => some ([], s)
  | '\\' :: 'u' :: a :: b :: c :: d :: s => do
    let unit ← hexUnit a b c d
    let (l, s) ← pieces s
    return ((if 0xD800 ≤ unit ∧ unit < 0xE000 then .inr unit else .inl (Char.ofNat unit)) :: l, s)
  | '\\' :: e :: s => do
    let c ← unescape e
    let (l, s) ← pieces s
    return (.inl c :: l, s)
  | c :: s =>
    if c < ' ' then none
    else do
      let (l, s) ← pieces s
      return (.inl c :: l, s)

def string (s : Text) : Option (Text × Text) := (pieces s).map fun r => (join r.1, r.2)

def fraction : Text → Option (Text × Text)
  | '.' :: s => if s.takeWhile Char.isDigit = [] then none
    else some (s.takeWhile Char.isDigit, s.dropWhile Char.isDigit)
  | s => some ([], s)

def sign : Text → Int × Text
  | '-' :: s => (-1, s)
  | '+' :: s => (1, s)
  | s => (1, s)

def exponent : Text → Option (Int × Text)
  | c :: s =>
    if c = 'e' ∨ c = 'E' then
      let (factor, s) := sign s
      if s.takeWhile Char.isDigit = [] then none
      else some (factor * Nat.ofDigitChars 10 (s.takeWhile Char.isDigit) 0, s.dropWhile Char.isDigit)
    else some (0, c :: s)
  | [] => some (0, [])

/-- A number without its minus sign. No zero stands in front of another digit. -/
def magnitude (factor : Int) (s : Text) : Option (Value × Text) := do
  let int := s.takeWhile Char.isDigit
  if int = [] ∨ int.head? = some '0' ∧ int ≠ ['0'] then none
  let (frac, s) ← fraction (s.dropWhile Char.isDigit)
  let (exp, s) ← exponent s
  return (.num (factor * Nat.ofDigitChars 10 (int ++ frac) 0) (exp - frac.length), s)

def number : Text → Option (Value × Text)
  | '-' :: s => magnitude (-1) s
  | s => magnitude 1 s

section

variable {β : Type}

/-- One or more items with commas between them, up to a closing bracket. -/
def separated (item : Text → Option (β × Text)) (close : Char) : Nat → Text → Option (List β × Text)
  | 0, _ => none
  | fuel + 1, s => do
    let (b, s) ← item (skip s)
    match skip s with
    | [] => none
    | c :: s =>
      if c = ',' then do
        let (l, s) ← separated item close fuel s
        return (b :: l, s)
      else if c = close then some ([b], s)
      else none

end

def member (value : Text → Option (Value × Text)) : Text → Option ((Text × Value) × Text)
  | '"' :: s => do
    let (key, s) ← string s
    match skip s with
    | ':' :: s => do
      let (v, s) ← value (skip s)
      return ((key, v), s)
    | _ => none
  | _ => none

def value : Nat → Text → Option (Value × Text)
  | 0, _ => none
  | fuel + 1, s =>
    match s with
    | '"' :: s => (string s).map fun r => (.str r.1, r.2)
    | '[' :: s =>
      match skip s with
      | ']' :: s => some (.arr [], s)
      | s => (separated (value fuel) ']' fuel s).map fun r => (.arr r.1, r.2)
    | '{' :: s =>
      match skip s with
      | '}' :: s => some (.obj [], s)
      | s => (separated (member (value fuel)) '}' fuel s).map fun r => (.obj r.1, r.2)
    | 't' :: 'r' :: 'u' :: 'e' :: s => some (.bool true, s)
    | 'f' :: 'a' :: 'l' :: 's' :: 'e' :: s => some (.bool false, s)
    | 'n' :: 'u' :: 'l' :: 'l' :: s => some (.null, s)
    | s => number s

/-- The whole text is a value, with white space around it. -/
def Decodes (s : Text) (v : Value) : Prop :=
  ∃ fuel rest, value fuel (skip s) = some (v, rest) ∧ skip rest = []

/-! ## Texts of values -/

/-- What can follow a value without white space. -/
def Ends (rest : Text) : Prop := ∀ c ∈ rest.head?, c = ',' ∨ c = ']' ∨ c = '}'

/-- The item is read if the condition holds and there is fuel enough; if not, nothing is. -/
structure ReadsBy {β : Type} (item : Nat → Text → Option (β × Text)) (t : Text) (b : β)
    (ok : Prop) : Prop where
  reads : ∃ depth, ∀ fuel rest, Ends rest → ∀ r, item fuel (t ++ rest) = some r ↔
    (ok ∧ depth ≤ fuel) ∧ r = (b, rest)
  /-- It begins with no white space and no closing bracket. -/
  head : ∃ c s, t = c :: s ∧ isWs c = false ∧ c ≠ ']' ∧ c ≠ '}'

abbrev Reads (t : Text) (v : Value) (ok : Prop) : Prop := ReadsBy value t v ok

variable {c : Char}

theorem skip_cons (hc : isWs c = false) (s : Text) : skip (c :: s) = c :: s :=
  List.dropWhile_cons_of_neg (by rw [hc]; exact Bool.false_ne_true)

variable {t : Text}

theorem ReadsBy.skip_append {β : Type} {item : Nat → Text → Option (β × Text)} {b : β} {ok : Prop}
    (h : ReadsBy item t b ok) (rest : Text) : skip (t ++ rest) = t ++ rest := by
  obtain ⟨c, s, rfl, hc, -⟩ := h.head
  exact skip_cons hc (s ++ rest)

theorem Reads.decodes_iff {v w : Value} {ok : Prop} (h : Reads t v ok) : Decodes t w ↔ ok ∧ w = v := by
  obtain ⟨depth, hreads⟩ := h.reads
  have hwhole := fun fuel => hreads fuel [] fun c hc => (nomatch hc)
  have hskip := h.skip_append []
  simp only [List.append_nil] at hwhole hskip
  unfold Decodes
  rw [hskip]
  constructor
  · rintro ⟨fuel, rest, hvalue, -⟩
    obtain ⟨⟨hok, -⟩, hr⟩ := (hwhole fuel _).mp hvalue
    exact ⟨hok, (Prod.mk.inj hr).1⟩
  · rintro ⟨hok, rfl⟩
    exact ⟨depth, [], (hwhole depth _).mpr ⟨⟨hok, le_rfl⟩, rfl⟩, rfl⟩

/-- Texts with commas between them. -/
def commas : List Text → Text
  | [] => []
  | [t] => t
  | t :: ts => t ++ ',' :: commas ts

theorem commas_singleton (t : Text) : commas [t] = t :=
  rfl

theorem commas_cons (t t' : Text) (ts : List Text) :
    commas (t :: t' :: ts) = t ++ ',' :: commas (t' :: ts) :=
  rfl

section

variable {α β : Type} {item : Nat → Text → Option (β × Text)} {close : Char}
  {texts : α → Text} {val : α → β}
  {ok : α → Prop}

theorem ends_cons (hc : c = ',' ∨ c = ']' ∨ c = '}') (rest : Text) : Ends (c :: rest) := by
  intro d hd
  obtain rfl := Option.some.inj hd
  exact hc

/-- The first item, with a comma or the closing bracket behind it. -/
theorem separated_cons {f : Text → Option (β × Text)} {rest : Text} {b : β} {P : Prop}
    (hc : c = ',' ∨ c = ']' ∨ c = '}') (hskip : skip (t ++ c :: rest) = t ++ c :: rest)
    (hitem : ∀ r, f (t ++ c :: rest) = some r ↔ P ∧ r = (b, c :: rest)) (n : Nat) (r : List β × Text) :
    separated f close (n + 1) (t ++ c :: rest) = some r ↔ P ∧
      (if c = ',' then do
          let (l, s) ← separated f close n rest
          return (b :: l, s)
        else if c = close then some ([b], rest)
        else none) = some r := by
  have hws : isWs c = false := by rcases hc with rfl | rfl | rfl <;> decide
  have hsome := (hitem (b, c :: rest)).mpr
  rw [separated, hskip, Option.bind_eq_bind, Option.bind_eq_some_iff]
  constructor
  · rintro ⟨x, hx, h⟩
    obtain ⟨hP, rfl⟩ := (hitem x).mp hx
    simp only [skip_cons hws] at h
    exact ⟨hP, h⟩
  · rintro ⟨hP, h⟩
    refine ⟨_, hsome ⟨hP, rfl⟩, ?_⟩
    simp only [skip_cons hws]
    exact h

theorem separated_iff (hclose : close = ']' ∨ close = '}') {items : List α} (hne : items ≠ [])
    (h : ∀ a ∈ items, ReadsBy item (texts a) (val a) (ok a)) :
    ∃ depth, ∀ fuel n rest r,
      separated (item fuel) close n (commas (items.map texts) ++ close :: rest) = some r ↔
      ((∀ a ∈ items, ok a) ∧ depth ≤ fuel ∧ items.length ≤ n) ∧ r = (items.map val, rest) := by
  induction items with
  | nil => exact absurd rfl hne
  | cons a items ih =>
    have h := List.forall_mem_cons.mp h
    obtain ⟨depth, hfirst⟩ := h.1.reads
    cases items with
    | nil =>
      refine ⟨depth, fun fuel n rest r => ?_⟩
      cases n with
      | zero => simp [separated]
      | succ n =>
        have hcomma : close ≠ ',' := by rcases hclose with rfl | rfl <;> decide
        rw [List.map_singleton, commas_singleton, separated_cons (.inr hclose) (h.1.skip_append _)
          (hfirst fuel _ (ends_cons (.inr hclose) rest)), if_neg hcomma, if_pos rfl]
        simp [eq_comm]
    | cons a' items =>
      obtain ⟨later, hlater⟩ := ih (List.cons_ne_nil _ _) h.2
      refine ⟨max depth later, fun fuel n rest r => ?_⟩
      cases n with
      | zero => simp [separated]
      | succ n =>
        have htext : commas ((a :: a' :: items).map texts) ++ close :: rest =
            texts a ++ ',' :: (commas ((a' :: items).map texts) ++ close :: rest) :=
              List.append_assoc _ _ _
        rw [htext, separated_cons (.inl rfl) (h.1.skip_append _)
          (hfirst fuel _ (ends_cons (.inl rfl) _)), if_pos rfl,
          Option.bind_eq_bind, Option.bind_eq_some_iff, List.forall_mem_cons, max_le_iff,
          List.length_cons,
          Nat.add_le_add_iff_right]
        simp only [hlater]
        constructor
        · rintro ⟨⟨hok, hdepth⟩, _, ⟨⟨hoks, hlater, hn⟩, rfl⟩, hr⟩
          exact ⟨⟨⟨hok, hoks⟩, ⟨hdepth, hlater⟩, hn⟩, (Option.some.inj hr).symm⟩
        · rintro ⟨⟨⟨hok, hoks⟩, ⟨hdepth, hlater⟩, hn⟩, rfl⟩
          exact ⟨⟨hok, hdepth⟩, _, ⟨⟨hoks, hlater, hn⟩, rfl⟩, rfl⟩

/-- The first item is seen in front. -/
theorem commas_head {items : List α} (hne : items ≠ [])
    (h : ∀ a ∈ items, ReadsBy item (texts a) (val a) (ok a)) :
    ∃ c s, commas (items.map texts) = c :: s ∧ isWs c = false ∧ c ≠ ']' ∧ c ≠ '}' := by
  obtain ⟨a, items, rfl⟩ := List.exists_cons_of_ne_nil hne
  obtain ⟨c, s, hs, hc⟩ := (h a List.mem_cons_self).head
  cases items with
  | nil => exact ⟨c, s, hs, hc⟩
  | cons a' items =>
    refine ⟨c, s ++ ',' :: commas ((a' :: items).map texts), ?_, hc⟩
    show texts a ++ ',' :: commas ((a' :: items).map texts) = _
    rw [hs]
    rfl

end

section

variable {α β : Type} {item : Nat → Text → Option (β × Text)} {close : Char}
  {texts : α → Text} {val : α → β}
  {ok : α → Prop}

/-- Items between brackets. -/
theorem Reads.bracketed (first : Char) (build : List β → Value) (hclose : close = ']' ∨ close = '}')
    (hfirst : isWs first = false ∧ first ≠ ']' ∧ first ≠ '}')
    (hnil : ∀ fuel rest, value (fuel + 1) (first :: close :: rest) = some (build [], rest))
    (hcons : ∀ fuel c s, isWs c = false → c ≠ close →
      value (fuel + 1) (first :: c :: s) = (separated (item fuel) close fuel (c :: s)).map fun r =>
      (build r.1, r.2))
    {items : List α} (h : ∀ a ∈ items, ReadsBy item (texts a) (val a) (ok a)) :
    Reads (first :: commas (items.map texts) ++ [close]) (build (items.map val))
      (∀ a ∈ items, ok a) := by
  have hassoc : ∀ rest, first :: commas (items.map texts) ++ [close] ++ rest =
      first :: (commas (items.map texts) ++ close :: rest) := fun rest => by simp
  refine ⟨?_, ⟨first, _, rfl, hfirst⟩⟩
  simp only [hassoc]
  by_cases hne : items = []
  · subst hne
    refine ⟨1, fun fuel rest _ r => ?_⟩
    cases fuel with
    | zero => simp [value]
    | succ fuel =>
      rw [List.map_nil, List.map_nil, commas, List.nil_append, hnil]
      simp [eq_comm]
  · obtain ⟨depth, hitems⟩ := separated_iff hclose hne h
    obtain ⟨c, s, hs, hc, hbracket⟩ := commas_head hne h
    refine ⟨max depth items.length + 1, fun fuel rest _ r => ?_⟩
    cases fuel with
    | zero => simp [value]
    | succ fuel =>
      have hitems := hitems fuel fuel rest
      rw [hs, List.cons_append] at hitems ⊢
      have hbracket : c ≠ close := by rcases hclose with rfl | rfl <;> simp [hbracket]
      rw [hcons fuel c _ hc hbracket, Option.map_eq_some_iff, Nat.add_le_add_iff_right, max_le_iff]
      simp only [hitems]
      constructor
      · rintro ⟨_, ⟨hfuel, rfl⟩, rfl⟩
        exact ⟨hfuel, rfl⟩
      · rintro ⟨hfuel, rfl⟩
        exact ⟨_, ⟨hfuel, rfl⟩, rfl⟩

end

section

variable {α : Type} {texts : α → Text} {ok : α → Prop}

/-- **An array is read if its elements are.** -/
theorem Reads.array {val : α → Value} {items : List α}
    (h : ∀ a ∈ items, Reads (texts a) (val a) (ok a)) :
    Reads ('[' :: commas (items.map texts) ++ [']']) (.arr (items.map val)) (∀ a ∈ items, ok a) := by
  refine Reads.bracketed '[' Value.arr (.inl rfl)
    (by decide) (fun _ _ => rfl) (fun fuel c s hc hne => ?_) h
  simp only [value, skip_cons hc]
  split
  next heq => exact absurd (List.cons.inj heq).1 hne
  next => rfl

/-- **An object is read if its members are.** -/
theorem Reads.object {val : α → Text × Value} {items : List α}
    (h : ∀ a ∈ items, ReadsBy (fun fuel => member (value fuel)) (texts a) (val a) (ok a)) :
    Reads ('{' :: commas (items.map texts) ++ ['}']) (.obj (items.map val)) (∀ a ∈ items, ok a) := by
  refine Reads.bracketed '{' Value.obj (.inr rfl)
    (by decide) (fun _ _ => rfl) (fun fuel c s hc hne => ?_) h
  simp only [value, skip_cons hc]
  split
  next heq => exact absurd (List.cons.inj heq).1 hne
  next => rfl

end

/-- The text of a string is read if the reader comes to its end. -/
theorem Reads.string {s : Text} {ok : Prop}
    (h : ∀ rest r, Json.string (t ++ '"' :: rest) = some r ↔ ok ∧ r = (s, rest)) :
    Reads ('"' :: t ++ ['"']) (.str s) ok := by
  have hassoc : ∀ rest, '"' :: t ++ ['"'] ++ rest = '"' :: (t ++ '"' :: rest) := fun rest => by simp
  refine ⟨⟨1, fun fuel rest _ r => ?_⟩, ⟨'"', _, rfl, by decide⟩⟩
  cases fuel with
  | zero => simp [value]
  | succ fuel =>
    rw [hassoc, value, Option.map_eq_some_iff]
    simp only [h]
    constructor
    · rintro ⟨_, ⟨hok, rfl⟩, rfl⟩
      exact ⟨⟨hok, Nat.le_add_left 1 fuel⟩, rfl⟩
    · rintro ⟨⟨hok, -⟩, rfl⟩
      exact ⟨_, ⟨hok, rfl⟩, rfl⟩

/-- A member whose key is read. -/
theorem Reads.member {k key : Text} {v : Value} {ok : Prop}
    (hkey : ∀ rest, Json.string (k ++ '"' :: rest) = some (key, rest)) (h : Reads t v ok) :
    ReadsBy (fun fuel => member (value fuel)) ('"' :: k ++ '"' :: ':' :: t) (key, v) ok := by
  obtain ⟨depth, hvalue⟩ := h.reads
  refine ⟨⟨depth, fun fuel rest hrest r => ?_⟩, ⟨'"', _, rfl, by decide⟩⟩
  have hassoc : '"' :: k ++ '"' :: ':' :: t ++ rest = '"' :: (k ++ '"' :: (':' :: (t ++ rest))) := by
    simp
  have hcolon : skip (':' :: (t ++ rest)) = ':' :: (t ++ rest) := skip_cons (by decide) _
  simp only [hassoc, Json.member, hkey, hcolon, h.skip_append, Option.bind_eq_bind, Option.bind_some,
    Option.bind_eq_some_iff, hvalue fuel rest hrest]
  constructor
  · rintro ⟨_, ⟨hok, rfl⟩, hr⟩
    exact ⟨hok, (Option.some.inj hr).symm⟩
  · rintro ⟨hok, rfl⟩
    exact ⟨_, ⟨hok, rfl⟩, rfl⟩

/-! ## Integers -/

/-- An integer in decimal digits. -/
def decimal : Int → Text
  | .ofNat n => Nat.toDigits 10 n
  | .negSucc n => '-' :: Nat.toDigits 10 (n + 1)

theorem toDigits_head {n : Nat} (hn : n ≠ 0) : (Nat.toDigits 10 n).head? ≠ some '0' := by
  induction n using Nat.strong_induction_on with
  | _ n ih =>
    rw [Nat.toDigits_eq_if (by omega)]
    split
    · have : ∀ m < 10, m ≠ 0 → [Nat.digitChar m].head? ≠ some '0' := by decide
      exact this n ‹_› hn
    · have hne := Nat.toDigits_ne_nil (n := n / 10) (b := 10)
      rw [List.head?_append_of_ne_nil _ hne]
      exact ih (n / 10) (by omega) (by omega)

theorem takeWhile_toDigits (n : Nat) {rest : Text} (hrest : Ends rest) :
    (Nat.toDigits 10 n ++ rest).takeWhile Char.isDigit = Nat.toDigits 10 n ∧
      (Nat.toDigits 10 n ++ rest).dropWhile Char.isDigit = rest := by
  have hdigits : ∀ c ∈ Nat.toDigits 10 n,
      c.isDigit = true := fun c hc => Nat.isDigit_of_mem_toDigits (by omega) (by omega) hc
  rw [List.takeWhile_append_of_pos hdigits, List.dropWhile_append_of_pos hdigits]
  cases rest with
  | nil => exact ⟨List.append_nil _, rfl⟩
  | cons c rest =>
    have hc : c.isDigit = false := by
      rcases hrest c rfl with rfl | rfl | rfl <;> decide
    simp [hc]

theorem magnitude_toDigits (factor : Int) (n : Nat) {rest : Text} (hrest : Ends rest) :
    magnitude factor (Nat.toDigits 10 n ++ rest) = some (.num (factor * n) 0, rest) := by
  obtain ⟨htake, hdrop⟩ := takeWhile_toDigits n hrest
  have hint : ¬ (Nat.toDigits 10 n = [] ∨ (Nat.toDigits 10 n).head? = some '0' ∧
      Nat.toDigits 10 n ≠ ['0']) := by
    rintro (hnil | ⟨hzero, hne⟩)
    · exact Nat.toDigits_ne_nil hnil
    · by_cases hn : n = 0
      · subst hn
        exact hne rfl
      · exact toDigits_head hn hzero
  -- no fraction and no exponent
  have hfraction : fraction rest = some ([], rest) := by
    unfold fraction
    split
    next s => exact absurd (hrest '.' rfl) (by decide)
    next => rfl
  have hexponent : exponent rest = some (0, rest) := by
    unfold exponent
    split
    next c s =>
      refine if_neg ?_
      rintro (rfl | rfl)
      · exact absurd (hrest 'e' rfl) (by decide)
      · exact absurd (hrest 'E' rfl) (by decide)
    next => rfl
  unfold magnitude
  simp only [htake, hdrop, if_neg hint, hfraction]
  simp [hexponent, Nat.ofDigitChars_ten_toDigits]

/-- What a number does not begin with. -/
theorem ne_of_digit (hc : c.isDigit = true ∨ c = '-') :
    ∀ d ∈ ['"', '[', '{', 't', 'f', 'n', ' ', '\t', '\n', '\r', ']', '}'], c ≠ d := by
  have hnone : ['"', '[', '{', 't', 'f', 'n', ' ', '\t', '\n', '\r', ']', '}'].all
      (fun d => decide ¬ (d.isDigit = true ∨ d = '-')) = true := by decide
  exact fun d hd heq => of_decide_eq_true (List.all_eq_true.mp hnone d hd) (heq ▸ hc)

theorem value_digit (hc : c.isDigit = true ∨ c = '-') (fuel : Nat) (s : Text) :
    value (fuel + 1) (c :: s) = number (c :: s) := by
  have hne := ne_of_digit hc
  rw [value]
  all_goals
    intro _ heq
    exact hne _ (by decide) (List.cons.inj heq).1

theorem number_decimal (n : Int) {rest : Text} (hrest : Ends rest) :
    number (decimal n ++ rest) = some (.num n 0, rest) := by
  cases n with
  | negSucc n =>
    have h := magnitude_toDigits (-1) (n + 1) hrest
    rwa [show (-1 : Int) * ((n + 1 : Nat) : Int) = .negSucc n by omega] at h
  | ofNat n =>
    have h := magnitude_toDigits 1 n hrest
    rw [Int.one_mul] at h
    refine Eq.trans ?_ h
    rw [decimal, number]
    intro s hs
    obtain ⟨c, t, ht⟩ := List.exists_cons_of_ne_nil (@Nat.toDigits_ne_nil n 10)
    have hc : c.isDigit = true :=
      Nat.isDigit_of_mem_toDigits (by omega) (by omega) (ht ▸ List.mem_cons_self)
    rw [ht] at hs
    obtain rfl := (List.cons.inj hs).1
    exact absurd hc (by decide)

/-- **An integer is read back.** -/
theorem Reads.number (n : Int) : Reads (decimal n) (.num n 0) True := by
  obtain ⟨c, s, hs, hc⟩ : ∃ c s, decimal n = c :: s ∧ (c.isDigit = true ∨ c = '-') := by
    cases n with
    | negSucc n => exact ⟨'-', _, rfl, .inr rfl⟩
    | ofNat n =>
      obtain ⟨c, s, hs⟩ := List.exists_cons_of_ne_nil (@Nat.toDigits_ne_nil n 10)
      exact ⟨c, s, hs,
        .inl (Nat.isDigit_of_mem_toDigits (by omega) (by omega) (hs ▸ List.mem_cons_self))⟩
  refine ⟨⟨1, fun fuel rest hrest r => ?_⟩, c, s, hs, ?_⟩
  · cases fuel with
    | zero => simp [value]
    | succ fuel =>
      rw [hs, List.cons_append, value_digit hc, ← List.cons_append, ← hs, number_decimal n hrest]
      simp [eq_comm]
  · have hne := ne_of_digit hc
    refine ⟨?_, hne _ (by decide), hne _ (by decide)⟩
    simp [isWs, hne ' ' (by decide), hne '\t' (by decide), hne '\n' (by decide), hne '\r' (by decide)]

end Json
