import FreeSwitch.Expand.Channel

/-!
# Texts made of items

A text made of plain text, `\$`, `\\` and `${name}`. Taken by itself, each of them has a meaning;
whether the expansion of the whole is what the meanings come to depends on what stands side by side: the
byte behind a reference is copied without a look at it, an escaped dollar takes a dollar behind it
along, and a text with nothing but escaped dollars is not looked at.

* **`Composable`** — what must not stand side by side.
* **`expand_items_iff`** — the expansion is the meaning, whatever the variables are, exactly for such
  texts.
-/

namespace FreeSwitch.Expand

open CString Event

/-! ## Rounds over a text -/

theorem tokens_skip (x s : Str) : tokens x.length (x ++ s) = tokens 0 s := by
  induction x with
  | nil => rfl
  | cons c x ih => exact ih

variable {c : UInt8}

/-- A round that leaves the end of the text. -/
theorem tokens_of_nextToken {x rest : Str} {t : Token} (h : nextToken (c :: (x ++ rest)) = (t, rest)) :
    tokens 0 (c :: (x ++ rest)) = t :: tokens 0 rest := by
  show (nextToken (c :: (x ++ rest))).1 :: tokens
    ((x ++ rest).length - (nextToken (c :: (x ++ rest))).2.length) (x ++ rest) = _
  rw [h, List.length_append, Nat.add_sub_cancel, tokens_skip]

theorem nextToken_plain (h : c ≠ 36 ∧ c ≠ 92) (s : Str) : nextToken (c :: s) = (.copy [c], s) := by
  unfold nextToken
  split <;> simp_all

section Rounds

variable (eval : Bool → Str → Nat → Option Str)

/-- What the rounds over a text give. -/
def rounds (s : Str) : Option Str := evalTokens eval (tokens 0 s)

theorem rounds_copy {x y rest : Str} (h : nextToken (c :: (x ++ rest)) = (.copy y, rest)) :
    rounds eval (c :: (x ++ rest)) = (rounds eval rest).map (y ++ ·) := by
  unfold rounds
  rw [tokens_of_nextToken h]
  rfl

theorem rounds_plain (h : c ≠ 36 ∧ c ≠ 92) (s : Str) :
    rounds eval (c :: s) = (rounds eval s).map (c :: ·) :=
  rounds_copy eval (x := []) (nextToken_plain h s)

theorem rounds_text {t : Str} (h : ∀ c ∈ t, c ≠ 36 ∧ c ≠ 92) (s : Str) :
    rounds eval (t ++ s) = (rounds eval s).map (t ++ ·) := by
  induction t with
  | nil => exact Option.map_id'.symm
  | cons c t ih =>
    obtain ⟨hc, ht⟩ := List.forall_mem_cons.mp h
    rw [List.cons_append, rounds_plain eval hc, ih ht, Option.map_map]
    rfl

theorem rounds_dollar {s : Str} (h : s.head? ≠ some 36) :
    rounds eval (92 :: 36 :: s) = (rounds eval s).map (36 :: ·) := by
  refine rounds_copy eval (x := [36]) (y := [36]) ?_
  exact nextToken.eq_3 s fun rest hs => h (by rw [hs]; rfl)

/-- A dollar behind an escaped one is gone. -/
theorem rounds_dollar_dollar (s : Str) :
    rounds eval (92 :: 36 :: 36 :: s) = (rounds eval s).map (36 :: ·) :=
  rounds_copy eval (x := [36, 36]) (y := [36]) rfl

theorem rounds_backslash (s : Str) : rounds eval (92 :: 92 :: s) = (rounds eval s).map (92 :: ·) :=
  rounds_copy eval (x := [92]) (y := [92]) rfl

theorem rounds_quote (s : Str) : rounds eval (92 :: 39 :: s) = rounds eval s :=
  (rounds_copy eval (x := [39]) (y := []) rfl).trans Option.map_id'

/-- A backslash that escapes nothing. -/
theorem rounds_slash {s : Str} (h : ∀ c ∈ s.head?, c ≠ 36 ∧ c ≠ 39 ∧ c ≠ 92) :
    rounds eval (92 :: s) = (rounds eval s).map (92 :: ·) := by
  refine rounds_copy eval (x := []) (y := [92]) ?_
  show nextToken (92 :: s) = _
  unfold nextToken
  split <;> simp_all

theorem rounds_braces {x rest name tail : Str}
    (h : nextToken (c :: (x ++ rest)) = (.braces false name 0 tail, rest)) :
    rounds eval (c :: (x ++ rest)) = (eval false name 0).bind fun v =>
      (rounds eval rest).map (v ++ tail ++ ·) := by
  unfold rounds
  rw [tokens_of_nextToken h]
  rfl

variable {name : Str} (hname : ∀ c ∈ name, c ≠ 123 ∧ c ≠ 125)
include hname

theorem nextToken_ref (s : Str) : nextToken (36 :: 123 :: (name ++ 125 :: s)) =
    match s with
    | [] => (.braces false name 0 [], [])
    | c :: rest => if c = 36 then (.braces false name 0 [], c :: rest)
      else (.braces false name 0 [c], rest) := by
  show bracesToken false (name ++ 125 :: s) = _
  unfold bracesToken
  rw [scanName_of_no_brace s name true hname]
  cases s <;> rfl

/-- A byte behind a reference, if it is not a dollar, is copied without a look at it. -/
theorem rounds_ref_tail (h : c ≠ 36) (s : Str) : rounds eval (36 :: 123 :: (name ++ 125 :: c :: s)) =
    (eval false name 0).bind fun v => (rounds eval s).map (v ++ [c] ++ ·) := by
  have hsplit : (36 : UInt8) :: 123 :: (name ++ 125 :: c :: s)
      = 36 :: (123 :: (name ++ [125, c]) ++ s) := by simp
  have hnext := (nextToken_ref hname (c :: s)).trans (if_neg h)
  rw [hsplit] at hnext ⊢
  exact rounds_braces eval hnext

/-- That is what the next round does anyway, unless the byte is a backslash. -/
theorem rounds_ref {s : Str} (h : s.head? ≠ some 92) : rounds eval (36 :: 123 :: (name ++ 125 :: s)) =
    (eval false name 0).bind fun v => (rounds eval s).map (v ++ ·) := by
  have hsplit : (36 : UInt8) :: 123 :: (name ++ 125 :: s) = 36 :: (123 :: (name ++ [125]) ++ s) := by
    simp
  have hstay : nextToken (36 :: 123 :: (name ++ 125 :: s)) = (.braces false name 0 [], s) →
      rounds eval (36 :: 123 :: (name ++ 125 :: s)) = (eval false name 0).bind fun v =>
        (rounds eval s).map (v ++ ·) := by
    intro hbraces
    rw [hsplit] at hbraces ⊢
    rw [rounds_braces eval hbraces]
    simp only [List.append_nil]
  match s with
  | [] => exact hstay (nextToken_ref hname [])
  | c :: s =>
    by_cases hdollar : c = 36
    · exact hstay ((nextToken_ref hname (c :: s)).trans (if_pos hdollar))
    · have hc : c ≠ 36 ∧ c ≠ 92 := ⟨hdollar, fun heq => h (by rw [heq]; rfl)⟩
      rw [rounds_ref_tail eval hname hdollar, rounds_plain eval hc]
      simp only [Option.map_map, List.append_assoc]
      rfl

end Rounds

variable {s : Str}

theorem map_cons_eq_some {o : Option Str} {d : UInt8} :
    o.map (c :: ·) = some (d :: s) ↔ c = d ∧ o = some s := by
  cases o <;> simp

theorem map_append_eq_some {o : Option Str} {t : Str} :
    o.map (t ++ ·) = some (t ++ s) ↔ o = some s := by
  cases o <;> simp

/-! ## A name in braces -/

theorem ne_of_literal {name : Str} (h : Literal name) {d : UInt8} (hc : c ∈ name)
    (hd : d ∈ [36, 92, 123, 125, 32, 40, 58, 91]) :
    c ≠ d :=
  fun heq => h c hc (heq ▸ hd)

theorem behind_of_notMem (h : ∀ d ∈ s, d ≠ c) : behind c s = none := by
  rw [behind, List.dropWhile_eq_nil_iff.mpr]
  simpa using h

theorem parseName_literal {name : Str} (h : Literal name) : parseName name = ⟨name, -1, 0, 0⟩ := by
  have hcolon : ∀ c ∈ name, c ≠ 58 := fun c hc => ne_of_literal h hc (by decide)
  have hbracket : ∀ c ∈ name, c ≠ 91 := fun c hc => ne_of_literal h hc (by decide)
  have htake : name.takeWhile (· ≠ 58) = name := List.takeWhile_eq_self_iff.mpr (by simpa using hcolon)
  simp only [parseName, htake, behind_of_notMem hcolon, behind_of_notMem hbracket]
  rfl

theorem channelSlice_zero (s : Str) : channelSlice s 0 0 = s := by
  simp [channelSlice, cutLength]

/-- Neither a dollar nor a backslash. -/
def Unmarked (s : Str) : Prop := ∀ c ∈ s, c ≠ 36 ∧ c ≠ 92

theorem Literal.unmarked {name : Str} (h : Literal name) : Unmarked name :=
  fun _ hc => ⟨ne_of_literal h hc (by decide), ne_of_literal h hc (by decide)⟩

theorem Literal.no_brace {name : Str} (h : Literal name) : ∀ c ∈ name, c ≠ 123 ∧ c ≠ 125 :=
  fun _ hc => ⟨ne_of_literal h hc (by decide), ne_of_literal h hc (by decide)⟩

/-- What a name stands for. -/
def shownText (env : Surroundings) (list : Option SwitchEvent) (store : Variables) (name : Str) : Str :=
  (shownVariable env list store name (-1)).getD []

theorem evalBraces_channel {env : Surroundings} {list : Option SwitchEvent} {api : Api Variables}
    {store : Variables} {name : Str}
    (hname : Literal name) (hvalue : Unmarked (shownText env list store name)) (depth : Nat) :
    evalBraces (channelExpander env list api store)
      (expand (channelExpander env list api store) depth) false name 0
      = some (shownText env list store name) := by
  unfold evalBraces
  rw [splitCall_of_plain fun c hc =>
    ⟨ne_of_literal hname hc (by decide), ne_of_literal hname hc (by decide)⟩]
  show (channelExpander env list api store).value _ _ _ = _
  rw [channel_value, expand_of_plain _ depth (needsExpansion_of_no_mark hname.unmarked),
    Option.bind_some, parseName_literal hname]
  unfold shownText at hvalue ⊢
  dsimp only
  cases hshown : shownVariable env list store name (-1) with
  | none => rfl
  | some v =>
    have hv : Unmarked v := by rwa [hshown] at hvalue
    show (expand _ depth v).map _ = some v
    rw [expand_of_plain _ depth (needsExpansion_of_no_mark hv), Option.map_some, channelSlice_zero]

/-! ## Items -/

inductive Item where
  | text (s : Str) (plain : ∀ c ∈ s, c ∉ [36, 92, 123, 125])
  /-- `\$`. -/
  | dollar
  /-- `\\`. -/
  | backslash
  /-- `${name}`. -/
  | ref (name : Str) (literal : Literal name)

def spell : List Item → Str
  | [] => []
  | .text s _ :: items => s ++ spell items
  | .dollar :: items => 92 :: 36 :: spell items
  | .backslash :: items => 92 :: 92 :: spell items
  | .ref name _ :: items => 36 :: 123 :: (name ++ 125 :: spell items)

def meaning (value : Str → Str) : List Item → Str
  | [] => []
  | .text s _ :: items => s ++ meaning value items
  | .dollar :: items => 36 :: meaning value items
  | .backslash :: items => 92 :: meaning value items
  | .ref name _ :: items => value name ++ meaning value items

/-- No backslash right behind a reference, and no dollar right behind an escaped one. -/
def Apart : List Item → Prop
  | [] => True
  | .ref _ _ :: items => (spell items).head? ≠ some 92 ∧ Apart items
  | .dollar :: items => (spell items).head? ≠ some 36 ∧ Apart items
  | .text _ _ :: items => Apart items
  | .backslash :: items => Apart items

/-- A reference or an escaped backslash; they keep a text from being given back as it is. -/
def Item.isSeen : Item → Bool
  | .backslash => true
  | .ref _ _ => true
  | _ => false

def Item.isText : Item → Bool
  | .text _ _ => true
  | _ => false

/-- Escaped dollars need company, and nothing stands where it is taken for something else. -/
def Composable (items : List Item) : Prop :=
  (items.all Item.isText ∨ items.any Item.isSeen) ∧ Apart items

/-- Induction over the items, and over the bytes of the texts among them. -/
theorem items_induction {motive : List Item → Prop} (nil : motive [])
    (empty : ∀ h items, motive items → motive (.text [] h :: items))
    (byte : ∀ c s h hs items, motive (.text s hs :: items) → motive (.text (c :: s) h :: items))
    (dollar : ∀ items, motive items → motive (.dollar :: items))
    (backslash : ∀ items, motive items → motive (.backslash :: items))
    (ref : ∀ name h items, motive items → motive (.ref name h :: items)) (items : List Item) :
    motive items := by
  induction items with
  | nil => exact nil
  | cons item items ih =>
    cases item with
    | text s h =>
      induction s with
      | nil => exact empty h items ih
      | cons c s ihs =>
        have hs : ∀ c ∈ s, c ∉ [36, 92, 123, 125] := (List.forall_mem_cons.mp h).2
        exact byte c s h hs items (ihs hs)
    | dollar => exact dollar items ih
    | backslash => exact backslash items ih
    | ref name h => exact ref name h items ih

/-! ## Texts that are looked at -/

theorem varCheckConst_ref (a b : Str) (dol : Bool) :
    varCheckConst dol (a ++ 36 :: 123 :: b) = true := by
  induction a generalizing dol with
  | nil => simp [varCheckConst]
  | cons c a ih => simp [varCheckConst, ih]

theorem hasEscapedData_backslash (a b : Str) : hasEscapedData (a ++ 92 :: 92 :: b) = true := by
  induction a with
  | nil => simp [hasEscapedData]
  | cons c a ih => simp [hasEscapedData, ih]

theorem spell_append (a b : List Item) : spell (a ++ b) = spell a ++ spell b := by
  induction a with
  | nil => rfl
  | cons item a ih => cases item <;> simp [spell, ih]

variable {items : List Item}

theorem needsExpansion_of_seen (h : items.any Item.isSeen) : needsExpansion (spell items) = true := by
  obtain ⟨item, hmem, hseen⟩ := List.any_eq_true.mp h
  obtain ⟨a, b, rfl⟩ := List.append_of_mem hmem
  rw [spell_append, needsExpansion, Bool.or_eq_true]
  cases item with
  | text | dollar => cases hseen
  | backslash => exact .inr (hasEscapedData_backslash (spell a) (spell b))
  | ref name h => exact .inl (varCheckConst_ref (spell a) (name ++ 125 :: spell b) false)

theorem varCheckConst_of_no_brace (h : 123 ∉ s) (dol : Bool) : varCheckConst dol s = false := by
  induction s generalizing dol with
  | nil => rfl
  | cons c s ih =>
    simp [varCheckConst, ih (List.not_mem_of_not_mem_cons h), (List.ne_of_not_mem_cons h).symm]

theorem Item.plain_byte (h : ∀ d ∈ c :: s, d ∉ [36, 92, 123, 125]) :
    c ≠ 36 ∧ c ≠ 92 ∧ c ≠ 123 := by
  have hc := h c List.mem_cons_self
  simp only [List.mem_cons, not_or] at hc
  exact ⟨hc.1, hc.2.1, hc.2.2.1⟩

theorem Item.unmarked (h : ∀ d ∈ s, d ∉ [36, 92, 123, 125]) : Unmarked s := fun c hc =>
  ⟨fun heq => h c hc (by simp [heq]), fun heq => h c hc (by simp [heq])⟩

/-- Texts and escaped dollars: there is no brace, and a backslash has a dollar behind it. -/
theorem needsExpansion_of_not_seen (h : items.any Item.isSeen = false) :
    needsExpansion (spell items) = false := by
  have hboth : 123 ∉ spell items ∧ hasEscapedData (spell items) = false := by
    induction items using items_induction with
    | nil => exact ⟨List.not_mem_nil, rfl⟩
    | empty _ items ih => exact ih h
    | byte c s hbytes hs items ih =>
      obtain ⟨hbrace, hescaped⟩ := ih h
      obtain ⟨-, hslash, hopen⟩ := Item.plain_byte hbytes
      refine ⟨List.not_mem_cons_of_ne_of_not_mem hopen.symm hbrace, ?_⟩
      show hasEscapedData (c :: spell (.text s hs :: items)) = false
      simp [hasEscapedData, hslash, hescaped]
    | dollar items ih =>
      obtain ⟨hbrace, hescaped⟩ := ih h
      exact ⟨by simpa [spell] using hbrace, by simp [spell, hasEscapedData, hescaped]⟩
    | backslash | ref => cases h
  rw [needsExpansion, varCheckConst_of_no_brace hboth.1, hboth.2]
  rfl

/-! ## Items that are apart -/

section Meaning

variable {eval : Bool → Str → Nat → Option Str} {value : Str → Str}

theorem rounds_of_apart (heval : ∀ name h, .ref name h ∈ items → eval false name 0 = some (value name))
    (hapart : Apart items) : rounds eval (spell items) = some (meaning value items) := by
  induction items with
  | nil => rfl
  | cons item items ih =>
    have hrest := ih fun name h hmem => heval name h (List.mem_cons_of_mem _ hmem)
    cases item with
    | text s plain =>
      rw [spell, rounds_text eval (Item.unmarked plain), hrest hapart]
      rfl
    | dollar =>
      rw [spell, rounds_dollar eval hapart.1, hrest hapart.2]
      rfl
    | backslash =>
      rw [spell, rounds_backslash, hrest hapart]
      rfl
    | ref name h =>
      rw [spell, rounds_ref eval h.no_brace hapart.1, hrest hapart.2, heval name h List.mem_cons_self]
      rfl

/-! ## Items that are not

With no variables set, a brace is never meant; and a backslash that is copied too early cannot be made
up for later. -/

/-- The meaning where no variable is set. -/
def unsetMeaning (items : List Item) : Str := meaning (fun _ => []) items

theorem brace_notMem_unsetMeaning (items : List Item) : 123 ∉ unsetMeaning items := by
  induction items using items_induction with
  | nil => exact List.not_mem_nil
  | empty _ items ih => exact ih
  | byte c s h hs items ih => exact List.not_mem_cons_of_ne_of_not_mem (Item.plain_byte h).2.2.symm ih
  | dollar items ih => exact List.not_mem_cons_of_ne_of_not_mem (by decide) ih
  | backslash items ih => exact List.not_mem_cons_of_ne_of_not_mem (by decide) ih
  | ref name h items ih => exact ih

theorem brace_mem {o : Option Str} (h : (o.map (123 :: ·)).map (36 :: ·) = some s) : 123 ∈ s := by
  obtain ⟨t, ht, rfl⟩ := Option.map_eq_some_iff.mp h
  obtain ⟨u, hu, rfl⟩ := Option.map_eq_some_iff.mp ht
  exact List.mem_cons_of_mem _ List.mem_cons_self

/-- A dollar at the start is that of a reference. -/
theorem spell_head_dollar (h : (spell items).head? = some 36) : ∃ t, spell items = 36 :: 123 :: t := by
  induction items using items_induction with
  | nil => cases h
  | empty _ items ih => exact ih h
  | byte c s hbytes hs items ih => exact absurd (Option.some.inj h) (Item.plain_byte hbytes).1
  | dollar | backslash => exact absurd (Option.some.inj h) (by decide)
  | ref name hname items ih => exact ⟨_, rfl⟩

variable (hunset : ∀ name, Literal name → eval false name 0 = some [])
include hunset

theorem rounds_unset {name : Str} (h : Literal name) (hhead : (spell items).head? ≠ some 92) :
    rounds eval (spell (.ref name h :: items)) = rounds eval (spell items) := by
  rw [spell, rounds_ref eval h.no_brace hhead, hunset name h]
  exact Option.map_id'

theorem rounds_unset_slash {name : Str} (h : Literal name) (hs : spell items = 92 :: s) :
    rounds eval (spell (.ref name h :: items)) = (rounds eval s).map (92 :: ·) := by
  rw [spell, hs, rounds_ref_tail eval h.no_brace (by decide), hunset name h]
  rfl

/-- The rounds do not put a quote in front. -/
theorem rounds_ne_quote (items : List Item) :
    rounds eval (spell items) ≠ some (39 :: unsetMeaning items) := by
  intro hrounds
  induction items using items_induction with
  | nil => cases hrounds
  | empty _ items ih => exact ih hrounds
  | byte c s h hs items ih =>
    obtain ⟨hdollar, hslash, -⟩ := Item.plain_byte h
    have hround : rounds eval (spell (.text (c :: s) h :: items))
        = (rounds eval (spell (.text s hs :: items))).map (c :: ·) :=
      rounds_plain eval ⟨hdollar, hslash⟩ _
    obtain ⟨rfl, hrest⟩ := map_cons_eq_some.mp (hround.symm.trans hrounds)
    exact ih hrest
  | dollar items ih =>
    by_cases hhead : (spell items).head? = some 36
    · obtain ⟨t, ht⟩ := spell_head_dollar hhead
      rw [spell, ht, rounds_dollar_dollar] at hrounds
      exact absurd (map_cons_eq_some.mp hrounds).1 (by decide)
    · rw [spell, rounds_dollar eval hhead] at hrounds
      exact absurd (map_cons_eq_some.mp hrounds).1 (by decide)
  | backslash items ih =>
    rw [spell, rounds_backslash] at hrounds
    exact absurd (map_cons_eq_some.mp hrounds).1 (by decide)
  | ref name h items ih =>
    by_cases hhead : (spell items).head? = some 92
    · obtain ⟨s, hs⟩ := List.head?_eq_some_iff.mp hhead
      rw [rounds_unset_slash hunset h hs] at hrounds
      exact absurd (map_cons_eq_some.mp hrounds).1 (by decide)
    · rw [rounds_unset hunset h hhead] at hrounds
      exact ih hrounds

/-- A backslash in front makes a difference. -/
theorem rounds_slash_ne (items : List Item) :
    rounds eval (92 :: spell items) ≠ some (unsetMeaning items) := by
  intro hrounds
  induction items using items_induction with
  | nil => cases hrounds
  | empty _ items ih => exact ih hrounds
  | byte c s h hs items ih =>
    obtain ⟨hdollar, hslash, -⟩ := Item.plain_byte h
    by_cases hquote : c = 39
    · subst hquote
      exact rounds_ne_quote hunset (.text s hs :: items) ((rounds_quote eval _).symm.trans hrounds)
    · have hround : rounds eval (92 :: spell (.text (c :: s) h :: items))
          = (rounds eval (spell (.text (c :: s) h :: items))).map (92 :: ·) := by
        refine rounds_slash eval fun d hd => ?_
        obtain rfl : c = d := Option.some.inj hd
        exact ⟨hdollar, hquote, hslash⟩
      exact hslash (map_cons_eq_some.mp (hround.symm.trans hrounds)).1.symm
  | dollar items ih =>
    rw [spell, rounds_backslash] at hrounds
    exact absurd (map_cons_eq_some.mp hrounds).1 (by decide)
  | backslash items ih =>
    rw [spell, rounds_backslash] at hrounds
    exact ih (map_cons_eq_some.mp hrounds).2
  | ref name h items ih =>
    -- The dollar is escaped, and the brace stays.
    rw [spell, rounds_dollar eval (by simp), rounds_plain eval (by decide)] at hrounds
    exact brace_notMem_unsetMeaning items (brace_mem hrounds)

/-- What a backslash right behind a reference comes to. -/
theorem rounds_tail_ne (hs : spell items = 92 :: s) :
    (rounds eval s).map (92 :: ·) ≠ some (unsetMeaning items) := by
  intro hrounds
  induction items using items_induction with
  | nil => cases hs
  | empty _ items ih => exact ih hs hrounds
  | byte c t h ht items ih => exact (Item.plain_byte h).2.1 (List.cons.inj hs).1
  | dollar items ih => exact absurd (map_cons_eq_some.mp hrounds).1 (by decide)
  | backslash items ih =>
    obtain rfl : 92 :: spell items = s := (List.cons.inj hs).2
    exact rounds_slash_ne hunset items (map_cons_eq_some.mp hrounds).2
  | ref name h items ih => exact absurd (List.cons.inj hs).1 (by decide)

theorem apart_of_rounds (hrounds : rounds eval (spell items) = some (unsetMeaning items)) :
    Apart items := by
  induction items with
  | nil => trivial
  | cons item items ih =>
    cases item with
    | text s plain =>
      rw [spell, rounds_text eval (Item.unmarked plain)] at hrounds
      exact ih (map_append_eq_some.mp hrounds)
    | dollar =>
      by_cases hhead : (spell items).head? = some 36
      · obtain ⟨t, ht⟩ := spell_head_dollar hhead
        rw [spell, ht, rounds_dollar_dollar, rounds_plain eval (by decide)] at hrounds
        exact absurd (brace_mem hrounds) (brace_notMem_unsetMeaning (.dollar :: items))
      · rw [spell, rounds_dollar eval hhead] at hrounds
        exact ⟨hhead, ih (map_cons_eq_some.mp hrounds).2⟩
    | backslash =>
      rw [spell, rounds_backslash] at hrounds
      exact ih (map_cons_eq_some.mp hrounds).2
    | ref name h =>
      by_cases hhead : (spell items).head? = some 92
      · obtain ⟨s, hs⟩ := List.head?_eq_some_iff.mp hhead
        exact (rounds_tail_ne hunset hs ((rounds_unset_slash hunset h hs).symm.trans hrounds)).elim
      · rw [rounds_unset hunset h hhead] at hrounds
        exact ⟨hhead, ih hrounds⟩

end Meaning

/-! ## The meaning of a text -/

/-- With no variables set, everything but a text is longer than its meaning. -/
theorem length_unsetMeaning_le (items : List Item) :
    (unsetMeaning items).length + items.countP (fun item => !item.isText) ≤ (spell items).length := by
  induction items with
  | nil => exact le_rfl
  | cons item items ih =>
    cases item <;>
      simp only [unsetMeaning, meaning, spell, Item.isText, List.countP_cons, List.length_append,
        List.length_cons,
        List.length_nil, Bool.not_true, Bool.not_false, if_true, Bool.false_eq_true,
        if_false] at ih ⊢ <;>
      omega

theorem all_text_of_spell (h : spell items = unsetMeaning items) : items.all Item.isText := by
  have hlength := length_unsetMeaning_le items
  rw [h] at hlength
  have hnone : items.countP (fun item => !item.isText) = 0 := by omega
  simpa [List.countP_eq_zero] using hnone

theorem spell_of_all_text (h : items.all Item.isText) (value : Str → Str) :
    spell items = meaning value items ∧ Apart items := by
  induction items with
  | nil => exact ⟨rfl, trivial⟩
  | cons item items ih =>
    rw [List.all_cons, Bool.and_eq_true] at h
    obtain ⟨hspell, hapart⟩ := ih h.2
    cases item with
    | text s plain => exact ⟨congrArg (s ++ ·) hspell, hapart⟩
    | dollar | backslash | ref => cases h.1

theorem expand_of_not_seen (ex : Expander) (depth : Nat) (h : items.any Item.isSeen = false) :
    expand ex depth (spell items) = some (spell items) :=
  expand_of_plain ex depth (needsExpansion_of_not_seen h)

theorem expand_of_seen (ex : Expander) (depth : Nat) (h : items.any Item.isSeen) :
    expand ex (depth + 1) (spell items) = rounds (evalBraces ex (expand ex depth)) (spell items) := by
  rw [expand, if_pos (needsExpansion_of_seen h)]
  rfl

theorem not_seen_of_all_text (h : items.all Item.isText) : items.any Item.isSeen = false := by
  rw [List.any_eq_false]
  intro item hmem
  have htext := List.all_eq_true.mp h item hmem
  cases item with
  | text => exact Bool.false_ne_true
  | dollar | backslash | ref => cases htext

/-- A channel without a variable. -/
def unset : Variables := ⟨[], none⟩

theorem shownText_unset (name : Str) : shownText bare none unset name = [] := by
  have hnone : switchChannelGetVariableDup bare unset name (-1) = none := by
    simp [switchChannelGetVariableDup, variableIdx, unset, surroundingValue, bare, switchEventGetHeader,
      switchEventGetHeaderIdx,
      switchEventGetHeaderPtr, blankEvent]
    intro _
    exact ite_self _
  rw [shownText, shownVariable, hnone]
  rfl

/-- The expansion of a text made of items, at every depth, is what the items mean, whatever the
variables and the list of permissions are, exactly if the items are composable; from a depth of 101 on,
if they are nothing but text. -/
theorem expand_items_iff (api : Api Variables) (items : List Item) (recur : Nat) :
    (∀ env list store, (∀ name h, .ref name h ∈ items → Unmarked (shownText env list store name)) →
      switchChannelExpandVariablesCheck env list api store (spell items) recur
        = some (meaning (shownText env list store) items))
    ↔ if recur ≤ 100 then Composable items else items.all Item.isText := by
  constructor
  · intro hmeans
    have hunset :=
      hmeans bare none unset
        fun name _ _ => by rw [shownText_unset]; exact fun c hc => absurd hc List.not_mem_nil
    rw [show shownText bare none unset = fun _ => [] from funext shownText_unset] at hunset
    unfold switchChannelExpandVariablesCheck at hunset
    cases hseen : items.any Item.isSeen with
    | false =>
      rw [expand_of_not_seen _ _ hseen] at hunset
      have htext := all_text_of_spell (Option.some.inj hunset)
      split
      · exact ⟨.inl htext, (spell_of_all_text htext fun _ => []).2⟩
      · exact htext
    | true =>
      split
      · rw [show 101 - recur = (100 - recur) + 1 by omega, expand_of_seen _ _ hseen] at hunset
        refine ⟨.inr hseen, apart_of_rounds (fun name hname => ?_) hunset⟩
        rw [evalBraces_channel hname
          (by rw [shownText_unset]; exact fun c hc => absurd hc List.not_mem_nil), shownText_unset]
      · rw [show 101 - recur = 0 by omega] at hunset
        exact all_text_of_spell (Option.some.inj hunset)
  · intro hitems env list store hvalues
    unfold switchChannelExpandVariablesCheck
    have hall : items.all Item.isText →
        expand (channelExpander env list api store) (101 - recur) (spell items)
        = some (meaning (shownText env list store) items) := fun htext => by
      rw [expand_of_not_seen _ _ (not_seen_of_all_text htext), (spell_of_all_text htext _).1]
    split at hitems
    · obtain ⟨htext | hseen, hapart⟩ := hitems
      · exact hall htext
      · rw [show 101 - recur = (100 - recur) + 1 by omega, expand_of_seen _ _ hseen]
        exact rounds_of_apart (fun name h hmem => evalBraces_channel h (hvalues name h hmem) _) hapart
    · exact hall hitems

/-- `a` is 1, and the dollar behind it keeps its backslash. -/
theorem dollar_behind_value :
    switchChannelExpandVariablesCheck bare none noApi ⟨[],
      some (oneHeader 0 (bytes "a") (bytes "1") [])⟩
        (spell [.ref (bytes "a") (by decide +kernel), .dollar]) 0 = some (bytes "1\\$")
      ∧ meaning (shownText bare none ⟨[], some (oneHeader 0 (bytes "a") (bytes "1") [])⟩)
        [.ref (bytes "a") (by decide +kernel), .dollar]
        = bytes "1$" := by
  decide +kernel

end FreeSwitch.Expand
