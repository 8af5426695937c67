import FreeSwitch.Lib.CString

/-!
# Schedule expressions — `switch_number_cmp`, `switch_dow_cmp`

An expression is a list of values and ranges, with commas between them. `switch_number_cmp` reads its
numbers with `strtol` and keeps them as `int`; `switch_dow_cmp` reads token by token, digits or names of
days, and remembers where a range began.

* **`Denotes`** — the values that a list stands for.
* **`numberLoop_eq`**, **`dowLoop_eq`** — each loop decides it, if the single values are read right.
* **`schedule_iff`** — what each function decides of a list and a value. A number is compared as an
  `int`, so that the answer is right if the numbers up to the first match are at most `INT_MAX`;
  **`number_cut`** — one that is not.
-/

namespace FreeSwitch.Schedule

open CString

/-! ## The functions -/

/-- `range_start <= cur ? (val >= range_start && val <= cur) : (val >= range_start || val <= cur)`. -/
def InRange (a b val : Int) : Prop := if a ≤ b then a ≤ val ∧ val ≤ b else a ≤ val ∨ val ≤ b

instance (a b val : Int) : Decidable (InRange a b val) := by
  unfold InRange
  infer_instance

/-- The loop of `switch_number_cmp`: a number or a range, and what is behind the comma. -/
def numberLoop (val : Int) : Nat → Str → Option Bool
  | 0, _ => none
  | fuel + 1, exp =>
    let next := fun exp : Str => match exp with
      | 44 :: exp => numberLoop val fuel exp
      | _ => some false
    match strtolEnd exp with
    | 45 :: exp' =>
      if InRange (atoi exp) (atoi exp') val then some true else next (strtolEnd exp')
    | exp' => if atoi exp = val then some true else next exp'

def switchNumberCmp (fuel : Nat) (exp : Str) (val : Int) : Option Bool := numberLoop val fuel exp

/-- `DOW`. -/
def dow : List Str :=
  [bytes "sun", bytes "mon", bytes "tue", bytes "wed", bytes "thu", bytes "fri", bytes "sat"]

/-- `switch_dow_str2int`: 1 for Sunday, -1 for no day. -/
def switchDowStr2int (exp : Str) : Int :=
  match dow.findIdx? fun name => decide (ciEq name (exp.take 3)) with
  | some x => x + 1
  | none => -1

def dowErr : Int := -2
def dowEof : Int := -1
def dowHyphen : Int := 45
def dowComa : Int := 44

/-- The token at `s`, and where the next one starts. -/
def dowReadToken (s : Str) : Int × Str :=
  match s with
  | [] => (dowEof, [])
  | c :: rest =>
    if c = 45 then (dowHyphen, rest)
    else if c = 44 then (dowComa, rest)
    else if 49 ≤ c ∧ c ≤ 55 then (c.toNat - 48, rest)
    else if switchDowStr2int s ≠ 0 ∧ switchDowStr2int s ≠ -1 then (switchDowStr2int s, s.drop 3)
    else (dowErr, s)

/-- The loop of `switch_dow_cmp` over the tokens, with the one before and the start of a range. -/
def dowLoop (val : Int) : Nat → Str → Int → Int → Option Bool
  | 0, _, _, _ => none
  | fuel + 1, p, prev, rangeStart =>
    let cur := (dowReadToken p).1
    let p := (dowReadToken p).2
    if cur = dowEof then some false
    else if cur = dowComa then dowLoop val fuel p dowEof rangeStart
    else if cur = dowHyphen then dowLoop val fuel p cur prev
    else if cur = dowErr then some false
    else if rangeStart ≠ dowEof then
      if InRange rangeStart cur val then some true else dowLoop val fuel p cur dowEof
    else if val = cur then some true
    else dowLoop val fuel p cur rangeStart

def switchDowCmp (fuel : Nat) (exp : Str) (val : Int) : Option Bool :=
  dowLoop val fuel exp dowEof dowEof

/-! ## Lists of values and ranges -/

/-- An element of a list: one value, or all from one to another. -/
inductive Item (α : Type) where
  | value (a : α)
  | range (a b : α)

section

variable {α : Type} (write : α → Str) (v : α → Int)

namespace Item

/-- The values that are written in an item. -/
def parts : Item α → List α
  | value a => [a]
  | range a b => [a, b]

def text : Item α → Str
  | value a => write a
  | range a b => write a ++ 45 :: write b

/-- The values that the item stands for. -/
def Denotes (val : Int) : Item α → Prop
  | value a => v a = val
  | range a b => InRange (v a) (v b) val

instance (val : Int) : (item : Item α) → Decidable (item.Denotes v val)
  | value a => inferInstanceAs (Decidable (v a = val))
  | range a b => inferInstanceAs (Decidable (InRange (v a) (v b) val))

end Item

def listText (l : List (Item α)) : Str := joinPair [44] (l.map (Item.text write))

def Denotes (val : Int) (l : List (Item α)) : Prop := ∃ item ∈ l, item.Denotes v val

instance (val : Int) (l : List (Item α)) : Decidable (Denotes v val l) :=
  inferInstanceAs (Decidable (∃ item ∈ l, item.Denotes v val))

theorem listText_cons (item item' : Item α) (l : List (Item α)) :
    listText write (item :: item' :: l) = item.text write ++ 44 :: listText write (item' :: l) := by
  rw [listText, List.map_cons, joinPair_cons (by simp), List.append_assoc]
  rfl

variable {v}

/-- A loop that goes through the items one by one decides what the list stands for. -/
theorem loop_eq {loop : Nat → Str → Option Bool} {val : Int} {l : List (Item α)} {k : Nat}
    (hitem : ∀ item ∈ l, ∀ fuel tail, (tail = [] ∨ ∃ exp, tail = 44 :: exp) → ∃ fuel', fuel ≤ fuel' ∧
      loop (fuel + k) (item.text write ++ tail) =
        if item.Denotes v val then some true else if tail = [] then
          some false else loop fuel' tail.tail)
    (hne : l ≠ []) :
    ∀ fuel, l.length * k ≤ fuel → loop fuel (listText write l) = some (decide (Denotes v val l)) := by
  induction l with
  | nil => exact absurd rfl hne
  | cons item l ih =>
    intro fuel hfuel
    rw [List.length_cons, Nat.succ_mul] at hfuel
    obtain ⟨fuel, rfl⟩ := Nat.exists_eq_add_of_le' (Nat.le_of_add_left_le hfuel)
    cases l with
    | nil =>
      obtain ⟨_, _, hstep⟩ := hitem item List.mem_cons_self fuel [] (.inl rfl)
      rw [List.append_nil, if_pos rfl] at hstep
      rw [show listText write [item] = item.text write from rfl, hstep]
      simp only [Denotes, List.mem_singleton, exists_eq_left]
      split <;> simp_all
    | cons item' l =>
      obtain ⟨fuel', hle, hstep⟩ :=
        hitem item List.mem_cons_self fuel _ (.inr ⟨listText write (item' :: l), rfl⟩)
      rw [listText_cons, hstep, if_neg (List.cons_ne_nil _ _), List.tail_cons,
        ih (fun item hmem => hitem item (List.mem_cons_of_mem _ hmem))
          (List.cons_ne_nil _ _) fuel' (by omega)]
      simp only [Denotes, List.mem_cons (a := _) (b := item), exists_eq_or_imp]
      split <;> simp_all

end

/-! ## Numbers -/

/-- A number: digits, and at least one. -/
structure Number where
  digits : Str
  ne : digits ≠ []
  all : ∀ c ∈ digits, isDigit c

def Number.value (n : Number) : Nat := CString.digits 0 n.digits

/-- What is left of the number in an `int`. -/
def Number.kept (n : Number) : Int := (min (n.value : Int) (2 ^ 63 - 1)).bmod (2 ^ 32)

theorem Number.atoi_digits (n : Number) : atoi n.digits = n.kept := by
  rw [atoi, strtol_of_isDigit n.all]
  rfl

theorem Number.kept_of_lt {n : Number} (h : n.value < 2 ^ 31) : n.kept = n.value := by
  have hmin : min (n.value : Int) (2 ^ 63 - 1) = n.value := by omega
  rw [kept, hmin, Int.bmod_eq_of_le (by omega) (by omega)]

/-- An item whose first bytes are read as numbers. -/
theorem numberLoop_eq {α : Type} {write : α → Str} {v : α → Int} {l : List (Item α)} (hne : l ≠ [])
    (hwrite : ∀ a, write a ≠ [] ∧ ∀ c ∈ write a, isDigit c)
    (hv : ∀ item ∈ l, ∀ a ∈ item.parts, atoi (write a) = v a) (val : Int) : ∀ fuel, l.length ≤ fuel →
    switchNumberCmp fuel (listText write l) val = some (decide (Denotes v val l)) := by
  have hread : ∀ (a : α) {rest : Str}, (∀ c, rest.head? = some c → isDigit c = false) →
      atoi (write a ++ rest) = atoi (write a) ∧ strtolEnd (write a ++ rest) = rest := by
    intro a rest hrest
    obtain ⟨hne, hall⟩ := hwrite a
    rw [atoi, strtol_append hall hne hrest, atoi, strtol_of_isDigit hall]
    exact ⟨rfl, strtolEnd_append hall hne hrest⟩
  intro fuel hfuel
  refine loop_eq (k := 1) write (fun item hitem fuel tail htail => ?_) hne fuel (by omega)
  refine ⟨fuel, le_rfl, ?_⟩
  have hstop : ∀ c, tail.head? = some c → isDigit c = false := by
    rintro c hc
    obtain rfl | ⟨exp, rfl⟩ := htail
    · cases hc
    · rw [← Option.some.inj hc]
      rfl
  cases item with
  | value a =>
    obtain ⟨hatoi, hend⟩ := hread a hstop
    rw [Item.text, numberLoop, hend, hatoi, hv _ hitem a (by simp [Item.parts])]
    obtain rfl | ⟨exp, rfl⟩ := htail <;> rfl
  | range a b =>
    obtain ⟨hatoi, hend⟩ := @hread a (45 :: (write b ++ tail)) fun c hc => by
      rw [← Option.some.inj hc]
      rfl
    obtain ⟨hatoi', hend'⟩ := hread b hstop
    rw [Item.text, List.append_assoc, List.cons_append, numberLoop, hend]
    show (if InRange (atoi _) (atoi _) val then _ else _) = _
    rw [hatoi, hatoi', hend', hv _ hitem a (by simp [Item.parts]), hv _ hitem b (by simp [Item.parts])]
    obtain rfl | ⟨exp, rfl⟩ := htail <;> rfl

/-- The items up to the first one that stands for the value. -/
def upToMatch (val : Int) (l : List (Item Number)) : List (Item Number) :=
  l.take (l.findIdx (fun item => decide (item.Denotes (fun n : Number => (n.value : Int)) val)) + 1)

theorem Item.denotes_kept {val : Int} {item : Item Number} (h : ∀ n ∈ item.parts, n.value < 2 ^ 31) :
    item.Denotes Number.kept val ↔ item.Denotes (fun n => (n.value : Int)) val := by
  cases item with
  | value a =>
    have ha := Number.kept_of_lt (h a (by simp [parts]))
    simp only [Denotes, ha]
  | range a b =>
    have ha := Number.kept_of_lt (h a (by simp [parts]))
    have hb := Number.kept_of_lt (h b (by simp [parts]))
    simp only [Denotes, ha, hb]

/-- Numbers behind the first match do not matter. -/
theorem denotes_kept {val : Int} {l : List (Item Number)}
    (h : ∀ item ∈ upToMatch val l, ∀ n ∈ item.parts, n.value < 2 ^ 31) :
    Denotes Number.kept val l ↔ Denotes (fun n => (n.value : Int)) val l := by
  have hfound : Denotes (fun n : Number => (n.value : Int)) val l →
      ∃ item ∈ upToMatch val l, item.Denotes (fun n : Number => (n.value : Int)) val := by
    rintro ⟨item, hitem, hval⟩
    have hlt := List.findIdx_lt_length_of_exists
      (p := fun item => decide (item.Denotes (fun n : Number => (n.value : Int)) val))
      ⟨item, hitem, decide_eq_true hval⟩
    refine ⟨_, List.mem_take_iff_getElem.mpr ⟨_, by omega, rfl⟩,
      of_decide_eq_true (List.findIdx_getElem (w := hlt))⟩
  constructor
  · rintro ⟨item, hitem, hval⟩
    by_contra hnone
    -- without a match, all of the list is read
    have hall : upToMatch val l = l := by
      rw [upToMatch, List.findIdx_eq_length.mpr fun item hitem => decide_eq_false fun hval =>
        hnone ⟨item, hitem, hval⟩]
      exact List.take_of_length_le (Nat.le_succ _)
    exact hnone ⟨item, hitem, (Item.denotes_kept (h item (hall.symm ▸ hitem))).mp hval⟩
  · intro hdenotes
    obtain ⟨item, hitem, hval⟩ := hfound hdenotes
    exact ⟨item, List.mem_of_mem_take hitem, (Item.denotes_kept (h item hitem)).mpr hval⟩

/-! ## Days -/

/-- A day of the week, from 1 on, as a digit or by its name in any letter case. -/
structure Day where
  value : Fin 7
  text : Str
  written : text = [49 + UInt8.ofNat value] ∨ ciEq (dow.getD value []) text

/-- The number of a day, from 1 on. -/
def Day.number (d : Day) : Int := (d.value.val : Int) + 1

theorem dowReadToken_day (d : Day) (rest : Str) : dowReadToken (d.text ++ rest) = (d.number, rest) := by
  obtain ⟨value, text, rfl | hname⟩ := d
  · fin_cases value <;> rfl
  · have hlength : text.length = 3 := by
      have hsame := congrArg List.length hname
      simp only [lower, List.length_map] at hsame
      rw [← hsame]
      fin_cases value <;> rfl
    obtain ⟨a, b, c, rfl⟩ := List.length_eq_three.mp hlength
    have hfind : switchDowStr2int ([a, b, c] ++ rest) = (value.val : Int) + 1 := by
      have hsame : (fun name => decide (ciEq name (([a, b, c] ++ rest).take 3))) = fun name =>
          decide (ciEq name (dow.getD value [])) := by
        funext name
        exact decide_eq_decide.mpr ⟨fun h => h.trans hname.symm, fun h => h.trans hname⟩
      rw [switchDowStr2int, hsame]
      fin_cases value <;> rfl
    -- the first letter is none of the other tokens
    have ha : a ≠ 45 ∧ a ≠ 44 ∧ ¬ (49 ≤ a ∧ a ≤ 55) := by
      have hfirst : 97 ≤ toLower a := by
        have hhead := congrArg (List.headD · 0) hname
        rw [show toLower a = (lower [a, b, c]).headD 0 from rfl, ← hhead]
        fin_cases value <;> decide
      unfold toLower at hfirst
      grind
    show (if a = 45 then _ else if a = 44 then _ else if _ then _ else
      if switchDowStr2int ([a, b, c] ++ rest) ≠ 0 ∧ switchDowStr2int ([a, b, c] ++ rest) ≠ -1 then
        (switchDowStr2int ([a, b, c] ++ rest), rest) else _) = _
    rw [if_neg ha.1, if_neg ha.2.1, if_neg ha.2.2, hfind, if_pos ⟨by omega, by omega⟩]
    rfl

theorem dowLoop_day {val cur : Int} {p rest : Str} (hread : dowReadToken p = (cur, rest))
    (hlow : 1 ≤ cur) (hhigh : cur ≤ 7)
    (fuel : Nat) (prev rangeStart : Int) : dowLoop val (fuel + 1) p prev rangeStart =
      if rangeStart ≠ dowEof then if InRange rangeStart cur val then
        some true else dowLoop val fuel rest cur dowEof
      else if val = cur then some true else dowLoop val fuel rest cur rangeStart := by
  rw [dowLoop, hread]
  dsimp only
  rw [if_neg (by unfold dowEof; omega), if_neg (by unfold dowComa; omega),
    if_neg (by unfold dowHyphen; omega),
    if_neg (by unfold dowErr; omega)]

theorem dowLoop_eq {α : Type} {write : α → Str} {v : α → Int} {l : List (Item α)} (hne : l ≠ [])
    (hread : ∀ a rest, dowReadToken (write a ++ rest) = (v a, rest))
    (hv : ∀ a, 1 ≤ v a ∧ v a ≤ 7) (val : Int) :
    ∀ fuel, l.length * 4 + 1 ≤ fuel →
      switchDowCmp fuel (listText write l) val = some (decide (Denotes v val l)) := by
  -- behind an item comes the end or a comma, and then nothing is remembered
  have htail : ∀ {tail : Str}, (tail = [] ∨ ∃ exp, tail = 44 :: exp) → ∀ fuel prev,
      dowLoop val (fuel + 2) tail prev dowEof = if tail = [] then some false
        else dowLoop val (fuel + 1) tail.tail dowEof dowEof := by
    rintro tail (rfl | ⟨exp, rfl⟩) fuel prev <;> rfl
  intro fuel hfuel
  obtain ⟨fuel, rfl⟩ := Nat.exists_eq_add_of_le' (Nat.le_of_add_left_le hfuel)
  refine @loop_eq α write v (fun fuel exp => dowLoop val (fuel + 1) exp dowEof dowEof) val l 4
    (fun item _ fuel tail h => ?_) hne fuel (by omega)
  cases item with
  | value a =>
    refine ⟨fuel + 2, Nat.le_add_right _ _, ?_⟩
    show dowLoop val (fuel + 4 + 1) (write a ++ tail) dowEof dowEof = _
    rw [dowLoop_day (hread a tail) (hv a).1 (hv a).2, if_neg (not_not.mpr rfl), htail h]
    exact if_congr eq_comm rfl rfl
  | range a b =>
    refine ⟨fuel, le_rfl, ?_⟩
    have hstart : v a ≠ dowEof := by
      have := (hv a).1
      unfold dowEof
      omega
    have hhyphen : ∀ rest, dowLoop val (fuel + 4) (45 :: rest) (v a) dowEof =
        dowLoop val (fuel + 3) rest dowHyphen (v a) :=
      fun _ => rfl
    show dowLoop val (fuel + 4 + 1) (write a ++ 45 :: write b ++ tail) dowEof dowEof = _
    rw [List.append_assoc, dowLoop_day (hread a _) (hv a).1 (hv a).2, if_neg (not_not.mpr rfl),
      List.cons_append, hhyphen,
      dowLoop_day (hread b tail) (hv b).1 (hv b).2, if_pos hstart, htail h]
    by_cases hval : val = v a
    · -- the first day of a range belongs to it
      have hfirst : InRange (v a) (v b) val := by
        unfold InRange
        split <;> omega
      rw [if_pos hval]
      exact (if_pos hfirst).symm
    · rw [if_neg hval]
      rfl

/-! ## Both -/

/-- A value below 8 as a digit. -/
def digit (d : Fin 7) : Str := [49 + UInt8.ofNat d]

/-- **What the functions decide.** -/
theorem schedule_iff (val : Int) :
    (∀ l : List (Item Number), l ≠ [] → -2 ^ 31 ≤ val → val < 2 ^ 31 →
        ((∃ enough, ∀ fuel, enough ≤ fuel → switchNumberCmp fuel (listText Number.digits l) val =
            some (decide (Denotes (fun n => (n.value : Int)) val l)))
          ↔ (Denotes Number.kept val l ↔ Denotes (fun n => (n.value : Int)) val l))
        ∧ ((∀ item ∈ upToMatch val l, ∀ n ∈ item.parts, n.value < 2 ^ 31) →
          (Denotes Number.kept val l ↔ Denotes (fun n => (n.value : Int)) val l)))
      ∧ (∀ l : List (Item Day), l ≠ [] → -2 ^ 31 ≤ val → val < 2 ^ 31 →
        ∃ enough, ∀ fuel, enough ≤ fuel →
          switchDowCmp fuel (listText Day.text l) val = some (decide (Denotes Day.number val l)))
      ∧ ∀ l : List (Item (Fin 7)), l ≠ [] → 1 ≤ val → val ≤ 7 →
        ∃ enough result, ∀ fuel, enough ≤ fuel →
          switchNumberCmp fuel (listText digit l) val = some result ∧
          switchDowCmp fuel (listText digit l) val = some result := by
  have hdigit : ∀ d rest, dowReadToken (digit d ++ rest) = ((d.val : Int) + 1, rest) := fun d rest =>
    dowReadToken_day ⟨d, digit d, .inl rfl⟩ rest
  refine ⟨fun l hne _ _ => ⟨?_, denotes_kept⟩,
    fun l hne _ _ => ⟨l.length * 4 + 1, dowLoop_eq hne dowReadToken_day (fun d => ?_) val⟩,
    fun l hne _ _ => ⟨l.length * 4 + 1, decide (Denotes (fun d : Fin 7 => (d.val : Int) + 1) val l),
      fun fuel hfuel => ⟨?_, ?_⟩⟩⟩
  · have hcmp := numberLoop_eq hne (fun n => ⟨n.ne, n.all⟩) (fun _ _ n _ => n.atoi_digits) val
    constructor
    · rintro ⟨enough, heq⟩
      have hsame := (hcmp _ (le_max_right enough _)).symm.trans (heq _ (le_max_left enough l.length))
      exact decide_eq_decide.mp (Option.some.inj hsame)
    · intro hsame
      refine ⟨l.length, fun fuel hfuel => ?_⟩
      rw [hcmp fuel hfuel, decide_eq_decide.mpr hsame]
  · have := d.value.isLt
    unfold Day.number
    omega
  · exact numberLoop_eq hne
      (fun d => ⟨List.cons_ne_nil _ _, List.forall_mem_singleton.mpr (by fin_cases d <;> decide)⟩)
      (fun _ _ d _ => by fin_cases d <;> decide) val fuel (by omega)
  · exact dowLoop_eq hne hdigit (fun d => by omega) val fuel hfuel

/-- A number that does not fit: `4294967301` is taken for 5. -/
theorem number_cut : ∃ l : List (Item Number), listText Number.digits l = bytes "4294967301" ∧
    switchNumberCmp 1 (listText Number.digits l) 5 = some true ∧
    ¬ Denotes (fun n => (n.value : Int)) 5 l :=
  ⟨[.value ⟨bytes "4294967301", by decide, List.all_eq_true.mp (by decide)⟩], by decide +kernel,
    by decide +kernel, by decide +kernel⟩

end FreeSwitch.Schedule
