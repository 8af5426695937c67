import FreeSwitch.Lib.CString

/-!
# Numbers in English — `src/mod/say/mod_say_en/mod_say_en.c`

`en_say_general_count` takes a number of at most nine digits apart into its decimal places and plays the
prompts of three groups, each with its scale behind it.

* **`enSayGeneralCount`** — the files that are played.
* **`denotes`** — what they say in English.
* **`pronounced_denotes`** — the files of a number say that number.
* **`counted_ordinal_iff`** — when the last file of a counted number is an ordinal.
-/

namespace FreeSwitch.Say

open CString

/-! ## The prompts -/

inductive Method where
  | na | pronounced | iterated | counted | pronouncedYear
  deriving DecidableEq

/-- `switch_strip_commas`: at most `len` digits, `none` for `NULL`. -/
def switchStripCommas (s : Str) (len : Nat) : Option Str :=
  if (s.all fun c => isDigit c || c == 44) && decide ((s.filter isDigit).length ≤ len) then
    some (s.filter isDigit) else none

/-- `digits/%d` -/
def digitsFile (s : Str) : Str := bytes "digits/" ++ s

/-- `digits/h-%d` -/
def ordinalFile (s : Str) : Str := bytes "digits/h-" ++ s

def playHundreds (a : Nat) : List Str :=
  if a = 0 then [] else [digitsFile (printNat a), bytes "digits/hundred"]

def playTens (method : Method) (b c : Nat) : List Str :=
  if b = 0 then []
  else if 1 < b then
    if c = 0 ∧ method = .counted then
      [ordinalFile (printNat b ++ [48])] else [digitsFile (printNat b ++ [48])]
  else [digitsFile (printNat b ++ printNat c)]

def playOnes (method : Method) (c : Nat) : List Str :=
  if c = 0 then [] else if method = .counted then
    [ordinalFile (printNat c)] else [digitsFile (printNat c)]

/-- Where the tens are one, they are said with the last digit, which is cleared. -/
def playGroup (method : Method) (a b c : Nat) (what : Option Str) : List Str :=
  let last := if b = 1 then 0 else c
  playHundreds a ++ playTens method b c ++ playOnes method last ++
    if a ≠ 0 ∨ b ≠ 0 ∨ last ≠ 0 then what.toList else []

/-- The loop over the places, from `10 ^ (x - 1)` down. -/
def places : Nat → Nat → List Nat
  | 0, _ => []
  | x + 1, n => n / 10 ^ x :: places x (n - n / 10 ^ x * 10 ^ x)

def playPlaces (method : Method) : List Nat → List Str
  | [p8, p7, p6, p5, p4, p3, p2, p1, p0] =>
    playGroup .pronounced p8 p7 p6 (some (bytes "digits/million")) ++
      playGroup .pronounced p5 p4 p3 (some (bytes "digits/thousand")) ++ playGroup method p2 p1 p0 none
  | _ => []

/-- `atoi` of the digits, `none` for a parse error. -/
def parseCount (tosay : Str) : Option Nat :=
  (switchStripCommas tosay 127).bind fun s => if 9 < s.length then none else some (atoi s).toNat

def sayCount (method : Method) (tosay : Str) : Option (List Str) :=
  (parseCount tosay).map fun n =>
    if n = 0 then [digitsFile [48]]
    else if method = .counted ∨ method = .pronounced then playPlaces method (places 9 n) else []

/-- A year is said as two numbers, unless it is a hundred or the first part ends in zero. -/
def sayYear (tosay : Str) : Option (List Str) :=
  (parseCount tosay).bind fun n =>
    if n = 0 then some [digitsFile [48]]
    else if n % 100 = 0 ∨ n / 100 % 10 = 0 then sayCount .pronounced (printNat n)
    else (sayCount .pronounced (printNat (n / 100))).bind fun first =>
      (sayCount .pronounced (printNat (n % 100))).map fun second => first ++ second

def enSayGeneralCount (tosay : Str) (method : Method) : Option (List Str) :=
  match method with
  | .iterated => (switchStripCommas tosay 127).map fun s => s.map fun c => digitsFile [c]
  | .pronouncedYear => sayYear tosay
  | method => sayCount method tosay

/-! ## What they say -/

inductive Word where
  | number (k : Nat)
  | hundred
  | thousand
  | million
  deriving DecidableEq

/-- A file as a word of a cardinal number. -/
def word (file : Str) : Option Word :=
  if file.take 7 = bytes "digits/" then
    let s := file.drop 7
    if s ≠ [] ∧ s.all isDigit then some (.number (digits 0 s))
    else if s = bytes "hundred" then some .hundred
    else if s = bytes "thousand" then some .thousand
    else if s = bytes "million" then some .million
    else none
  else none

/-- The groups that are complete, and the one that is being said. -/
def hear : Nat × Nat → Word → Nat × Nat
  | (total, group), .number k => (total, group + k)
  | (total, group), .hundred => (total, group * 100)
  | (total, group), .thousand => (total + group * 1000, 0)
  | (total, group), .million => (total + group * 1000000, 0)

def hearFrom : Nat × Nat → List Str → Option (Nat × Nat)
  | heard, [] => some heard
  | heard, file :: files => (word file).bind fun w => hearFrom (hear heard w) files

/-- The number that is said. -/
def denotes (files : List Str) : Option Nat :=
  (hearFrom (0, 0) files).map fun heard => heard.1 + heard.2

theorem hearFrom_append (files files' : List Str) (heard : Nat × Nat) :
    hearFrom heard (files ++ files') = (hearFrom heard files).bind fun heard =>
      hearFrom heard files' := by
  induction files generalizing heard with
  | nil => rfl
  | cons file files ih =>
    rw [List.cons_append, hearFrom, hearFrom]
    cases word file with
    | none => rfl
    | some w => exact ih (hear heard w)

/-! ## Files -/

theorem word_digitsFile {s : Str} (hne : s ≠ []) (hall : ∀ c ∈ s, isDigit c = true) :
    word (digitsFile s) = some (.number (digits 0 s)) := by
  have hlength : (bytes "digits/").length = 7 := by decide
  unfold word digitsFile
  rw [← hlength, List.take_left, List.drop_left, if_pos rfl, if_pos ⟨hne, List.all_eq_true.mpr hall⟩]

theorem digits_append_isDigit {s : Str} (hall : ∀ c ∈ s, isDigit c = true) (t : Str) :
    ∀ acc, digits acc (s ++ t) = digits (digits acc s) t := by
  induction s with
  | nil => exact fun acc => rfl
  | cons c s ih =>
    intro acc
    have hc := hall c List.mem_cons_self
    rw [List.cons_append, digits, if_pos hc, digits, if_pos hc]
    exact ih (fun d hd => hall d (List.mem_cons_of_mem _ hd)) _

theorem word_printNat (n : Nat) : word (digitsFile (printNat n)) = some (.number n) := by
  rw [word_digitsFile (printNat_ne_nil n) fun c hc => isDigit_of_mem_printNat hc, digits_printNat]

/-- `digits/%d0` -/
theorem word_tens (b : Nat) : word (digitsFile (printNat b ++ [48])) = some (.number (b * 10)) := by
  rw [word_digitsFile (List.append_ne_nil_of_left_ne_nil (printNat_ne_nil b) _) ?_,
    digits_append_isDigit (fun c hc => isDigit_of_mem_printNat hc), digits_printNat]
  · rfl
  · intro c hc
    rcases List.mem_append.mp hc with hc | hc
    · exact isDigit_of_mem_printNat hc
    · rw [List.mem_singleton.mp hc]
      decide

/-- `digits/%d%d` with a one in front. -/
theorem word_teens {c : Nat} (hc : c < 10) :
    word (digitsFile (printNat 1 ++ printNat c)) = some (.number (10 + c)) := by
  rw [word_digitsFile (List.append_ne_nil_of_left_ne_nil (printNat_ne_nil 1) _) ?_,
    digits_append_isDigit (fun c hc => isDigit_of_mem_printNat hc), digits_printNat]
  · congr 2
    interval_cases c <;> simp [printNat, digits, isDigit]
  · intro d hd
    rcases List.mem_append.mp hd with hd | hd <;> exact isDigit_of_mem_printNat hd

/-! ## Groups -/

section

variable {a b c : Nat} (t g : Nat)

theorem hear_hundreds (a : Nat) : hearFrom (t, 0) (playHundreds a) = some (t, a * 100) := by
  have hword : word (bytes "digits/hundred") = some .hundred := by decide
  unfold playHundreds
  split
  · next ha =>
    rw [ha]
    rfl
  · simp [hearFrom, word_printNat, hword, hear]

theorem hear_tens (hc : c < 10) :
    hearFrom (t, g) (playTens .pronounced b c) = some (t, g + b * 10 + if b = 1 then c else 0) := by
  unfold playTens
  by_cases hb : b = 0
  · simp [hb, hearFrom]
  · rw [if_neg hb]
    by_cases hone : b = 1
    · simp [hone, hearFrom, word_teens hc, hear, Nat.add_assoc]
    · have hlt : 1 < b := by omega
      simp [hone, hlt, hearFrom, word_tens, hear]

theorem hear_ones (c : Nat) : hearFrom (t, g) (playOnes .pronounced c) = some (t, g + c) := by
  unfold playOnes
  by_cases hc : c = 0
  · simp [hc, hearFrom]
  · simp [hc, hearFrom, word_printNat, hear]

theorem hear_group (hc : c < 10) (what : Option Str) :
    hearFrom (t, 0) (playGroup .pronounced a b c what) =
    hearFrom (t, a * 100 + b * 10 + c) (if a * 100 + b * 10 + c = 0 then [] else what.toList) := by
  have hlast : (if b = 1 then c else 0) + (if b = 1 then 0 else c) = c := by split <;> omega
  have hzero : (a ≠ 0 ∨ b ≠ 0 ∨ (if b = 1 then 0 else c) ≠ 0) ↔ ¬ a * 100 + b * 10 + c = 0 := by
    split <;> omega
  unfold playGroup
  simp only [hearFrom_append, hear_hundreds, hear_tens t _ hc, hear_ones, Option.bind_some,
    Nat.add_assoc, hlast, hzero, ite_not]

/-- A group with the file of its scale. -/
theorem hear_scaled (hc : c < 10) {file : Str} {k : Nat}
    (hk : ∀ t g, hearFrom (t, g) [file] = some (t + g * k, 0)) :
    hearFrom (t, 0) (playGroup .pronounced a b c (some file)) =
      some (t + (a * 100 + b * 10 + c) * k, 0) := by
  rw [hear_group t hc]
  split
  · next h =>
    rw [h, Nat.zero_mul]
    rfl
  · exact hk _ _

end

/-! ## Places -/

/-- The places are digits, and make up the number. -/
theorem places_spec (x : Nat) : ∀ n, n < 10 ^ x → (places x n).length = x ∧ (∀ p ∈ places x n, p < 10) ∧
    ∀ acc, (places x n).foldl (fun acc p => acc * 10 + p) acc = acc * 10 ^ x + n := by
  induction x with
  | zero =>
    intro n hn
    refine ⟨rfl, List.forall_mem_nil _, fun acc => ?_⟩
    simp only [pow_zero, Nat.lt_one_iff] at hn
    simp [places, hn]
  | succ x ih =>
    intro n hn
    have hpos : 0 < 10 ^ x := Nat.pow_pos (by decide)
    have hhead : n / 10 ^ x < 10 := by
      rw [pow_succ'] at hn
      exact Nat.div_lt_of_lt_mul (by rw [Nat.mul_comm]; exact hn)
    have hrest : n - n / 10 ^ x * 10 ^ x = n % 10 ^ x := by
      rw [Nat.mod_eq_sub_div_mul]
    obtain ⟨hlength, hlt, hvalue⟩ := ih (n % 10 ^ x) (Nat.mod_lt n hpos)
    rw [places, hrest]
    refine ⟨by rw [List.length_cons, hlength], List.forall_mem_cons.mpr ⟨hhead, hlt⟩, fun acc => ?_⟩
    rw [List.foldl_cons, hvalue]
    calc (acc * 10 + n / 10 ^ x) * 10 ^ x + n % 10 ^ x = acc * 10 ^ (x + 1) +
      (n / 10 ^ x * 10 ^ x + n % 10 ^ x) := by ring
      _ = acc * 10 ^ (x + 1) + n := by rw [Nat.div_add_mod']

theorem places_nine (n : Nat) :
    ∃ p8 p7 p6 p5 p4 p3 p2 p1 p0, places 9 n = [p8, p7, p6, p5, p4, p3, p2, p1, p0] :=
  ⟨_, _, _, _, _, _, _, _, _, rfl⟩

theorem parseCount_printNat {n : Nat} (hn : n ≤ 999999999) : parseCount (printNat n) = some n := by
  have hlength : (printNat n).length ≤ 9 := (length_printNat_le_iff (by decide)).mpr (by omega)
  have hdigit : ∀ c ∈ printNat n, isDigit c = true := fun c hc => isDigit_of_mem_printNat hc
  have hfilter : (printNat n).filter isDigit = printNat n := List.filter_eq_self.mpr hdigit
  have hstrip : switchStripCommas (printNat n) 127 = some (printNat n) := by
    unfold switchStripCommas
    rw [hfilter, if_pos]
    rw [Bool.and_eq_true, decide_eq_true_eq, List.all_eq_true]
    exact ⟨fun c hc => by rw [hdigit c hc, Bool.true_or], by omega⟩
  have hvalue : atoi (printNat n) = n := by
    rw [atoi, strtol_of_isDigit hdigit, digits_printNat, min_eq_left (by omega),
      Int.bmod_eq_of_le (by omega) (by omega)]
  rw [parseCount, hstrip, Option.bind_some, if_neg (by omega), hvalue, Int.toNat_natCast]

/-- A number is played by its nine places. -/
theorem sayCount_places {n : Nat} (hne : n ≠ 0) (hn : n ≤ 999999999) : ∃ p8 p7 p6 p5 p4 p3 p2 p1 p0,
    (∀ p ∈ [p8, p7, p6, p5, p4, p3, p2, p1, p0], p < 10) ∧
      n = p8 * 100000000 + p7 * 10000000 + p6 * 1000000 + p5 * 100000 + p4 * 10000 + p3 * 1000 +
        p2 * 100 + p1 * 10 + p0 ∧
      ∀ method, method = .counted ∨ method = .pronounced →
        sayCount method (printNat n) =
          some (playPlaces method [p8, p7, p6, p5, p4, p3, p2, p1, p0]) := by
  obtain ⟨p8, p7, p6, p5, p4, p3, p2, p1, p0, hplaces⟩ := places_nine n
  obtain ⟨-, hlt, hvalue⟩ := places_spec 9 n (by omega)
  have hvalue := hvalue 0
  rw [hplaces] at hlt hvalue
  simp only [List.foldl_cons, List.foldl_nil] at hvalue
  refine ⟨p8, p7, p6, p5, p4, p3, p2, p1, p0, hlt, by omega, ?_⟩
  intro method hmethod
  rw [sayCount, parseCount_printNat hn, Option.map_some, if_neg hne, if_pos hmethod, hplaces]

/-! ## Cardinals -/

theorem pronounced_hears {n : Nat} (hn : n ≤ 999999999) :
    ∃ files, enSayGeneralCount (printNat n) .pronounced = some files ∧ denotes files = some n := by
  by_cases hzero : n = 0
  · rw [hzero]
    exact ⟨_, rfl, by decide⟩
  · obtain ⟨p8, p7, p6, p5, p4, p3, p2, p1, p0, hlt, hvalue, hsay⟩ := sayCount_places hzero hn
    refine ⟨_, hsay .pronounced (.inr rfl), ?_⟩
    simp only [List.forall_mem_cons] at hlt
    have hmillion : ∀ t g, hearFrom (t, g) [bytes "digits/million"] = some (t + g * 1000000, 0) := by
      intro t g
      rw [hearFrom, show word (bytes "digits/million") = some .million by decide]
      rfl
    have hthousand : ∀ t g, hearFrom (t, g) [bytes "digits/thousand"] = some (t + g * 1000, 0) := by
      intro t g
      rw [hearFrom, show word (bytes "digits/thousand") = some .thousand by decide]
      rfl
    rw [denotes, playPlaces, hearFrom_append, hearFrom_append, hear_scaled 0 (by omega) hmillion,
      Option.bind_some,
      hear_scaled _ (by omega) hthousand, Option.bind_some, hear_group _ (by omega)]
    have hnone : ∀ P : Prop, [Decidable P] → (if P then [] else (none : Option Str).toList) = [] :=
      fun P _ => ite_self []
    rw [hnone, hearFrom, Option.map_some]
    congr 1
    dsimp only
    omega

/-- The files of a number say that number, and those of another number are others. -/
theorem pronounced_denotes (n : Nat) (hn : n ≤ 999999999) :
    (∃ files, enSayGeneralCount (printNat n) .pronounced = some files ∧ denotes files = some n) ∧
      ∀ m ≤ 999999999, enSayGeneralCount (printNat m) .pronounced =
        enSayGeneralCount (printNat n) .pronounced → m = n := by
  obtain ⟨files, hfiles, hsay⟩ := pronounced_hears hn
  refine ⟨⟨files, hfiles, hsay⟩, ?_⟩
  intro m hm hsame
  obtain ⟨files', hfiles', hsay'⟩ := pronounced_hears hm
  rw [hfiles, hfiles'] at hsame
  rw [Option.some.inj hsame, hsay] at hsay'
  exact (Option.some.inj hsay').symm

/-- Two hundred and seventeen thousand. -/
theorem pronounced_217000 :
    ∃ files, enSayGeneralCount (printNat 217000) .pronounced = some files ∧
      denotes files = some 217000 :=
  (pronounced_denotes 217000 (by decide)).1

/-! ## Ordinals -/

/-- The same files up to the last one, which is the ordinal of the other. -/
def EndsOrdinal (counted cardinal : List Str) : Prop :=
  ∃ pre s, counted = pre ++ [ordinalFile s] ∧ cardinal = pre ++ [digitsFile s]

theorem EndsOrdinal.append {counted cardinal : List Str} (h : EndsOrdinal counted cardinal)
    (files : List Str) :
    EndsOrdinal (files ++ counted) (files ++ cardinal) := by
  obtain ⟨pre, s, rfl, rfl⟩ := h
  exact ⟨files ++ pre, s, (List.append_assoc _ _ _).symm, (List.append_assoc _ _ _).symm⟩

theorem digitsFile_ne_ordinalFile {s t : Str} (h : ∀ c ∈ s, isDigit c = true) :
    digitsFile s ≠ ordinalFile t := by
  intro heq
  have hsplit : ordinalFile t = bytes "digits/" ++ 104 :: 45 :: t := by
    rw [ordinalFile, show bytes "digits/h-" = bytes "digits/" ++ [104, 45] by decide, List.append_assoc]
    rfl
  rw [digitsFile, hsplit] at heq
  exact absurd (h 104 (List.append_cancel_left heq ▸ List.mem_cons_self)) (by decide)

theorem group_endsOrdinal {a b c : Nat} (hb : b ≠ 1) (hne : ¬ (b = 0 ∧ c = 0)) :
    EndsOrdinal (playGroup .counted a b c none) (playGroup .pronounced a b c none) := by
  unfold playGroup
  simp only [if_neg hb, Option.toList_none, ite_self, List.append_nil]
  by_cases hc : c = 0
  · -- the tens are the last file
    have hlt : 1 < b := by omega
    refine ⟨playHundreds a, printNat b ++ [48], ?_, ?_⟩ <;> simp [playTens, playOnes, hc, hlt,
      show b ≠ 0 by omega]
  · have htens : playTens .counted b c = playTens .pronounced b c := by simp [playTens, hc]
    refine ⟨playHundreds a ++ playTens .pronounced b c, printNat c, ?_,
      ?_⟩ <;> simp [playOnes, hc, htens]

/-- A teen is said as in a cardinal. -/
theorem group_teen (a c : Nat) (method : Method) :
    playGroup method a 1 c none = playHundreds a ++ [digitsFile (printNat 1 ++ printNat c)] := by
  simp [playGroup, playTens, playOnes]

/-- A number that is counted ends with an ordinal unless it ends with a teen. -/
theorem counted_ordinal_iff (n : Nat) (hlow : 1 ≤ n) (hhigh : n ≤ 999999999) (hhundred : n % 100 ≠ 0) :
    (∃ counted cardinal, enSayGeneralCount (printNat n) .counted = some counted ∧
      enSayGeneralCount (printNat n) .pronounced = some cardinal ∧ EndsOrdinal counted cardinal) ↔
        n / 10 % 10 ≠ 1 := by
  obtain ⟨p8, p7, p6, p5, p4, p3, p2, p1, p0, hlt, hvalue, hsay⟩ := sayCount_places (by omega) hhigh
  simp only [List.forall_mem_cons] at hlt
  have hp1 : n / 10 % 10 = p1 := by omega
  have hcounted : enSayGeneralCount (printNat n) .counted = _ := hsay .counted (.inl rfl)
  have hcardinal : enSayGeneralCount (printNat n) .pronounced = _ := hsay .pronounced (.inr rfl)
  rw [hcounted, hcardinal, hp1]
  constructor
  · rintro ⟨counted, cardinal, hsame, -, pre, s, hpre, -⟩ hone
    -- the file of the teen would be that of an ordinal
    rw [← Option.some.inj hsame, playPlaces, hone, group_teen, ← List.append_assoc] at hpre
    have hlast := (List.append_inj' hpre rfl).2
    refine digitsFile_ne_ordinalFile ?_ (List.singleton_inj.mp hlast)
    intro c hc
    rcases List.mem_append.mp hc with hc | hc <;> exact isDigit_of_mem_printNat hc
  · intro hone
    refine ⟨_, _, rfl, rfl, ?_⟩
    exact (group_endsOrdinal hone (by omega)).append _

/-- The twenty-first. -/
theorem counted_ordinal_21 :
    ∃ counted cardinal, enSayGeneralCount (printNat 21) .counted = some counted ∧
    enSayGeneralCount (printNat 21) .pronounced = some cardinal ∧ EndsOrdinal counted cardinal :=
  (counted_ordinal_iff 21 (by decide) (by decide) (by decide)).mpr (by decide)

/-- Eleven is the same file, counted or not: there is no ordinal at its end. -/
theorem counted_eleven : enSayGeneralCount (bytes "11") .counted = some [bytes "digits/11"]
    ∧ ¬∃ counted cardinal, enSayGeneralCount (bytes "11") .counted = some counted ∧
      enSayGeneralCount (bytes "11") .pronounced = some cardinal ∧ EndsOrdinal counted cardinal := by
  have heleven : enSayGeneralCount (bytes "11") .counted = some [bytes "digits/11"] := by decide +kernel
  refine ⟨heleven, ?_⟩
  rintro ⟨counted, cardinal, hcounted, -, pre, s, hpre, -⟩
  rw [heleven, Option.some_inj] at hcounted
  have hlast := congrArg List.getLast? (hcounted.trans hpre)
  rw [List.getLast?_concat] at hlast
  exact digitsFile_ne_ordinalFile (List.all_eq_true.mp (by decide)) (Option.some.inj hlast)

end FreeSwitch.Say
