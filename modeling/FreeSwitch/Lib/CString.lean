import Mathlib.Data.Nat.Digits.Lemmas
import Mathlib.Tactic

/-!
# C strings

A string is the list of its bytes up to the terminating zero. The functions of the C library
that the modelled code calls, in the C locale.

* **`splitPair`** — the pieces between the occurrences of a separator of two bytes.
* **`joinPair`** — the pieces with the separator between them.
-/

namespace CString

abbrev Str := List UInt8

/-- The bytes of a literal. -/
def bytes (s : String) : Str := s.toList.map fun c => UInt8.ofNat c.toNat

/-! ## Letter case -/

def toLower (c : UInt8) : UInt8 := if 65 ≤ c ∧ c ≤ 90 then c + 32 else c

def lower (s : Str) : Str := s.map toLower

/-- `!strcasecmp(s, t)`. -/
def ciEq (s t : Str) : Prop := lower s = lower t

instance (s t : Str) : Decidable (ciEq s t) := inferInstanceAs (Decidable (lower s = lower t))

theorem ciEq.symm {s t : Str} (h : ciEq s t) : ciEq t s := Eq.symm h

theorem ciEq.trans {s t u : Str} (h : ciEq s t) (h' : ciEq t u) : ciEq s u := Eq.trans h h'

/-! ## Numbers -/

/-- `isspace`. -/
def isSpace (c : UInt8) : Bool := c == 32 || (9 ≤ c && c ≤ 13)

def isDigit (c : UInt8) : Bool := 48 ≤ c && c ≤ 57

/-- The number written by the leading digits of `s`, after `acc`. -/
def digits : Nat → Str → Nat
  | acc, [] => acc
  | acc, c :: s => if isDigit c then digits (acc * 10 + (c.toNat - 48)) s else acc

/-- `strtol` in base ten: saturates at the bounds of a 64-bit `long`. -/
def strtol (s : Str) : Int :=
  match s.dropWhile isSpace with
  | 45 :: s => max (-(digits 0 s : Int)) (-2 ^ 63)
  | 43 :: s => min (digits 0 s : Int) (2 ^ 63 - 1)
  | s => min (digits 0 s : Int) (2 ^ 63 - 1)

/-- Where `strtol` stops: behind the digits, or where it started if there are none. -/
def strtolEnd (s : Str) : Str :=
  let t := match s.dropWhile isSpace with
    | 45 :: t => t
    | 43 :: t => t
    | t => t
  if t.head?.any isDigit then t.dropWhile isDigit else s

/-- `(int) strtol(s)`. -/
def atoi (s : Str) : Int := (strtol s).bmod (2 ^ 32)

/-- `(int)` of a `size_t`. -/
def intOfSize (n : Nat) : Int := (n : Int).bmod (2 ^ 32)

theorem intOfSize_of_lt {n : Nat} (h : n < 2 ^ 31) : intOfSize n = n := by
  unfold intOfSize
  rw [Int.bmod_eq_of_le] <;> omega

theorem le_intOfSize (n : Nat) : -2 ^ 31 ≤ intOfSize n := Int.le_bmod (by decide)

theorem intOfSize_lt (n : Nat) : intOfSize n < 2 ^ 31 := Int.bmod_lt (by decide)

/-- `%u`. -/
def printNat (n : Nat) : Str :=
  if n = 0 then [48] else (Nat.digits 10 n).reverse.map fun d => UInt8.ofNat (48 + d)

/-- `%d`. -/
def printInt (z : Int) : Str := if z < 0 then 45 :: printNat z.natAbs else printNat z.natAbs

theorem printNat_ne_nil (n : Nat) : printNat n ≠ [] := by
  unfold printNat
  split
  · exact List.cons_ne_nil _ _
  · next hn => simpa [Nat.digits_ne_nil_iff_ne_zero] using hn

theorem isDigit_of_mem_printNat {n : Nat} {c : UInt8} (h : c ∈ printNat n) : isDigit c := by
  unfold printNat at h
  split at h
  · rw [List.mem_singleton.mp h]
    decide
  · obtain ⟨d, hd, rfl⟩ := List.mem_map.mp h
    have hlt : d < 10 := Nat.digits_lt_base (by omega) (List.mem_reverse.mp hd)
    interval_cases d <;> decide

theorem length_printNat_le_iff {n k : Nat} (hk : 0 < k) : (printNat n).length ≤ k ↔ n < 10 ^ k := by
  unfold printNat
  split
  · rename_i h
    simp only [List.length_singleton, h]
    exact ⟨fun _ => by positivity, fun _ => hk⟩
  · rw [List.length_map, List.length_reverse, Nat.digits_length_le_iff (by omega)]

theorem printNat_inj {n m : Nat} (hn : n ≠ 0) (hm : m ≠ 0) : printNat n = printNat m ↔ n = m := by
  refine ⟨fun h => ?_, fun h => by rw [h]⟩
  rw [printNat, printNat, if_neg hn, if_neg hm] at h
  have hread : ∀ k, ((Nat.digits 10 k).reverse.map fun d => UInt8.ofNat (48 + d)).map
      (fun c => c.toNat - 48) = (Nat.digits 10 k).reverse := by
    intro k
    rw [List.map_map]
    refine (List.map_congr_left fun d hd => ?_).trans (List.map_id _)
    have hlt : d < 10 := Nat.digits_lt_base (by omega) (List.mem_reverse.mp hd)
    simp only [Function.comp, UInt8.toNat_ofNat', id]
    omega
  have hdigits := congrArg (List.map fun c : UInt8 => c.toNat - 48) h
  rw [hread, hread] at hdigits
  exact Nat.digits_inj_iff.mp (List.reverse_injective hdigits)

theorem printInt_natCast (n : Nat) : printInt n = printNat n := by
  rw [printInt, if_neg (by omega), Int.natAbs_natCast]

theorem digits_printed (ds : List Nat) (acc : Nat) (h : ∀ d ∈ ds, d < 10) :
    digits acc (ds.map fun d => UInt8.ofNat (48 + d)) = ds.foldl (fun n d => n * 10 + d) acc := by
  induction ds generalizing acc with
  | nil => rfl
  | cons d ds ih =>
    have hd := h d List.mem_cons_self
    have hbyte : isDigit (UInt8.ofNat (48 + d)) = true ∧ (UInt8.ofNat (48 + d)).toNat - 48 = d := by
      interval_cases d <;> decide
    rw [List.map_cons, digits, if_pos hbyte.1, hbyte.2, List.foldl_cons]
    exact ih _ fun e he => h e (List.mem_cons_of_mem d he)

theorem digits_printNat (n : Nat) : digits 0 (printNat n) = n := by
  unfold printNat
  split
  · rename_i h
    rw [h]
    rfl
  · rw [digits_printed _ _ fun d hd => Nat.digits_lt_base (by omega) (List.mem_reverse.mp hd),
      List.foldl_reverse]
    have hfold := Nat.ofDigits_eq_foldr (α := Nat) 10 (Nat.digits 10 n)
    rw [Nat.ofDigits_digits] at hfold
    refine Eq.trans ?_ hfold.symm
    congr 1
    funext d m
    rw [Nat.cast_id]
    ring

theorem isDigit_plain {c : UInt8} (h : isDigit c) : isSpace c = false ∧ c ≠ 45 ∧ c ≠ 43 := by
  unfold isDigit at h
  unfold isSpace
  grind

theorem digits_append {d rest : Str} (hd : ∀ c ∈ d, isDigit c)
    (hrest : ∀ c, rest.head? = some c → isDigit c = false) :
    ∀ acc, digits acc (d ++ rest) = digits acc d := by
  induction d with
  | nil =>
    intro acc
    cases rest with
    | nil => rfl
    | cons c rest => exact if_neg (by rw [hrest c rfl]; decide)
  | cons c d ih =>
    intro acc
    have hc := hd c List.mem_cons_self
    rw [List.cons_append, digits, digits, if_pos hc, if_pos hc,
      ih fun c hmem => hd c (List.mem_cons_of_mem _ hmem)]

/-- Digits are read as the number they write, up to the largest, whatever comes behind them. -/
theorem strtol_append {d rest : Str} (hd : ∀ c ∈ d, isDigit c) (hne : d ≠ [])
    (hrest : ∀ c, rest.head? = some c → isDigit c = false) :
    strtol (d ++ rest) = min (digits 0 d : Int) (2 ^ 63 - 1) := by
  rw [← digits_append hd hrest]
  obtain ⟨c, d, rfl⟩ := List.exists_cons_of_ne_nil hne
  obtain ⟨hspace, hminus, hplus⟩ := isDigit_plain (hd c List.mem_cons_self)
  rw [strtol, List.cons_append, List.dropWhile_cons_of_neg (by rw [hspace]; decide)]
  split
  · next heq => exact absurd (List.cons.inj heq).1 hminus
  · next heq => exact absurd (List.cons.inj heq).1 hplus
  · rfl

theorem strtolEnd_append {d rest : Str} (hd : ∀ c ∈ d, isDigit c) (hne : d ≠ [])
    (hrest : ∀ c, rest.head? = some c → isDigit c = false) : strtolEnd (d ++ rest) = rest := by
  have hdrop : (d ++ rest).dropWhile isDigit = rest := by
    rw [List.dropWhile_append_of_pos hd]
    cases rest with
    | nil => rfl
    | cons c rest => rw [List.dropWhile_cons_of_neg (by rw [hrest c rfl]; decide)]
  obtain ⟨c, d, rfl⟩ := List.exists_cons_of_ne_nil hne
  have hc := hd c List.mem_cons_self
  obtain ⟨hspace, hminus, hplus⟩ := isDigit_plain hc
  rw [List.cons_append] at hdrop ⊢
  rw [strtolEnd, List.dropWhile_cons_of_neg (by rw [hspace]; decide)]
  split
  · next heq => exact absurd (List.cons.inj heq).1 hminus
  · next heq => exact absurd (List.cons.inj heq).1 hplus
  · rw [if_pos (by simpa using hc), hdrop]

theorem strtol_of_isDigit {s : Str} (h : ∀ c ∈ s, isDigit c) :
    strtol s = min (digits 0 s : Int) (2 ^ 63 - 1) := by
  cases s with
  | nil => rfl
  | cons c s => simpa using @strtol_append (c :: s) [] h (List.cons_ne_nil c s) nofun

theorem strtol_printInt {z : Int} (hlow : -2 ^ 63 ≤ z) (hhigh : z < 2 ^ 63) :
    strtol (printInt z) = z := by
  unfold printInt
  split
  · show max (-(digits 0 (printNat z.natAbs) : Int)) (-2 ^ 63) = z
    rw [digits_printNat]
    omega
  · rw [strtol_of_isDigit fun c hc => isDigit_of_mem_printNat hc, digits_printNat]
    omega

/-! ## Separators of two bytes -/

/-- The pieces of `s` between the occurrences of the separator `a b`, found from the left by
`strstr`. -/
def splitPair (a b : UInt8) : Str → List Str
  | [] => [[]]
  | [c] => [[c]]
  | c :: d :: s =>
    if c = a ∧ d = b then [] :: splitPair a b s
    else
      match splitPair a b (d :: s) with
      | [] => [[c]]
      | piece :: pieces => (c :: piece) :: pieces

/-- The pieces one behind the other, with `sep` between two of them. -/
def joinPair (sep : Str) : List Str → Str
  | [] => []
  | [piece] => piece
  | piece :: pieces => piece ++ sep ++ joinPair sep pieces

theorem length_le_of_mem_splitPair {a b : UInt8} :
    ∀ {s piece : Str}, piece ∈ splitPair a b s → piece.length ≤ s.length := by
  intro s
  induction s using splitPair.induct a b with
  | case1 => intro piece h; simp [splitPair] at h; simp [h]
  | case2 c => intro piece h; simp [splitPair] at h; simp [h]
  | case3 c d s hsep ih =>
    intro piece h
    rw [splitPair, if_pos hsep, List.mem_cons] at h
    rcases h with rfl | h
    · simp
    · have hpiece := ih h
      simp only [List.length_cons]
      omega
  | case4 c d s hsep hnil ih =>
    intro piece h
    rw [splitPair, if_neg hsep, hnil] at h
    simp at h
    simp [h]
  | case5 c d s hsep p ps hsplit ih =>
    intro piece h
    rw [splitPair, if_neg hsep, hsplit, List.mem_cons] at h
    rcases h with rfl | h
    · have hp : p.length ≤ (d :: s).length := ih (by rw [hsplit]; exact List.mem_cons_self)
      simp only [List.length_cons] at hp ⊢
      omega
    · have hpiece : piece.length ≤ (d :: s).length :=
        ih (by rw [hsplit]; exact List.mem_cons_of_mem _ h)
      simp only [List.length_cons] at hpiece ⊢
      omega

theorem joinPair_cons {sep p : Str} {ps : List Str} (h : ps ≠ []) :
    joinPair sep (p :: ps) = p ++ sep ++ joinPair sep ps := by
  cases ps with
  | nil => exact absurd rfl h
  | cons q qs => rfl

/-- The pieces of a text make up the text. -/
theorem joinPair_splitPair (a b : UInt8) (s : Str) : joinPair [a, b] (splitPair a b s) = s := by
  have hne : ∀ s, splitPair a b s ≠ [] := by
    intro s
    fun_cases splitPair a b s <;> simp
  fun_induction splitPair a b s with
  | case1 => rfl
  | case2 c => rfl
  | case3 c d s hsep ih =>
    obtain ⟨rfl, rfl⟩ := hsep
    rw [joinPair_cons (hne s), ih]
    rfl
  | case4 c d s hsep hnil ih => exact absurd hnil (hne _)
  | case5 c d s hsep p ps hsplit ih =>
    rw [hsplit] at ih
    cases ps with
    | nil => exact congrArg (c :: ·) ih
    | cons q qs => exact congrArg (c :: ·) ih

/-- With one separator more, each piece has one of its own. -/
theorem length_joinPair (sep : Str) {ps : List Str} (hne : ps ≠ []) :
    (joinPair sep ps).length + sep.length = (ps.map fun p => sep.length + p.length).sum := by
  induction ps with
  | nil => exact absurd rfl hne
  | cons p ps ih =>
    cases ps with
    | nil => exact Nat.add_comm p.length sep.length
    | cons q qs =>
      have hrest := ih (List.cons_ne_nil q qs)
      rw [joinPair_cons (List.cons_ne_nil q qs), List.map_cons, List.sum_cons, ← hrest]
      simp only [List.length_append]
      omega

theorem length_joinPair_append (sep : Str) {ps : List Str} (hne : ps ≠ []) (qs : List Str) :
    (joinPair sep (ps ++ qs)).length
      = (joinPair sep ps).length + (qs.map fun q => sep.length + q.length).sum := by
  have hall := length_joinPair sep (List.append_ne_nil_of_left_ne_nil hne qs)
  rw [List.map_append, List.sum_append, ← length_joinPair sep hne] at hall
  omega

/-- Changing one piece changes the joined string. -/
theorem joinPair_set_inj {sep : Str} : ∀ {pieces : List Str} {i : Nat} {x : Str}, i < pieces.length →
      (joinPair sep (pieces.set i x) = joinPair sep pieces ↔ pieces[i]? = some x) := by
  intro pieces
  induction pieces with
  | nil => intro i x hi; simp at hi
  | cons p ps ih =>
    intro i x hi
    cases i with
    | zero =>
      cases ps with
      | nil => simp [joinPair, eq_comm]
      | cons q qs => simp [joinPair, eq_comm]
    | succ i =>
      cases ps with
      | nil => simp at hi
      | cons q qs =>
        have hrest : joinPair sep ((q :: qs).set i x) = joinPair sep (q :: qs)
            ↔ (q :: qs)[i]? = some x := ih (by simpa using hi)
        have hne : (q :: qs).set i x ≠ [] := by simp
        rw [List.set_cons_succ, joinPair_cons hne, joinPair_cons (by simp), List.append_right_inj,
          hrest, List.getElem?_cons_succ]

/-! ## Searching -/

/-- The text from the first `c` on. -/
def strchr (c : UInt8) (s : Str) : Option Str :=
  if c ∈ s then some (s.dropWhile (· ≠ c)) else none

/-- The text from the first occurrence of `t`, which is not empty, on. -/
def strstr (t : Str) : Str → Option Str
  | [] => none
  | c :: s => if t <+: c :: s then some (c :: s) else strstr t s

theorem takeWhile_append_stop {p : UInt8 → Bool} {a b : Str} (ha : ∀ x ∈ a, p x = true)
    (hb : ∀ x, b.head? = some x → p x = false) : (a ++ b).takeWhile p = a := by
  rw [List.takeWhile_append_of_pos ha]
  cases b with
  | nil => rw [List.takeWhile_nil, List.append_nil]
  | cons c b => rw [List.takeWhile_cons_of_neg (by rw [hb c rfl]; decide), List.append_nil]

theorem dropWhile_append_stop {p : UInt8 → Bool} {a b : Str} (ha : ∀ x ∈ a, p x = true)
    (hb : ∀ x, b.head? = some x → p x = false) : (a ++ b).dropWhile p = b := by
  rw [List.dropWhile_append_of_pos ha]
  cases b with
  | nil => rfl
  | cons c b => rw [List.dropWhile_cons_of_neg (by rw [hb c rfl]; decide)]

theorem strchr_append {c : UInt8} {a : Str} (ha : c ∉ a) (b : Str) :
    strchr c (a ++ c :: b) = some (c :: b) := by
  rw [strchr, if_pos (List.mem_append_right a List.mem_cons_self), dropWhile_append_stop]
  · intro x hx
    exact decide_eq_true fun h => ha (h ▸ hx)
  · intro x hx
    rw [← Option.some.inj hx]
    exact decide_eq_false (by simp)

theorem strchr_eq_some {c : UInt8} {s t : Str} (h : strchr c s = some t) :
    ∃ a rest, s = a ++ c :: rest ∧ c ∉ a ∧ t = c :: rest := by
  have hmem : c ∈ s := by
    by_contra hno
    rw [strchr, if_neg hno] at h
    cases h
  obtain ⟨a, rest, rfl, ha⟩ := List.eq_append_cons_of_mem hmem
  rw [strchr_append ha] at h
  exact ⟨a, rest, rfl, ha, (Option.some.inj h).symm⟩

end CString
