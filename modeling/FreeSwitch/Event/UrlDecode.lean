import FreeSwitch.Event.UrlEncode

/-!
# URL decoding — `switch_url_decode`, `src/switch_utils.c`

* **`switchUrlDecode_units`** — what is written byte by byte, in the clear or with a percent sign, is
  read back.
* **`urlEncode_idempotent`** — an encoding has nothing to encode.
* **`url_laws_iff`** — when the output for a buffer is the encoding of a part of the input;
  **`url_cut`** — a buffer that ends inside of an encoding that was copied.
-/

namespace FreeSwitch.Event

open CString

/-! ## The code -/

def hexValue (c : UInt8) : Option Nat :=
  if isDigit c then some (c.toNat - 48)
  else if 97 ≤ c ∧ c ≤ 102 then some (c.toNat - 87)
  else if 65 ≤ c ∧ c ≤ 70 then some (c.toNat - 55)
  else none

/-- `sscanf(s, "%2x", &tmp)`: blanks are skipped, and a sign or a `0x` counts as a digit. -/
def scanHex2 (s : Str) : Option Nat :=
  match s.dropWhile isSpace with
  | [] => none
  | c :: s =>
    if c = 45 then (s.head?.bind hexValue).map (2 ^ 32 - ·)
    else if c = 43 then s.head?.bind hexValue
    else
      (hexValue c).map fun v =>
        match s with
        | d :: _ => if c = 48 ∧ (d = 120 ∨ d = 88) then 0 else ((hexValue d).map (16 * v + ·)).getD v
        | [] => v

def switchUrlDecode : Str → Str
  | 37 :: a :: b :: s =>
    match scanHex2 (a :: b :: s) with
    | some tmp => UInt8.ofNat tmp :: switchUrlDecode s
    | none => 37 :: switchUrlDecode (a :: b :: s)
  | c :: s => c :: switchUrlDecode s
  | [] => []

/-! ## Reading back -/

theorem hexDigit_facts :
    ∀ v < 16, hexValue (hexDigits.getD v 0) = some v ∧ isSpace (hexDigits.getD v 0) = false
    ∧ hexDigits.getD v 0 ≠ 45 ∧ hexDigits.getD v 0 ≠ 43 ∧ hexDigits.getD v 0 ≠ 120
    ∧ hexDigits.getD v 0 ≠ 88 := by
  decide +kernel

theorem switchUrlDecode_percent (c : UInt8) (s : Str) :
    switchUrlDecode (percent c ++ s) = c :: switchUrlDecode s := by
  have hc := c.toNat_lt
  obtain ⟨hhigh, hspace, hminus, hplus, -, -⟩ := hexDigit_facts (c.toNat / 16) (by omega)
  obtain ⟨hlow, -, -, -, hx, hX⟩ := hexDigit_facts (c.toNat % 16) (by omega)
  have hscan : scanHex2 (hexDigits.getD (c.toNat / 16) 0 :: hexDigits.getD (c.toNat % 16) 0 :: s)
      = some c.toNat := by
    rw [scanHex2, List.dropWhile_cons_of_neg (by rw [hspace]; decide)]
    simp only [if_neg hminus, if_neg hplus, hhigh, Option.map_some, hx, hX, or_self, and_false,
      if_false, hlow,
      Option.getD_some, Option.some.injEq]
    omega
  show (match scanHex2 (hexDigits.getD (c.toNat / 16) 0 :: hexDigits.getD (c.toNat % 16) 0 :: s) with
    | some tmp => UInt8.ofNat tmp :: switchUrlDecode s
    | none => _) = _
  rw [hscan]
  simp

variable {c : UInt8}

theorem switchUrlDecode_cons (hc : c ≠ 37) (s : Str) :
    switchUrlDecode (c :: s) = c :: switchUrlDecode s := by
  rw [switchUrlDecode]
  intro a b s' h
  exact absurd h hc

/-- Bytes that are each written in the clear or with a percent sign. -/
theorem switchUrlDecode_units {unit : UInt8 → Str}
    (hunit : ∀ c, unit c = percent c ∨ unit c = [c] ∧ c ≠ 37)
    (s rest : Str) : switchUrlDecode (s.flatMap unit ++ rest) = s ++ switchUrlDecode rest := by
  induction s with
  | nil => rfl
  | cons c s ih =>
    rw [List.flatMap_cons, List.append_assoc]
    rcases hunit c with hpercent | ⟨hclear, hne⟩
    · rw [hpercent, switchUrlDecode_percent, ih]
      rfl
    · rw [hclear, List.singleton_append, switchUrlDecode_cons hne, ih]
      rfl

/-! ## Encoding -/

/-- The bytes that are never encoded. -/
def harmless (c : UInt8) : Bool := 32 ≤ c && c ≤ 126 && !urlUnsafe.contains c

def isHex (c : UInt8) : Bool := hexDigits.contains c

theorem copied_percent (a b : UInt8) (s : Str) :
    copied false 37 (a :: b :: s) = (isHex a && isHex b) := by
  have hunsafe : harmless 37 = false := by decide
  exact (congrArg (_ || ·) hunsafe).trans (Bool.or_false _)

theorem copied_short {s : Str} (h : s.length < 2) : copied false 37 s = false := by
  match s, h with
  | [], _ => decide
  | [a], _ => rfl

theorem copied_of_ne (hc : c ≠ 37) (s : Str) : copied false c s = harmless c := by
  have hne : (c == 37) = false := by simpa using hc
  simp [copied, hne, harmless]

theorem harmless_of_isHex (h : isHex c = true) : harmless c = true ∧ c ≠ 37 := by
  have hall : ∀ d ∈ hexDigits, harmless d = true ∧ d ≠ 37 := by decide +kernel
  exact hall c (List.contains_iff_mem.mp h)

theorem ne_of_harmless (h : harmless c = true) : c ≠ 37 := by
  rintro rfl
  exact absurd h (by decide)

theorem urlEncode_harmless (h : harmless c = true) (s : Str) :
    urlEncode (c :: s) = c :: urlEncode s := by
  rw [urlEncode, copied_of_ne (ne_of_harmless h), h]
  rfl

theorem urlEncode_escape {a b : UInt8} (ha : isHex a = true) (hb : isHex b = true) (s : Str) :
    urlEncode (37 :: a :: b :: s) = 37 :: a :: b :: urlEncode s := by
  rw [urlEncode, copied_percent, ha, hb, urlEncode_harmless (harmless_of_isHex ha).1,
    urlEncode_harmless (harmless_of_isHex hb).1]
  rfl

/-- The three ways a text is encoded. -/
theorem urlEncode_cases (c : UInt8) (s : Str) :
    (∃ a b r, c = 37 ∧ s = a :: b :: r ∧ isHex a = true ∧ isHex b = true) ∨ harmless c = true
      ∨ copied false c s = false := by
  by_cases hc : c = 37
  · subst hc
    match s with
    | [] => exact .inr (.inr (copied_short (by simp)))
    | [a] => exact .inr (.inr (copied_short (by simp)))
    | a :: b :: r =>
      cases h : isHex a && isHex b with
      | true => exact .inl ⟨a, b, r, rfl, rfl, Bool.and_eq_true_iff.mp h⟩
      | false => exact .inr (.inr ((copied_percent a b r).trans h))
  · rw [copied_of_ne hc]
    cases harmless c <;> simp

theorem isHex_digit (v : Nat) (hv : v < 16) : isHex (hexDigits.getD v 0) = true := by
  interval_cases v <;> decide

theorem urlEncode_percent (c : UInt8) (s : Str) :
    urlEncode (percent c ++ s) = percent c ++ urlEncode s := by
  have hc := c.toNat_lt
  exact urlEncode_escape (isHex_digit _ (by omega)) (isHex_digit _ (by omega)) s

/-- Induction along the parts that a text is encoded in. -/
theorem parts_induction {P : Str → Prop} (nil : P [])
    (escape : ∀ a b r, isHex a = true → isHex b = true → P r → P (37 :: a :: b :: r))
    (clear : ∀ c s, harmless c = true → P s → P (c :: s))
    (encoded : ∀ c s, copied false c s = false → P s → P (c :: s)) (s : Str) : P s := by
  have hall : ∀ (n : Nat) (s : Str), s.length ≤ n → P s := by
    intro n
    induction n with
    | zero =>
      intro s hlen
      rw [List.eq_nil_of_length_eq_zero (Nat.le_zero.mp hlen)]
      exact nil
    | succ n ih =>
      intro s hlen
      cases s with
      | nil => exact nil
      | cons c s =>
        rw [List.length_cons] at hlen
        rcases urlEncode_cases c s with ⟨a, b, r, rfl, rfl, ha, hb⟩ | hsafe | henc
        · exact escape a b r ha hb (ih r (by simp only [List.length_cons] at hlen; omega))
        · exact clear c s hsafe (ih s (by omega))
        · exact encoded c s henc (ih s (by omega))
  exact hall s.length s (Nat.le_refl _)

theorem urlEncode_encoded {s : Str} (h : copied false c s = false) :
    urlEncode (c :: s) = percent c ++ urlEncode s := by
  rw [urlEncode, h]
  rfl

theorem urlEncode_idempotent (s : Str) : urlEncode (urlEncode s) = urlEncode s := by
  induction s using parts_induction with
  | nil => rfl
  | escape a b r ha hb ih => rw [urlEncode_escape ha hb, urlEncode_escape ha hb, ih]
  | clear c s hsafe ih => rw [urlEncode_harmless hsafe, urlEncode_harmless hsafe, ih]
  | encoded c s henc ih => rw [urlEncode_encoded henc, urlEncode_percent, ih]

/-- Of a text that grows, every text it is the end of grows. -/
theorem length_lt_urlEncode {w : Str} (h : w.length < (urlEncode w).length) (s : Str) :
    (s ++ w).length < (urlEncode (s ++ w)).length := by
  induction s with
  | nil => exact h
  | cons c s ih =>
    rw [List.cons_append, urlEncode, List.length_append, List.length_cons]
    split
    · simp only [List.length_singleton]
      omega
    · rw [length_percent]
      omega

/-- No percent sign with two digits behind it. -/
def NoEscape (s : Str) : Prop :=
  ∀ p a b r, s = p ++ 37 :: a :: b :: r → ¬(isHex a = true ∧ isHex b = true)

theorem urlEncode_of_noEscape {s : Str} (h : NoEscape s) :
    urlEncode s = s.flatMap fun c => if harmless c then [c] else percent c := by
  induction s with
  | nil => rfl
  | cons c s ih =>
    have hcopied : copied false c s = harmless c := by
      rcases urlEncode_cases c s with ⟨a, b, r, rfl, rfl, ha, hb⟩ | hsafe | henc
      · exact absurd ⟨ha, hb⟩ (h [] a b r rfl)
      · exact copied_of_ne (ne_of_harmless hsafe) s
      · by_cases hc : c = 37
        · rw [henc, hc]
          rfl
        · exact copied_of_ne hc s
    rw [urlEncode, hcopied, List.flatMap_cons, ih fun p a b r hs => h (c :: p) a b r (by rw [hs]; rfl)]

/-! ## A buffer that ends early -/

theorem copied_append {s : Str} (h : copied false c s = true) (r : Str) :
    copied false c (s ++ r) = true := by
  by_cases hc : c = 37
  · subst hc
    match s, h with
    | a :: b :: s, h => rwa [List.cons_append, List.cons_append, copied_percent, ← copied_percent a b s]
  · rwa [copied_of_ne hc, ← copied_of_ne hc s]

/-- A percent sign is no digit, so what stands before it is encoded as if it were not there. -/
theorem copied_before_percent (c : UInt8) (s r : Str) :
    copied false c (s ++ 37 :: r) = copied false c s := by
  by_cases hc : c = 37
  · subst hc
    have hnot : isHex 37 = false := by decide
    match s with
    | [] => cases r with
      | nil => decide
      | cons d r => exact (copied_percent 37 d r).trans (by rw [hnot]; rfl)
    | [a] => exact (copied_percent a 37 r).trans (by rw [hnot, Bool.and_false]; rfl)
    | a :: b :: s => exact (copied_percent a b _).trans (copied_percent a b s).symm
  · rw [copied_of_ne hc, copied_of_ne hc]

/-- The encoding gets to an encoding that is copied. -/
theorem urlEncodeLoop_reaches (len : Nat) (p r : Str) : ∀ x, x + (urlEncode p).length ≤ len →
    urlEncodeLoop false len x (p ++ 37 :: r)
      = urlEncode p ++ urlEncodeLoop false len (x + (urlEncode p).length) (37 :: r) := by
  induction p with
  | nil => exact fun x _ => rfl
  | cons c p ih =>
    intro x hx
    rw [List.cons_append, urlEncodeLoop, copied_before_percent]
    cases hcopied : copied false c p with
    | true =>
      have hunit : urlEncode (c :: p) = c :: urlEncode p := by rw [urlEncode, if_pos hcopied]; rfl
      rw [hunit, List.length_cons] at hx ⊢
      rw [if_neg (by omega), if_pos rfl, ih (x + 1) (by omega), Nat.add_right_comm x, Nat.add_assoc]
      rfl
    | false =>
      rw [urlEncode_encoded hcopied, List.length_append, length_percent] at hx ⊢
      rw [if_neg (by omega), if_neg (by decide), if_neg (by omega), ih (x + 3) (by omega),
        List.append_assoc,
        Nat.add_assoc]

/-- From `x` on, no encoding that is copied begins before the limit and ends behind it. -/
def Uncut (len x : Nat) (s : Str) : Prop :=
  ∀ p a b r, s = p ++ 37 :: a :: b :: r → isHex a = true → isHex b = true →
    ¬(x + (urlEncode p).length < len ∧ len < x + (urlEncode p).length + 3)

/-- The output is the encoding of what has been read. -/
def WholeOutput (len x : Nat) (s : Str) : Prop :=
  ∃ t, t <+: s ∧ urlEncodeLoop false len x s = urlEncode t ∧ x + (urlEncode t).length ≤ len

theorem wholeOutput_of_nil {len x : Nat} {s : Str} (hx : x ≤ len)
    (h : urlEncodeLoop false len x s = []) :
    WholeOutput len x s := ⟨[], List.nil_prefix, h, hx⟩

/-- A part that is written as `unit`, with the rest behind it. -/
theorem wholeOutput_append {len x : Nat} {front rest unit : Str} (hroom : x + unit.length ≤ len)
    (hloop : urlEncodeLoop false len x (front ++ rest)
      = unit ++ urlEncodeLoop false len (x + unit.length) rest)
    (hunit : ∀ t, t <+: rest → urlEncode (front ++ t) = unit ++ urlEncode t)
    (ih : ∀ x ≤ len, Uncut len x rest → WholeOutput len x rest) (h : Uncut len x (front ++ rest)) :
    WholeOutput len x (front ++ rest) := by
  obtain ⟨t, ht, hout, hfits⟩ := ih (x + unit.length) hroom fun p a b r hr ha hb => by
    have hnot := h (front ++ p) a b r (by rw [hr, List.append_assoc]) ha hb
    rw [hunit p ⟨_, hr.symm⟩, List.length_append] at hnot
    omega
  refine ⟨front ++ t, (List.prefix_append_right_inj front).mpr ht, ?_, ?_⟩
  · rw [hloop, hout, hunit t ht]
  · rw [hunit t ht, List.length_append]
    omega

theorem wholeOutput_of_uncut (len : Nat) (s : Str) :
    ∀ x ≤ len, Uncut len x s → WholeOutput len x s := by
  induction s using parts_induction with
  | nil => exact fun x hx _ => wholeOutput_of_nil hx rfl
  | escape a b r ha hb ih =>
    intro x hx hcond
    by_cases hfull : len ≤ x
    · exact wholeOutput_of_nil hx (by rw [urlEncodeLoop, if_pos hfull])
    -- an encoding that begins inside of the buffer has to end there
    have hroom : x + 3 ≤ len := by
      have := hcond [] a b r rfl ha hb
      simp only [urlEncode, List.length_nil] at this
      omega
    have hcopy : ∀ {d : UInt8} (s : Str), isHex d = true → copied false d s = true := fun s h =>
      (copied_of_ne (harmless_of_isHex h).2 s).trans (harmless_of_isHex h).1
    have hpercent : copied false 37 (a :: b :: r) = true := by rw [copied_percent, ha, hb]; rfl
    refine @wholeOutput_append len x [37, a, b] r [37, a, b] hroom ?_
      (fun t _ => urlEncode_escape ha hb t) ih hcond
    show urlEncodeLoop false len x (37 :: a :: b :: r) = _
    rw [urlEncodeLoop, if_neg hfull, if_pos hpercent, urlEncodeLoop, if_neg (by omega),
      if_pos (hcopy _ ha),
      urlEncodeLoop, if_neg (by omega), if_pos (hcopy _ hb)]
    rfl
  | clear c s hsafe ih =>
    intro x hx hcond
    by_cases hfull : len ≤ x
    · exact wholeOutput_of_nil hx (by rw [urlEncodeLoop, if_pos hfull])
    refine @wholeOutput_append len x [c] s [c]
      (by simp; omega) ?_ (fun t _ => urlEncode_harmless hsafe t) ih hcond
    rw [List.singleton_append, urlEncodeLoop, if_neg hfull,
      copied_of_ne (ne_of_harmless hsafe), if_pos hsafe]
    rfl
  | encoded c s henc ih =>
    intro x hx hcond
    have hloop : urlEncodeLoop false len x (c :: s)
        = if len ≤ x then [] else if len < x + 3 then []
          else percent c ++ urlEncodeLoop false len (x + 3) s := by
      rw [urlEncodeLoop, henc]
      rfl
    by_cases hthree : len < x + 3
    · exact wholeOutput_of_nil hx (by rw [hloop, if_pos hthree, ite_self])
    refine @wholeOutput_append len x [c] s (percent c)
      (by rw [length_percent]; omega) ?_ (fun t ht => ?_) ih hcond
    · rw [List.singleton_append, hloop, if_neg (by omega), if_neg hthree, length_percent]
    · obtain ⟨r, rfl⟩ := ht
      have hnot : copied false c t = false := by
        cases h : copied false c t with
        | false => rfl
        | true => rw [copied_append h] at henc; cases henc
      exact urlEncode_encoded hnot

/-- A text without encodings in it can be read back, and an output is encoded as itself, for a buffer
that is large enough. In a buffer of `len` bytes the output is the encoding of a beginning of the text,
and fits, exactly if no encoding that is copied begins before the end of the buffer and ends behind
it. -/
theorem url_laws_iff (s : Str) (len : Nat) (hlen : 0 < len) :
    ((NoEscape s → ∀ n, (urlEncode s).length < n → switchUrlDecode (switchUrlEncode s n) = s)
        ∧ (∀ n, (urlEncode s).length < n → switchUrlEncode (switchUrlEncode s n) n
          = switchUrlEncode s n)
        ∧ ∃ t, t <+: s ∧ switchUrlEncode s len = urlEncode t ∧ (switchUrlEncode s len).length < len)
      ↔ ∀ p a b r, s = p ++ 37 :: a :: b :: r → isHex a = true → isHex b = true →
          ¬((urlEncode p).length + 1 < len ∧ len < (urlEncode p).length + 4) := by
  constructor
  · rintro ⟨-, -, t, -, ht, -⟩ p a b r rfl ha hb ⟨hlo, hhi⟩
    -- the output ends with a percent sign, or with that and a digit, which is no encoding
    have hsame := urlEncode_idempotent t
    have hgrows : ∀ w, w.length < (urlEncode w).length → urlEncode t ≠ urlEncode p ++ w := by
      intro w hw heq
      have hlt := length_lt_urlEncode hw (urlEncode p)
      rw [← heq, hsame] at hlt
      exact Nat.lt_irrefl _ hlt
    have hcut : copied false 37 (a :: b :: r) = true := by rw [copied_percent, ha, hb]; rfl
    have hcopy : copied false a (b :: r) = true :=
      (copied_of_ne (harmless_of_isHex ha).2 _).trans (harmless_of_isHex ha).1
    rw [switchUrlEncode, switchUrlEncodeOpt, urlEncodeLoop_reaches _ p _ 0 (by omega), urlEncodeLoop,
      if_neg (by omega),
      if_pos hcut, urlEncodeLoop] at ht
    split at ht
    · exact hgrows [37] (by decide) ht.symm
    · rw [urlEncodeLoop, if_pos (by omega)] at ht
      refine hgrows [37, a] ?_ ht.symm
      rw [urlEncode, copied_short (by simp), urlEncode_harmless (harmless_of_isHex ha).1]
      simp [percent, urlEncode]
  · intro hcond
    obtain ⟨t, ht, hout, hfits⟩ := wholeOutput_of_uncut (len - 1) s 0 (Nat.zero_le _)
      fun p a b r hs ha hb => by
        have := hcond p a b r hs ha hb
        omega
    have hout : switchUrlEncode s len = urlEncode t := hout
    refine ⟨fun hplain n hroom => ?_, fun n hroom => ?_, t, ht, hout, hout ▸ by omega⟩
    · have hunit : ∀ c, (if harmless c then [c] else percent c) = percent c
          ∨ (if harmless c then [c] else percent c) = [c] ∧ c ≠ 37 := by
        intro c
        cases h : harmless c with
        | true => exact .inr ⟨rfl, ne_of_harmless h⟩
        | false => exact .inl rfl
      have hunits := switchUrlDecode_units hunit s []
      rw [(switchUrlEncode_eq_iff (by omega)).mpr hroom, urlEncode_of_noEscape hplain]
      simpa [switchUrlDecode] using hunits
    · have hsame := urlEncode_idempotent s
      rw [(switchUrlEncode_eq_iff (by omega)).mpr hroom,
        (switchUrlEncode_eq_iff (by omega)).mpr (by rwa [hsame]),
        hsame]

/-- `a b` is encoded and decoded again. -/
theorem url_laws_iff_plain : switchUrlDecode (switchUrlEncode [97, 32, 98] 6) = [97, 32, 98] := by
  refine ((url_laws_iff [97, 32, 98] 6 (by decide)).mpr ?_).1 ?_ 6 (by decide +kernel)
  · intro p a b r h
    have := congrArg (37 ∈ ·) h
    simp at this
  · intro p a b r h
    have := congrArg (37 ∈ ·) h
    simp at this

/-- `%41` in a buffer of two bytes: `%` is left, which is encoded as `%25`. -/
theorem url_cut : switchUrlEncode (bytes "%41") 2 = bytes "%"
    ∧ ∀ t, t <+: bytes "%41" → urlEncode t ≠ switchUrlEncode (bytes "%41") 2 := by
  have hout : switchUrlEncode (bytes "%41") 2 = bytes "%" := by decide +kernel
  have hall : ∀ n ≤ (bytes "%41").length, urlEncode ((bytes "%41").take n) ≠ bytes "%" := by
    decide +kernel
  refine ⟨hout, fun t ht => ?_⟩
  rw [hout, List.prefix_iff_eq_take.mp ht]
  exact hall t.length ht.length_le

end FreeSwitch.Event
