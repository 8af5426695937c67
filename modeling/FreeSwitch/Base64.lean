import FreeSwitch.Lib.CString

/-!
# Base64 — `src/switch_utils.c`

Both directions shift their input into a word of 32 bits, which is never cleared, and take the output
from its low bits. The encoder keeps its limit in an `int`.

* **`base64`** — RFC 4648, section 4.
* **`encodeLoop_eq_iff`** — the encoder writes that, three bytes at a time, if its limit allows.
* **`decodeLoop_base64`** — the decoder reads it, four symbols at a time.
* **`b64_roundTrip_iff`** — when they work together; **`b64_cut`** — an `olen` that is 0 as an `int`.
-/

namespace FreeSwitch.Base64

open CString

/-! ## The code -/

def switchB64Table : Str := bytes "ABCDEFGHIJKLMNOPQRSTUVWXYZabcdefghijklmnopqrstuvwxyz0123456789+/"

def symbol (v : Nat) : UInt8 := switchB64Table.getD v 0

/-- `while (l >= 6)`. The text, and `l` unless the limit `(int)olen - 1` is reached. The length `y` of a
line has no effect. -/
def sextets (lim : Int) (b : Nat) : Nat → Str → Str × Option Nat
  | l + 6, out =>
    let out := out ++ [symbol (b / 2 ^ l % 64)]
    if lim ≤ out.length then (out, none) else sextets lim b l out
  | l, out => (out, some l)

/-- `while (l < 6 && bytes < (int)olen - 1)`. -/
def pad (lim : Int) : Nat → Nat → Str → Str
  | 0, _, out => out
  | fuel + 1, l, out => if l < 6 ∧ out.length < lim then pad lim fuel (l + 2) (out ++ [61]) else out

def encodeTail (lim : Int) (b l : Nat) (out : Str) : Str :=
  if 0 < l then pad lim 3 l (out ++ [symbol (b % 16 * 2 ^ (6 - l) % 64)]) else out

def encodeLoop (lim : Int) (b l : Nat) : Str → Str → Str
  | [], out => encodeTail lim b l out
  | c :: s, out =>
    let b := (b * 256 + c.toNat) % 2 ^ 32
    match sextets lim b (l + 8) out with
    | (out, some l) => encodeLoop lim b l s out
    | (out, none) => out

/-- The bytes written to `out`. For `INT_MIN` the subtraction overflows; the limit is below 0 here. -/
def switchB64Encode (s : Str) (olen : Nat) : Str :=
  encodeLoop (Int.bmod olen (2 ^ 32) - 1) 0 0 s [] ++ [0]

/-- `l64`, for a `char` that is not negative. -/
def l64 (c : UInt8) : Option Nat := switchB64Table.idxOf? c

/-- `while (l >= 8)`. `b` is an `int`: it is shifted with its sign, and `%` may be negative. -/
def octets (lim : Nat) (b : Int) : Nat → Str → Str × Option Nat
  | l + 8, out =>
    let out := out ++ [UInt8.ofInt ((b / 2 ^ l).tmod 256)]
    if lim ≤ out.length then (out, none) else octets lim b l out
  | l, out => (out, some l)

/-- `none`: a negative `char` as an index. -/
def decodeLoop (lim : Nat) (b : Int) (l : Nat) : Str → Str → Option Str
  | [], out => some out
  | c :: s, out =>
    if 128 ≤ c then none
    else
      match l64 c with
      | none => decodeLoop lim b l s out
      | some v =>
        let b := Int.bmod (b * 64 + v) (2 ^ 32)
        match octets lim b (l + 6) out with
        | (out, some l) => decodeLoop lim b l s out
        | (out, none) => some out

/-- The bytes written to `out`, and what is returned. -/
def switchB64Decode (s : Str) (olen : Nat) : Option (Str × Nat) := do
  let out ← decodeLoop ((olen + 2 ^ 64 - 2) % 2 ^ 64) 0 0 s []
  return (out ++ [0], out.length + 1)

/-! ## The format -/

def base64 : Str → Str
  | [] => []
  | [x] => [symbol (x.toNat / 4), symbol (x.toNat % 4 * 16), 61, 61]
  | [x, y] => [symbol (x.toNat / 4), symbol (x.toNat % 4 * 16 + y.toNat / 16),
    symbol (y.toNat % 16 * 4), 61]
  | x :: y :: z :: s =>
    symbol (x.toNat / 4) :: symbol (x.toNat % 4 * 16 + y.toNat / 16) :: symbol
      (y.toNat % 16 * 4 + z.toNat / 64)
      :: symbol (z.toNat % 64) :: base64 s

theorem length_base64 : ∀ s : Str, (base64 s).length = 4 * ((s.length + 2) / 3)
  | [] => rfl
  | [_] => by simp [base64]
  | [_, _] => by simp [base64]
  | _ :: _ :: _ :: s => by
    simp only [base64, List.length_cons, length_base64 s]
    omega

/-! ## Encoding -/

/-- The first byte of three. -/
theorem encodeLoop_first (lim : Int) (b : Nat) (x : UInt8) :
    ∃ b', b' % 4 = x.toNat % 4 ∧ ∀ s out, encodeLoop lim b 0 (x :: s) out =
      if lim ≤ out.length + 1 then out ++ [symbol (x.toNat / 4)]
      else encodeLoop lim b' 2 s (out ++ [symbol (x.toNat / 4)]) := by
  have hx := x.toNat_lt
  have hvalue : (b * 256 + x.toNat) % 2 ^ 32 / 2 ^ 2 % 64 = x.toNat / 4 := by omega
  refine ⟨(b * 256 + x.toNat) % 2 ^ 32, by omega, fun s out => ?_⟩
  simp only [encodeLoop, sextets, hvalue, List.length_append, List.length_singleton,
    Nat.cast_add, Nat.cast_one]
  split_ifs <;> rfl

/-- The second byte; `b` ends with the first. -/
theorem encodeLoop_second (lim : Int) (b : Nat) (y : UInt8) :
    ∃ b', b' % 16 = y.toNat % 16 ∧ ∀ s out, encodeLoop lim b 2 (y :: s) out =
      if lim ≤ out.length + 1 then out ++ [symbol (b % 4 * 16 + y.toNat / 16)]
      else encodeLoop lim b' 4 s (out ++ [symbol (b % 4 * 16 + y.toNat / 16)]) := by
  have hy := y.toNat_lt
  have hvalue : (b * 256 + y.toNat) % 2 ^ 32 / 2 ^ 4 % 64 = b % 4 * 16 + y.toNat / 16 := by omega
  refine ⟨(b * 256 + y.toNat) % 2 ^ 32, by omega, fun s out => ?_⟩
  simp only [encodeLoop, sextets, hvalue, List.length_append, List.length_singleton,
    Nat.cast_add, Nat.cast_one]
  split_ifs <;> rfl

theorem encodeLoop_third (lim : Int) (b : Nat) (z : UInt8) :
    ∃ b', ∀ s out, encodeLoop lim b 4 (z :: s) out =
      if lim ≤ out.length + 1 then out ++ [symbol (b % 16 * 4 + z.toNat / 64)]
      else if lim ≤ (out ++ [symbol (b % 16 * 4 + z.toNat / 64)]).length + 1 then
        out ++ [symbol (b % 16 * 4 + z.toNat / 64)] ++ [symbol (z.toNat % 64)]
      else encodeLoop lim b' 0 s
        (out ++ [symbol (b % 16 * 4 + z.toNat / 64)] ++ [symbol (z.toNat % 64)]) := by
  have hz := z.toNat_lt
  have hvalue : (b * 256 + z.toNat) % 2 ^ 32 / 2 ^ 6 % 64 = b % 16 * 4 + z.toNat / 64 := by omega
  have hlast : (b * 256 + z.toNat) % 2 ^ 32 / 2 ^ 0 % 64 = z.toNat % 64 := by omega
  refine ⟨(b * 256 + z.toNat) % 2 ^ 32, fun s out => ?_⟩
  simp only [encodeLoop, sextets, hvalue, hlast, List.length_append, List.length_singleton,
    Nat.cast_add, Nat.cast_one]
  split_ifs <;> rfl

/-- A symbol with more behind it: if the limit is reached, that is missing. -/
theorem symbol_step {lim : Int} {out r t : Str} (c : UInt8) (ht : t ≠ [])
    (hr : (out ++ [c]).length < lim →
      (r = out ++ [c] ++ t ↔ ((out ++ [c]).length + t.length : Int) ≤ lim)) :
    (if lim ≤ out.length + 1 then out ++ [c] else r) = out ++ c :: t ↔
    (out.length + (c :: t).length : Int) ≤ lim := by
  have hlen : 0 < t.length := List.length_pos_iff.mpr ht
  rw [List.append_cons out c t, List.length_cons]
  split_ifs with h
  · refine iff_of_false (fun heq => ?_) (by omega)
    have := congrArg List.length heq
    simp only [List.length_append] at this
    omega
  · rw [hr (by simp; omega)]
    simp
    omega

/-- Behind the first byte or the second there are a symbol and the padding, which is cut at the
limit. -/
theorem encodeTail_first (lim : Int) {b : Nat} {x : UInt8} (hb : b % 4 = x.toNat % 4) (out : Str) :
    encodeTail lim b 2 out = out ++ [symbol (x.toNat % 4 * 16), 61, 61] ↔
      (out.length + 3 : Int) ≤ lim := by
  have hvalue : b % 16 * 2 ^ (6 - 2) % 64 = x.toNat % 4 * 16 := by omega
  rw [encodeTail, if_pos (by decide), hvalue]
  simp only [pad]
  split_ifs with h h' h'' <;> simp at * <;> omega

theorem encodeTail_second (lim : Int) {b : Nat} {y : UInt8} (hb : b % 16 = y.toNat % 16) (out : Str) :
    encodeTail lim b 4 out = out ++ [symbol (y.toNat % 16 * 4), 61] ↔ (out.length + 2 : Int) ≤ lim := by
  have hvalue : b % 16 * 2 ^ (6 - 4) % 64 = y.toNat % 16 * 4 := by omega
  rw [encodeTail, if_pos (by decide), hvalue]
  simp only [pad]
  split_ifs with h h' <;> simp at * <;> omega

/-- The encoder writes the text of the format exactly if it does not reach the limit before. -/
theorem encodeLoop_eq_iff (lim : Int) : ∀ (s : Str) (b : Nat) (out : Str),
    encodeLoop lim b 0 s out = out ++ base64 s ↔ s = [] ∨ (out.length + (base64 s).length : Int) ≤ lim
  | [], b, out => by simp [encodeLoop, encodeTail, base64]
  | [x], b, out => by
    obtain ⟨b₁, hb₁, hfirst⟩ := encodeLoop_first lim b x
    rw [hfirst, base64, or_iff_right (by simp)]
    exact symbol_step _ (by simp) fun _ => encodeTail_first lim hb₁ _
  | [x, y], b, out => by
    obtain ⟨b₁, hb₁, hfirst⟩ := encodeLoop_first lim b x
    obtain ⟨b₂, hb₂, hsecond⟩ := encodeLoop_second lim b₁ y
    rw [hfirst, hsecond, hb₁, base64, or_iff_right (by simp)]
    exact symbol_step _ (by simp) fun _ => symbol_step _ (by simp) fun _ => encodeTail_second lim hb₂ _
  | x :: y :: z :: s, b, out => by
    obtain ⟨b₁, hb₁, hfirst⟩ := encodeLoop_first lim b x
    obtain ⟨b₂, hb₂, hsecond⟩ := encodeLoop_second lim b₁ y
    obtain ⟨b₃, hthird⟩ := encodeLoop_third lim b₂ z
    rw [hfirst, hsecond, hthird, hb₁, hb₂, base64, or_iff_right (by simp)]
    refine symbol_step _
      (by simp) fun _ => symbol_step _ (by simp) fun _ => symbol_step _ (by simp) fun hroom => ?_
    -- at the last of the four the limit may be reached, if there is nothing behind them
    generalize out ++ _ ++ _ ++ _ = out' at hroom ⊢
    rw [List.append_cons out' _ (base64 s), List.length_cons]
    split_ifs with hlast
    · rw [List.self_eq_append_right, ← List.length_eq_zero_iff]
      omega
    · rw [encodeLoop_eq_iff lim s, ← List.length_eq_zero_iff, List.length_append, List.length_singleton,
        length_base64]
      omega

/-! ## Decoding -/

theorem l64_symbol : ∀ v < 64, l64 (symbol v) = some v ∧ ¬128 ≤ symbol v := by decide +kernel

theorem exists_wrap (x : Int) : ∃ k, Int.bmod x (2 ^ 32) = x + 2 ^ 32 * k := by
  rw [Int.bmod_def]
  split
  · exact ⟨-(x / 2 ^ 32), by omega⟩
  · exact ⟨-(x / 2 ^ 32) - 1, by omega⟩

/-- Neither the overflow nor the sign reaches the byte. -/
theorem ofInt_octet {x : Int} {l : Nat} (hl : l = 0 ∨ l = 2 ∨ l = 4) {c : UInt8}
    (hc : x / 2 ^ l % 256 = c.toNat) :
    UInt8.ofInt ((Int.bmod x (2 ^ 32) / 2 ^ l).tmod 256) = c := by
  obtain ⟨k, hk⟩ := exists_wrap x
  have hlow : (Int.bmod x (2 ^ 32) / 2 ^ l).tmod 256 % 256 = c.toNat := by
    rw [← hc, hk, Int.tmod_def]
    rcases hl with rfl | rfl | rfl <;> omega
  have hcast : (2 ^ 8 : Int) = 256 := rfl
  rw [UInt8.ofInt, hcast, hlow, Int.toNat_natCast, UInt8.ofNat_toNat]

/-- A symbol without a byte. -/
theorem decodeLoop_first (lim : Nat) (b : Int) {v : Nat} (hv : v < 64) :
    ∃ b' : Int, b' % 64 = v ∧ ∀ s out,
      decodeLoop lim b 0 (symbol v :: s) out = decodeLoop lim b' 6 s out := by
  obtain ⟨hvalue, hlow⟩ := l64_symbol v hv
  obtain ⟨k, hk⟩ := exists_wrap (b * 64 + v)
  refine ⟨Int.bmod (b * 64 + v) (2 ^ 32), by omega, fun s out => ?_⟩
  rw [decodeLoop, if_neg hlow, hvalue]
  rfl

/-- A symbol that ends a byte, with `l` bits over. -/
theorem decodeLoop_octet (lim : Nat) (b : Int) {l : Nat} (hl : l = 0 ∨ l = 2 ∨ l = 4)
    {v : Nat} (hv : v < 64) {c : UInt8} (hc : (b * 64 + v) / 2 ^ l % 256 = c.toNat) :
    ∃ b' : Int, b' % 64 = v ∧ ∀ s out, decodeLoop lim b (l + 2) (symbol v :: s) out =
      if lim ≤ out.length + 1 then some (out ++ [c]) else decodeLoop lim b' l s (out ++ [c]) := by
  obtain ⟨hvalue, hlow⟩ := l64_symbol v hv
  obtain ⟨k, hk⟩ := exists_wrap (b * 64 + v)
  have hbyte := ofInt_octet hl hc
  refine ⟨Int.bmod (b * 64 + v) (2 ^ 32), by omega, fun s out => ?_⟩
  rw [decodeLoop, if_neg hlow, hvalue]
  rcases hl with rfl | rfl | rfl
  all_goals
    simp only [octets, hbyte, List.length_append, List.length_singleton]
    split_ifs <;> rfl

theorem decodeLoop_padding (lim : Nat) (b : Int) (l : Nat) (s out : Str) :
    decodeLoop lim b l (61 :: s) out = decodeLoop lim b l s out := by
  have hnone : l64 61 = none := by decide +kernel
  rw [decodeLoop, if_neg (by decide), hnone]

theorem decodeLoop_base64 (lim : Nat) : ∀ (s : Str) (b : Int) (out : Str), out.length + s.length ≤ lim →
    decodeLoop lim b 0 (base64 s) out = some (out ++ s)
  | [], b, out, _ => by rw [base64, decodeLoop, List.append_nil]
  | [x], b, out, h => by
    have hx := x.toNat_lt
    rw [base64]
    obtain ⟨b₁, hb₁, hfirst⟩ := decodeLoop_first lim b (v := x.toNat / 4) (by omega)
    obtain ⟨b₂, hb₂, hsecond⟩ :=
      decodeLoop_octet lim b₁ (.inr (.inr rfl)) (v := x.toNat % 4 * 16) (c := x) (by omega)
      (by push_cast; omega)
    rw [hfirst, hsecond]
    split
    · rfl
    · rw [decodeLoop_padding, decodeLoop_padding, decodeLoop]
  | [x, y], b, out, h => by
    have hx := x.toNat_lt
    have hy := y.toNat_lt
    rw [List.length_cons, List.length_singleton] at h
    rw [base64]
    obtain ⟨b₁, hb₁, hfirst⟩ := decodeLoop_first lim b (v := x.toNat / 4) (by omega)
    obtain ⟨b₂, hb₂, hsecond⟩ :=
      decodeLoop_octet lim b₁ (.inr (.inr rfl)) (v := x.toNat % 4 * 16 + y.toNat / 16)
      (c := x) (by omega) (by push_cast; omega)
    obtain ⟨b₃, hb₃, hthird⟩ :=
      decodeLoop_octet lim b₂ (.inr (.inl rfl)) (v := y.toNat % 16 * 4) (c := y)
      (by omega) (by push_cast at hb₂ ⊢; omega)
    rw [hfirst, hsecond, if_neg (by omega), hthird, List.append_cons out x [y]]
    split
    · rfl
    · rw [decodeLoop_padding, decodeLoop]
  | x :: y :: z :: s, b, out, h => by
    have hx := x.toNat_lt
    have hy := y.toNat_lt
    have hz := z.toNat_lt
    simp only [List.length_cons] at h
    rw [base64]
    obtain ⟨b₁, hb₁, hfirst⟩ := decodeLoop_first lim b (v := x.toNat / 4) (by omega)
    obtain ⟨b₂, hb₂, hsecond⟩ :=
      decodeLoop_octet lim b₁ (.inr (.inr rfl)) (v := x.toNat % 4 * 16 + y.toNat / 16)
      (c := x) (by omega) (by push_cast; omega)
    obtain ⟨b₃, hb₃, hthird⟩ :=
      decodeLoop_octet lim b₂ (.inr (.inl rfl)) (v := y.toNat % 16 * 4 + z.toNat / 64)
      (c := y) (by omega) (by push_cast at hb₂ ⊢; omega)
    obtain ⟨b₄, hb₄, hfourth⟩ := decodeLoop_octet lim b₃ (.inl rfl) (v := z.toNat % 64) (c := z)
      (by omega) (by push_cast at hb₃ ⊢; omega)
    rw [hfirst, hsecond, if_neg (by omega), hthird, if_neg (by simp; omega), hfourth,
      List.append_cons out x (y :: z :: s), List.append_cons (out ++ [x]) y (z :: s),
      List.append_cons (out ++ [x] ++ [y]) z s]
    split
    · next hfull =>
      -- the limit is at the last byte
      simp only [List.length_append, List.length_singleton] at hfull
      have hnil : s = [] := List.eq_nil_of_length_eq_zero (by omega)
      rw [hnil, List.append_nil]
    · exact decodeLoop_base64 lim s b₄ _ (by simp; omega)

/-! ## Together -/

/-- The text has the format and fits, and is decoded to the bytes and a NUL, which fit as well, exactly
if it is not longer than `olen` as an `int` allows. -/
theorem b64_roundTrip_iff (s : Str) (olen olen' : Nat) (holen : 4 * ((s.length + 2) / 3) + 1 ≤ olen)
    (holen' : s.length + 2 ≤ olen') (hsize : olen' < 2 ^ 64) :
    (switchB64Encode s olen = base64 s ++ [0] ∧ (switchB64Encode s olen).length ≤ olen
        ∧ switchB64Decode (base64 s) olen' = some (s ++ [0], s.length + 1) ∧ (s ++ [0]).length ≤ olen')
      ↔ s = [] ∨ (4 * ((s.length + 2) / 3) + 1 : Nat) ≤ Int.bmod olen (2 ^ 32) := by
  have hdecode : switchB64Decode (base64 s) olen' = some (s ++ [0], s.length + 1) := by
    rw [switchB64Decode, decodeLoop_base64 _ s 0 [] (by simp; omega)]
    rfl
  have hencode := encodeLoop_eq_iff (Int.bmod olen (2 ^ 32) - 1) s 0 []
  rw [List.nil_append, length_base64] at hencode
  rw [switchB64Encode, List.append_left_inj, hencode]
  have hlength := length_base64 s
  constructor
  · rintro ⟨h, -⟩
    refine h.imp_right fun h => ?_
    simp at h ⊢
    omega
  · intro h
    have hlim := h.imp_right fun h => by
      show ((List.length ([] : Str) : Nat) + (4 * ((s.length + 2) / 3) : Nat) : Int) ≤
        Int.bmod olen (2 ^ 32) - 1
      simp at h ⊢
      omega
    refine ⟨hlim, ?_, hdecode, by simp; omega⟩
    rw [hencode.mpr hlim, List.length_append, hlength]
    exact holen

theorem b64_roundTrip_iff_three : switchB64Encode [77, 97, 110] 5 = bytes "TWFu" ++ [0] := by
  refine ((b64_roundTrip_iff [77, 97, 110] 5 5 (by decide) (by decide)
    (by decide)).mpr (.inr (by decide))).1.trans ?_
  decide +kernel

/-- With `olen` 2³², one symbol is written. -/
theorem b64_cut : switchB64Encode [97] (2 ^ 32) = bytes "Y" ++ [0] ∧ base64 [97] = bytes "YQ==" := by
  decide +kernel

end FreeSwitch.Base64
