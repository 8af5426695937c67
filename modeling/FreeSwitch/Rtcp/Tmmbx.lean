import Mathlib.Tactic

/-!
# The bandwidth in TMMBR and TMMBN — `calc_bw_exp`, `src/switch_rtp.c`

A bandwidth is sent as an exponent of 6 bits, a mantissa of 17 and an overhead of 9, the most
significant bit first. The third byte holds the low 7 bits of the mantissa and the first of the
overhead; the source shifts the mantissa to the right there instead of to the left. And the limit that
the bandwidth is compared with overflows, so that for the largest ones no exponent is found.

* **`exponent_eq`**, **`exponent_eq_zero`** — the exponent that the loop finds.
* **`fields_calcBwExp`** — what a receiver reads.
* **`calc_bw_exp_iff`** — the bandwidths that are read back.
* **`calc_bw_exp_one`** — one that is not.
-/

namespace FreeSwitch.Rtcp

/-- `tmmbx->parts`. -/
structure TmmbxParts where
  p0 : UInt8
  p1 : UInt8
  p2 : UInt8
  p3 : UInt8

def overhead : UInt16 := 60

/-- `(1 << bits) - 1`. -/
def mantissaMax (bits : UInt8) : UInt32 := (1 <<< bits.toUInt32) - 1

/-- The first `i` for which the bandwidth is not too large; `exp` is 0 before the loop. -/
def exponent (bps : UInt32) (bits : UInt8) : Nat :=
  ((List.range 32).find? fun i => bps ≤ mantissaMax bits <<< UInt32.ofNat i).getD 0

def calcBwExp (bps : UInt32) (bits : UInt8) : TmmbxParts :=
  let exp := UInt32.ofNat (exponent bps bits)
  let mantissa := bps >>> exp
  { p0 := ((exp <<< 2) + ((mantissa >>> 15) &&& 0x03)).toUInt8
    p1 := (mantissa >>> 7).toUInt8
    p2 := ((mantissa >>> 1) + ((overhead >>> 8) &&& 0x01).toUInt32).toUInt8
    p3 := overhead.toUInt8 }

/-! ## What a receiver reads -/

namespace TmmbxParts

variable (parts : TmmbxParts)

/-- The four bytes in network order. -/
def word : Nat :=
  parts.p0.toNat * 2 ^ 24 + parts.p1.toNat * 2 ^ 16 + parts.p2.toNat * 2 ^ 8 + parts.p3.toNat

def expField : Nat := parts.word / 2 ^ 26
def mantissaField : Nat := parts.word / 2 ^ 9 % 2 ^ 17
def overheadField : Nat := parts.word % 2 ^ 9

end TmmbxParts

/-- The bandwidth is read back, up to what the exponent cuts off, and the overhead is. -/
def Conveys (bps : Nat) (parts : TmmbxParts) : Prop :=
  parts.mantissaField * 2 ^ parts.expField ≤ bps ∧ bps < (parts.mantissaField + 1) * 2 ^ parts.expField
    ∧ parts.overheadField = 60

/-- `e` is the least exponent with which the bandwidth has a mantissa of 17 bits. -/
structure LeastExponent (bps e : Nat) : Prop where
  fits : bps ≤ (2 ^ 17 - 1) * 2 ^ e
  least : ∀ i < e, (2 ^ 17 - 1) * 2 ^ i < bps

/-! ## The loop -/

theorem toNat_limit {i : Nat} (h : i < 32) :
    (mantissaMax 17 <<< UInt32.ofNat i).toNat = (2 ^ 17 - 1) * 2 ^ i % 2 ^ 32 := by
  have hall : ∀ i : Fin 32,
      (mantissaMax 17 <<< UInt32.ofNat i).toNat = (2 ^ 17 - 1) * 2 ^ i.val % 2 ^ 32 := by decide
  exact hall ⟨i, h⟩

/-- Below 16 the limit is the one that is meant. -/
theorem le_limit_iff (bps : UInt32) {i : Nat} (h : i < 16) :
    bps ≤ mantissaMax 17 <<< UInt32.ofNat i ↔ bps.toNat ≤ (2 ^ 17 - 1) * 2 ^ i := by
  have hpow : 2 ^ i ≤ 2 ^ 15 := Nat.pow_le_pow_right (by decide) (by omega)
  rw [UInt32.le_iff_toNat_le, toNat_limit (by omega), Nat.mod_eq_of_lt (by omega)]

/-- From 16 on it wraps, and comes down again. -/
theorem limit_lt {bps : UInt32} {i : Nat} (hbps : (2 ^ 17 - 1) * 2 ^ 15 < bps.toNat) (h : 16 ≤ i)
    (hi : i < 32) :
    mantissaMax 17 <<< UInt32.ofNat i < bps := by
  have hpow : 2 ^ 16 ≤ 2 ^ i := Nat.pow_le_pow_right (by decide) h
  have hpow' : 2 ^ i ≤ 2 ^ 31 := Nat.pow_le_pow_right (by decide) (by omega)
  obtain ⟨k, rfl⟩ := Nat.exists_eq_add_of_le h
  have hlarge : 2 ^ 17 * 2 ^ (16 + k) = 2 ^ 32 * (2 * 2 ^ k) := by rw [pow_add]; ring
  rw [UInt32.lt_iff_toNat_lt, toNat_limit hi]
  omega

theorem exponent_eq {bps : UInt32} {e : Nat} (h : LeastExponent bps.toNat e) (he : e < 16) :
    exponent bps 17 = e := by
  have hfind : (List.range 32).find? (fun i => bps ≤ mantissaMax 17 <<< UInt32.ofNat i) = some e := by
    rw [List.find?_range_eq_some]
    refine ⟨?_, ?_, ?_⟩
    · exact decide_eq_true ((le_limit_iff bps he).mpr h.fits)
    · exact List.mem_range.mpr (by omega)
    · intro i hi
      have hlt := h.least i hi
      simp only [Bool.not_eq_true', decide_eq_false_iff_not]
      rw [le_limit_iff bps (by omega)]
      omega
  rw [exponent, hfind]
  rfl

/-- For the largest bandwidths there is none. -/
theorem exponent_eq_zero {bps : UInt32} (hbps : (2 ^ 17 - 1) * 2 ^ 15 < bps.toNat) :
    exponent bps 17 = 0 := by
  have hfind : (List.range 32).find? (fun i => bps ≤ mantissaMax 17 <<< UInt32.ofNat i) = none := by
    rw [List.find?_eq_none]
    intro i hi
    have hi := List.mem_range.mp hi
    rw [decide_eq_true_eq]
    by_cases h : i < 16
    · have hpow : 2 ^ i ≤ 2 ^ 15 := Nat.pow_le_pow_right (by decide) (by omega)
      rw [le_limit_iff bps h]
      omega
    · exact UInt32.not_le.mpr (limit_lt hbps (by omega) hi)
  rw [exponent, hfind]
  rfl

theorem exists_leastExponent {bps : Nat} (h : bps ≤ (2 ^ 17 - 1) * 2 ^ 15) :
    ∃ e < 16, LeastExponent bps e := by
  have hex : ∃ e, bps ≤ (2 ^ 17 - 1) * 2 ^ e := ⟨15, h⟩
  exact ⟨Nat.find hex, Nat.lt_succ_of_le (Nat.find_min' hex h), Nat.find_spec hex,
    fun i hi => not_le.mp (Nat.find_min hex hi)⟩

/-! ## The four bytes -/

/-- What is read in place of the mantissa `m`: the lowest 7 bits are its bits 2 to 8, and bit 1 is in
the overhead. -/
structure Fields (parts : TmmbxParts) (e m : Nat) : Prop where
  exp : parts.expField = e
  mantissa : parts.mantissaField = m / 2 ^ 7 % 2 ^ 10 * 2 ^ 7 + m / 4 % 2 ^ 7
  overhead : parts.overheadField = m / 2 % 2 * 2 ^ 8 + 60

theorem fields_calcBwExp {bps : UInt32} {e : Nat} (hexp : exponent bps 17 = e) (he : e < 16) :
    Fields (calcBwExp bps 17) e (bps.toNat / 2 ^ e) := by
  have hword : (UInt32.ofNat e).toNat = e := by
    rw [UInt32.toNat_ofNat', Nat.mod_eq_of_lt (by omega)]
  have hshift : (bps >>> UInt32.ofNat e).toNat = bps.toNat / 2 ^ e := by
    rw [UInt32.toNat_shiftRight, hword, Nat.mod_eq_of_lt (by omega), Nat.shiftRight_eq_div_pow]
  generalize hm : bps.toNat / 2 ^ e = m at hshift
  have hp0 : (calcBwExp bps 17).p0.toNat = e * 4 + m / 2 ^ 15 % 4 := by
    have hand : ((bps >>> UInt32.ofNat e >>> 15) &&& 0x03).toNat = m / 2 ^ 15 % 4 := by
      rw [UInt32.toNat_and, UInt32.toNat_shiftRight, hshift, show UInt32.toNat 3 = 2 ^ 2 - 1 from rfl,
        Nat.and_two_pow_sub_one_eq_mod, show UInt32.toNat 15 % 32 = 15 from rfl,
        Nat.shiftRight_eq_div_pow]
    have hleft : (UInt32.ofNat e <<< 2).toNat = e * 4 := by
      rw [UInt32.toNat_shiftLeft, hword, show UInt32.toNat 2 % 32 = 2 from rfl, Nat.shiftLeft_eq]
      omega
    show (UInt32.toUInt8 _).toNat = _
    rw [UInt32.toNat_toUInt8, hexp, UInt32.toNat_add, hand, hleft]
    omega
  have hp1 : (calcBwExp bps 17).p1.toNat = m / 2 ^ 7 % 2 ^ 8 := by
    show (UInt32.toUInt8 _).toNat = _
    rw [UInt32.toNat_toUInt8, hexp, UInt32.toNat_shiftRight, hshift,
      show UInt32.toNat 7 % 32 = 7 from rfl,
      Nat.shiftRight_eq_div_pow]
  have hp2 : (calcBwExp bps 17).p2.toNat = m / 2 % 2 ^ 8 := by
    show (UInt32.toUInt8 (_ + 0)).toNat = _
    rw [UInt32.toNat_toUInt8, UInt32.add_zero, hexp, UInt32.toNat_shiftRight, hshift,
      show UInt32.toNat 1 % 32 = 1 from rfl,
      Nat.shiftRight_eq_div_pow, pow_one]
  have hp3 : (calcBwExp bps 17).p3.toNat = 60 := rfl
  constructor
  · rw [TmmbxParts.expField, TmmbxParts.word, hp0, hp1, hp2, hp3]
    omega
  · have hhigh : m / 2 ^ 15 = m / 2 ^ 7 / 2 ^ 8 := by rw [Nat.div_div_eq_div_mul, ← pow_add]
    have hlow : m / 2 % 2 ^ 8 / 2 = m / 4 % 2 ^ 7 := by omega
    rw [TmmbxParts.mantissaField, TmmbxParts.word, hp0, hp1, hp2, hp3, hhigh, ← hlow]
    omega
  · rw [TmmbxParts.overheadField, TmmbxParts.word, hp0, hp1, hp2, hp3]
    omega

/-- The mantissas that survive: bits 0 to 8 are all 0, or alternate. -/
theorem mantissa_survives_iff {m : Nat} (h : m < 2 ^ 17) :
    m / 2 ^ 7 % 2 ^ 10 * 2 ^ 7 + m / 4 % 2 ^ 7 = m ∧ m / 2 % 2 * 2 ^ 8 + 60 = 60 ↔ m % 512 = 0
    ∨ m % 512 = 341 := by
  have hlow : ∀ r : Fin 512, (r.val % 2 ^ 7 = r.val / 4 ∧ r.val / 2 % 2 = 0) ↔ r.val = 0
      ∨ r.val = 341 := by decide +kernel
  have h7 : m % 512 % 2 ^ 7 = m % 2 ^ 7 := Nat.mod_mod_of_dvd m (by decide)
  have h4 : m % 512 / 4 = m / 4 % 2 ^ 7 := by omega
  have h2 : m % 512 / 2 % 2 = m / 2 % 2 := by omega
  have hr := hlow ⟨m % 512, Nat.mod_lt _ (by decide)⟩
  rw [h7, h4, h2] at hr
  rw [← hr]
  omega

/-- The exponent, the mantissa and the overhead that are sent are right exactly if the bandwidth has an
exponent below 16 and the lowest 9 bits of its mantissa are 000000000 or 101010101. -/
theorem calc_bw_exp_iff (bps : UInt32) :
    Conveys bps.toNat (calcBwExp bps 17)
      ↔ ∃ e < 16, LeastExponent bps.toNat e
      ∧ (bps.toNat / 2 ^ e % 512 = 0 ∨ bps.toNat / 2 ^ e % 512 = 341) := by
  by_cases hlarge : (2 ^ 17 - 1) * 2 ^ 15 < bps.toNat
  · -- the exponent is 0, and no mantissa is as large as the bandwidth
    have hfields := fields_calcBwExp (exponent_eq_zero hlarge) (by decide)
    constructor
    · rintro ⟨-, hlt, -⟩
      rw [hfields.exp, hfields.mantissa, pow_zero, Nat.mul_one] at hlt
      omega
    · rintro ⟨e, he, hleast, -⟩
      have hpow : 2 ^ e ≤ 2 ^ 15 := Nat.pow_le_pow_right (by decide) (by omega)
      have hfits := hleast.fits
      omega
  · obtain ⟨e, he, hleast⟩ := exists_leastExponent (not_lt.mp hlarge)
    have hfields := fields_calcBwExp (exponent_eq hleast he) he
    have hpos : 0 < 2 ^ e := Nat.two_pow_pos e
    have hm : bps.toNat / 2 ^ e < 2 ^ 17 := by
      have hfits := hleast.fits
      exact Nat.div_lt_of_lt_mul (by rw [Nat.mul_comm]; omega)
    have honly : ∀ e', LeastExponent bps.toNat e' → e' = e := by
      intro e' h'
      refine le_antisymm (not_lt.mp fun hlt => ?_) (not_lt.mp fun hlt => ?_)
      · exact absurd hleast.fits (not_le.mpr (h'.least e hlt))
      · exact absurd h'.fits (not_le.mpr (hleast.least e' hlt))
    have hcut : ∀ c, (c * 2 ^ e ≤ bps.toNat ∧ bps.toNat < (c + 1) * 2 ^ e) ↔ c = bps.toNat / 2 ^ e := by
      intro c
      rw [eq_comm, Nat.div_eq_iff hpos, Nat.mul_comm (c + 1)]
      have hsucc : 2 ^ e * (c + 1) = c * 2 ^ e + 2 ^ e := by ring
      omega
    rw [Conveys, hfields.exp, hfields.mantissa, hfields.overhead, ← and_assoc, hcut,
      mantissa_survives_iff hm]
    constructor
    · exact fun hlow => ⟨e, he, hleast, hlow⟩
    · rintro ⟨e', -, hleast', hlow⟩
      rwa [honly e' hleast'] at hlow

/-- A bandwidth of 1 is not read back. -/
theorem calc_bw_exp_one : ¬Conveys 1 (calcBwExp 1 17) := by
  rintro ⟨-, hlt, -⟩
  exact absurd hlt (by decide)

end FreeSwitch.Rtcp
