import FreeSwitch.Lib.CString

/-!
# URL encoding — `switch_url_encode_opt`, `src/switch_utils.c`

A byte that is not printable or is one of `SWITCH_URL_UNSAFE` becomes a percent sign and two hex
digits; a percent sign that already stands before two hex digits is left alone. The encoder stops
silently where its buffer ends.

* **`urlEncode`**, **`urlEncoding`** — the whole encoding, with no limit.
* **`urlEncodeLoop_eq_iff`** — the buffer holds all of it exactly if it is long enough.
-/

namespace FreeSwitch.Event

open CString

/-- `SWITCH_URL_UNSAFE`. -/
def urlUnsafe : Str :=
  [13, 10, 32, 35, 37, 38, 43, 58, 59, 60, 61, 62, 63, 64, 91, 92, 93, 94, 96, 123, 124, 125, 34]

def hexDigits : Str := bytes "0123456789ABCDEF"

/-- `%XX`. -/
def percent (c : UInt8) : Str :=
  [37, hexDigits.getD (c.toNat / 16) 0, hexDigits.getD (c.toNat % 16) 0]

/-- The byte is copied: it is harmless, or (without `double_encode`) the percent sign of an
encoding. -/
def copied (doubleEncode : Bool) (c : UInt8) (rest : Str) : Bool :=
  (!doubleEncode && c == 37 &&
      match rest with
      | a :: b :: _ => hexDigits.contains a && hexDigits.contains b
      | _ => false) ||
    (32 ≤ c && c ≤ 126 && !urlUnsafe.contains c)

/-- The loop of `switch_url_encode_opt`: `x` bytes are written, and `len` is the limit after
`len--`. -/
def urlEncodeLoop (doubleEncode : Bool) (len : Nat) : Nat → Str → Str
  | _, [] => []
  | x, c :: rest =>
    if len ≤ x then []
    else if copied doubleEncode c rest then c :: urlEncodeLoop doubleEncode len (x + 1) rest
    else if len < x + 3 then []
    else percent c ++ urlEncodeLoop doubleEncode len (x + 3) rest

/-- Into a buffer of `len` bytes. -/
def switchUrlEncodeOpt (url : Str) (len : Nat) (doubleEncode : Bool) : Str :=
  urlEncodeLoop doubleEncode (len - 1) 0 url

def switchUrlEncode (url : Str) (len : Nat) : Str := switchUrlEncodeOpt url len false

/-- What a buffer without limit would hold. -/
def urlEncode : Str → Str
  | [] => []
  | c :: rest => (if copied false c rest then [c] else percent c) ++ urlEncode rest

/-- The same with either value of `double_encode`. -/
def urlEncoding (doubleEncode : Bool) : Str → Str
  | [] => []
  | c :: rest => (if copied doubleEncode c rest then [c] else percent c) ++
    urlEncoding doubleEncode rest

theorem urlEncode_eq (s : Str) : urlEncode s = urlEncoding false s := by
  induction s with
  | nil => rfl
  | cons c s ih => rw [urlEncode, urlEncoding, ih]

theorem length_percent (c : UInt8) : (percent c).length = 3 := rfl

theorem urlEncode_eq_nil_iff {s : Str} : urlEncode s = [] ↔ s = [] := by
  cases s with
  | nil => simp [urlEncode]
  | cons c s => by_cases h : copied false c s <;> simp [urlEncode, h, percent]

section

variable (doubleEncode : Bool) (len : Nat)

/-- The loop writes a beginning of the encoding. -/
theorem urlEncodeLoop_begins (x : Nat) (s : Str) :
    urlEncodeLoop doubleEncode len x s <+: urlEncoding doubleEncode s := by
  induction s generalizing x with
  | nil => exact List.prefix_rfl
  | cons c s ih =>
    rw [urlEncodeLoop, urlEncoding]
    split
    · exact List.nil_prefix
    · split
      · exact (List.prefix_append_right_inj [c]).mpr (ih _)
      · split
        · exact List.nil_prefix
        · exact (List.prefix_append_right_inj (percent c)).mpr (ih _)

theorem urlEncodeLoop_le {x : Nat} (s : Str) (hx : x ≤ len) :
    x + (urlEncodeLoop doubleEncode len x s).length ≤ len := by
  induction s generalizing x with
  | nil => exact hx
  | cons c s ih =>
    rw [urlEncodeLoop]
    split
    · exact hx
    · split
      · have := @ih (x + 1) (by omega)
        rw [List.length_cons]
        omega
      · split
        · exact hx
        · have := @ih (x + 3) (by omega)
          rw [List.length_append, length_percent]
          omega

theorem urlEncodeLoop_eq_iff (x : Nat) (s : Str) (hx : x ≤ len) :
    urlEncodeLoop doubleEncode len x s = urlEncoding doubleEncode s ↔
      x + (urlEncoding doubleEncode s).length ≤ len := by
  refine ⟨fun h => h ▸ urlEncodeLoop_le doubleEncode len s hx, fun h => ?_⟩
  induction s generalizing x with
  | nil => rfl
  | cons c s ih =>
    rw [urlEncodeLoop]
    rw [urlEncoding] at h ⊢
    by_cases hcopied : copied doubleEncode c s
    · rw [if_pos hcopied, List.singleton_append, List.length_cons] at h
      rw [if_pos hcopied, if_neg (by omega), if_pos hcopied, ih (x + 1) (by omega) (by omega)]
      rfl
    · rw [if_neg hcopied, List.length_append, length_percent] at h
      rw [if_neg hcopied, if_neg (by omega), if_neg hcopied, if_neg (by omega),
        ih (x + 3) (by omega) (by omega)]

end

theorem switchUrlEncodeOpt_eq_iff {s : Str} {len : Nat} (doubleEncode : Bool) (hlen : 0 < len) :
    switchUrlEncodeOpt s len doubleEncode = urlEncoding doubleEncode s ↔
      (urlEncoding doubleEncode s).length < len := by
  rw [switchUrlEncodeOpt, urlEncodeLoop_eq_iff doubleEncode _ 0 s (Nat.zero_le _)]
  omega

/-- A buffer of at least four bytes holds the encoding of the first byte. -/
theorem switchUrlEncode_eq_nil_iff {s : Str} {len : Nat} (hlen : 4 ≤ len) :
    switchUrlEncode s len = [] ↔ s = [] := by
  unfold switchUrlEncode switchUrlEncodeOpt
  cases s with
  | nil => simp [urlEncodeLoop]
  | cons c s =>
    have hpos : ¬ len - 1 ≤ 0 := by omega
    have hthree : ¬ len - 1 < 3 := by omega
    by_cases h : copied false c s <;>
      simp [urlEncodeLoop, hpos, hthree, h, percent]

theorem switchUrlEncode_eq_iff {s : Str} {len : Nat} (hlen : 0 < len) :
    switchUrlEncode s len = urlEncode s ↔ (urlEncode s).length < len := by
  rw [urlEncode_eq]
  exact switchUrlEncodeOpt_eq_iff false hlen

theorem length_switchUrlEncode_le (s : Str) (len : Nat) :
    (switchUrlEncode s len).length ≤ (urlEncode s).length := by
  rw [urlEncode_eq]
  exact (urlEncodeLoop_begins false _ _ _).length_le

end FreeSwitch.Event
