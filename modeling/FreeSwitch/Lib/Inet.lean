import FreeSwitch.Lib.CString
import FreeSwitch.Lib.Bytes

/-!
# Dotted addresses

`inet_pton(AF_INET, ..)` as the C library has it: four decimal numbers up to 255 without leading
zeros, with dots between them. The address is stored in network order.

* **`inetPton4_dotted`** — the text of an address is read back.
* **`htonl_word32`** — the stored bytes as a number of the host.
-/

namespace Inet

open CString Bytes

/-- Decimal digits of a number below 1000, without leading zeros. -/
def decimal (n : Nat) : Str :=
  if n < 10 then [UInt8.ofNat (48 + n)]
  else if n < 100 then [UInt8.ofNat (48 + n / 10), UInt8.ofNat (48 + n % 10)]
  else [UInt8.ofNat (48 + n / 100), UInt8.ofNat (48 + n / 10 % 10), UInt8.ofNat (48 + n % 10)]

/-- `a.b.c.d`. -/
def dotted (a b c d : UInt8) : Str :=
  decimal a.toNat ++ 46 :: (decimal b.toNat ++ 46 :: (decimal c.toNat ++ 46 :: decimal d.toNat))

/-- The scan of `inet_pton4`: the octets that are complete, the one being read, how many have been
begun, and whether this one has a digit. -/
def scan : Str → List Nat → Nat → Nat → Bool → Option (List Nat)
  | [], done, octet, octets, _ => if octets < 4 then none else some (done ++ [octet])
  | ch :: s, done, octet, octets, sawDigit =>
    if isDigit ch then
      let new := octet * 10 + (ch.toNat - 48)
      if sawDigit && octet == 0 then none
      else if 255 < new then none
      else if sawDigit then scan s done new octets true
      else if octets + 1 > 4 then none
      else scan s done new (octets + 1) true
    else if ch == 46 && sawDigit then
      if octets == 4 then none else scan s (done ++ [octet]) 0 octets false
    else none

/-- The four bytes in network order. -/
def inetPton4 (s : Str) : Option (List UInt8) :=
  (scan s [] 0 0 false).map fun octets => octets.map UInt8.ofNat

/-! ## Reading what `dotted` writes -/

theorem isDigit_ofNat {n : Nat} (h : n < 10) : isDigit (UInt8.ofNat (48 + n)) = true := by
  interval_cases n <;> decide

theorem toNat_digit {n : Nat} (h : n < 10) : (UInt8.ofNat (48 + n)).toNat - 48 = n := by
  interval_cases n <;> decide

/-- A digit behind others. -/
theorem scan_digit {n octet : Nat} (h : n < 10) (hpos : 0 < octet)
    (hle : octet * 10 + n ≤ 255) (s : Str) (done : List Nat) (octets : Nat) :
    scan (UInt8.ofNat (48 + n) :: s) done octet octets true =
      scan s done (octet * 10 + n) octets true := by
  have hne : (octet == 0) = false := by
    rw [beq_eq_false_iff_ne]
    omega
  rw [scan, isDigit_ofNat h, if_pos rfl, toNat_digit h, hne]
  show (if 255 < octet * 10 + n then none else scan s done (octet * 10 + n) octets true) = _
  rw [if_neg (by omega)]

/-- The first digit of an octet. -/
theorem scan_first_digit {n octets : Nat} (h : n < 10) (hoctets : octets < 4) (s : Str)
    (done : List Nat) :
    scan (UInt8.ofNat (48 + n) :: s) done 0 octets false = scan s done n (octets + 1) true := by
  rw [scan, isDigit_ofNat h, if_pos rfl, toNat_digit h, Nat.zero_mul, Nat.zero_add]
  show (if 255 < n then none else if octets + 1 > 4 then none else scan s done n (octets + 1) true) = _
  rw [if_neg (by omega), if_neg (by omega)]

theorem scan_decimal {n octets : Nat} (h : n ≤ 255) (hoctets : octets < 4) (s : Str) (done : List Nat) :
    scan (decimal n ++ s) done 0 octets false = scan s done n (octets + 1) true := by
  unfold decimal
  split
  · exact scan_first_digit (by omega) hoctets s done
  · split
    · rw [List.cons_append, List.cons_append, List.nil_append, scan_first_digit (by omega) hoctets,
        scan_digit (by omega) (by omega) (by omega)]
      congr 1
      omega
    · rw [List.cons_append, List.cons_append, List.cons_append, List.nil_append,
        scan_first_digit (by omega) hoctets, scan_digit (by omega) (by omega) (by omega),
        scan_digit (by omega) (by omega) (by omega)]
      congr 1
      omega

theorem scan_dot {octets : Nat} (hoctets : octets < 4) (octet : Nat) (s : Str) (done : List Nat) :
    scan (46 :: s) done octet octets true = scan s (done ++ [octet]) 0 octets false := by
  have hne : (octets == 4) = false := by
    rw [beq_eq_false_iff_ne]
    omega
  rw [scan, hne]
  rfl

theorem inetPton4_dotted (a b c d : UInt8) : inetPton4 (dotted a b c d) = some [a, b, c, d] := by
  have hle : ∀ x : UInt8, x.toNat ≤ 255 := fun x => Nat.le_of_lt_succ x.toNat_lt
  have hscan : scan (dotted a b c d) [] 0 0 false = some [a.toNat, b.toNat, c.toNat, d.toNat] := by
    rw [dotted, scan_decimal (hle a) (by omega), scan_dot (by omega), scan_decimal (hle b) (by omega),
      scan_dot (by omega), scan_decimal (hle c) (by omega), scan_dot (by omega),
      ← List.append_nil (decimal d.toNat), scan_decimal (hle d) (by omega)]
    rfl
  rw [inetPton4, hscan]
  simp only [Option.map_some, List.map_cons, List.map_nil, UInt8.ofNat_toNat]

/-! ## The stored bytes -/

/-- Four bytes read as a word of the host. -/
def word32 (a b c d : UInt8) : UInt32 :=
  UInt32.ofNat (a.toNat + 256 * b.toNat + 2 ^ 16 * c.toNat + 2 ^ 24 * d.toNat)

/-- The number an address stands for. -/
def address (a b c d : UInt8) : UInt32 :=
  UInt32.ofNat (a.toNat * 2 ^ 24 + b.toNat * 2 ^ 16 + c.toNat * 256 + d.toNat)

theorem htonl_word32 (a b c d : UInt8) : htonl (word32 a b c d) = address a b c d := by
  obtain ⟨ha, hb, hc, hd, hlt⟩ := swap_bytes a.toNat_lt b.toNat_lt c.toNat_lt d.toNat_lt
  rw [htonl, word32, address, UInt32.toNat_ofNat', Nat.mod_eq_of_lt hlt, ha, hb, hc, hd]

end Inet
