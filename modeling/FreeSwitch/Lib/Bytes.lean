import Mathlib.Tactic

/-!
# Byte order and byte memory on a little-endian host

`htons` and `htonl` reverse the bytes of a word; on a little-endian host they are their own inverses,
`ntohs` and `ntohl`. `Mem` is a byte memory without bounds: who writes where is what the proofs about it
are for.

* **`htons_htons`**, **`htonl_htonl`** — swapping twice gives the word back.
* **`Mem.load16_store16`** — a stored word is loaded back.
* **`Mem.read_congr`**, **`Mem.load16_congr`** — a read depends on the bytes it covers only.
* **`Mem.read_write`**, **`bytes32_load32`**, **`bytes32_htonl`** — what was written, and words as
  bytes.
-/

namespace Bytes

/-! ## Byte order -/

def htons (x : UInt16) : UInt16 := UInt16.ofNat (x.toNat % 256 * 256 + x.toNat / 256)

def ntohs (x : UInt16) : UInt16 := htons x

def htonl (x : UInt32) : UInt32 :=
  UInt32.ofNat (x.toNat % 256 * 2 ^ 24 + x.toNat / 256 % 256 * 2 ^ 16
    + x.toNat / 2 ^ 16 % 256 * 256 + x.toNat / 2 ^ 24)

def ntohl (x : UInt32) : UInt32 := htonl x

theorem toNat_htons (x : UInt16) : (htons x).toNat = x.toNat % 256 * 256 + x.toNat / 256 := by
  have hx := x.toNat_lt
  rw [htons, UInt16.toNat_ofNat']
  omega

theorem toNat_ntohs (x : UInt16) : (ntohs x).toNat = x.toNat % 256 * 256 + x.toNat / 256 :=
  toNat_htons x

theorem htons_htons (x : UInt16) : htons (htons x) = x := by
  have hx := x.toNat_lt
  apply UInt16.toNat.inj
  rw [toNat_htons, toNat_htons]
  omega

theorem ntohs_htons (x : UInt16) : ntohs (htons x) = x := htons_htons x

variable {a : Nat}

theorem swap_bytes {b c d : Nat} (ha : a < 256) (hb : b < 256) (hc : c < 256) (hd : d < 256) :
    let n := a + 256 * b + 2 ^ 16 * c + 2 ^ 24 * d
    n % 256 = a ∧ n / 256 % 256 = b ∧ n / 2 ^ 16 % 256 = c ∧ n / 2 ^ 24 = d ∧ n < 2 ^ 32 := by
  norm_num only
  refine ⟨?_, ?_, ?_, ?_, ?_⟩ <;> omega

/-- The bytes of a word. -/
theorem exists_bytes (x : UInt32) : ∃ a b c d : Nat, a < 256 ∧ b < 256 ∧ c < 256 ∧ d < 256
    ∧ x.toNat = a + 256 * b + 2 ^ 16 * c + 2 ^ 24 * d
    ∧ (htonl x).toNat = d + 256 * c + 2 ^ 16 * b + 2 ^ 24 * a := by
  have hx := x.toNat_lt
  refine ⟨x.toNat % 256, x.toNat / 256 % 256, x.toNat / 2 ^ 16 % 256, x.toNat / 2 ^ 24, by omega,
    by omega, by omega,
    by omega, by omega, ?_⟩
  rw [htonl, UInt32.toNat_ofNat', Nat.mod_eq_of_lt (by omega)]
  omega

theorem htonl_htonl (x : UInt32) : htonl (htonl x) = x := by
  obtain ⟨a, b, c, d, ha, hb, hc, hd, hx, hswap⟩ := exists_bytes x
  obtain ⟨hd', hc', hb', ha', hlt⟩ := swap_bytes hd hc hb ha
  rw [htonl, hswap, hd', hc', hb', ha']
  apply UInt32.toNat.inj
  rw [UInt32.toNat_ofNat', hx, Nat.mod_eq_of_lt (by omega)]
  omega

/-- The three low bytes, put in network order. -/
theorem htonl_shiftRight_eq_zero_iff (x : UInt32) : htonl x >>> 8 = 0 ↔ x.toNat % 2 ^ 24 = 0 := by
  obtain ⟨a, b, c, d, ha, hb, hc, hd, hx, hswap⟩ := exists_bytes x
  have hshift : (htonl x >>> 8).toNat = c + 256 * b + 2 ^ 16 * a := by
    rw [UInt32.toNat_shiftRight, hswap, show UInt32.toNat 8 % 32 = 8 from rfl,
      Nat.shiftRight_eq_div_pow]
    omega
  rw [← UInt32.toNat_inj, hshift, hx]
  show _ = 0 ↔ _
  omega

/-! ## Memory -/

abbrev Mem := Nat → UInt8

/-- `n` bytes from address `a` on. -/
def Mem.read (m : Mem) (a n : Nat) : List UInt8 := (List.range n).map fun i => m (a + i)

/-- The bytes `bs` put at address `a`. -/
def Mem.write (m : Mem) (a : Nat) (bs : List UInt8) : Mem :=
  fun i => if a ≤ i ∧ i < a + bs.length then bs.getD (i - a) 0 else m i

def Mem.load16 (m : Mem) (a : Nat) : UInt16 :=
  UInt16.ofNat ((m a).toNat + 256 * (m (a + 1)).toNat)

def Mem.load32 (m : Mem) (a : Nat) : UInt32 :=
  UInt32.ofNat ((m a).toNat + 256 * (m (a + 1)).toNat + 2 ^ 16 * (m (a + 2)).toNat
    + 2 ^ 24 * (m (a + 3)).toNat)

def Mem.store16 (m : Mem) (a : Nat) (v : UInt16) : Mem :=
  m.write a [UInt8.ofNat v.toNat, UInt8.ofNat (v.toNat / 256)]

/-- The four bytes of a word as a little-endian store lays them out. -/
def bytes32 (v : UInt32) : List UInt8 :=
  [UInt8.ofNat v.toNat, UInt8.ofNat (v.toNat / 256), UInt8.ofNat (v.toNat / 2 ^ 16),
    UInt8.ofNat (v.toNat / 2 ^ 24)]

theorem Mem.write_of_not_mem {m : Mem} {i : Nat} {bs : List UInt8}
    (h : i < a ∨ a + bs.length ≤ i) : m.write a bs i = m i := by
  unfold Mem.write
  rw [if_neg (by omega)]

theorem Mem.store16_of_not_mem {m : Mem} {i : Nat} {v : UInt16} (h : i < a ∨ a + 2 ≤ i) :
    m.store16 a v i = m i :=
  Mem.write_of_not_mem (by simpa using h)

theorem Mem.load16_store16 (m : Mem) (a : Nat) (v : UInt16) : (m.store16 a v).load16 a = v := by
  have hv := v.toNat_lt
  have hlo : m.store16 a v a = UInt8.ofNat v.toNat := by simp [Mem.store16, Mem.write]
  have hhi : m.store16 a v (a + 1) = UInt8.ofNat (v.toNat / 256) := by
    simp [Mem.store16, Mem.write]
  apply UInt16.toNat.inj
  rw [Mem.load16, hlo, hhi, UInt16.toNat_ofNat', UInt8.toNat_ofNat', UInt8.toNat_ofNat']
  omega

theorem Mem.load16_congr {m m' : Mem} (h : ∀ i, a ≤ i → i < a + 2 → m' i = m i) :
    m'.load16 a = m.load16 a := by
  rw [Mem.load16, Mem.load16, h a (by omega) (by omega), h (a + 1) (by omega) (by omega)]

theorem Mem.read_congr {m m' : Mem} {n : Nat} (h : ∀ i, a ≤ i → i < a + n → m' i = m i) :
    m'.read a n = m.read a n := by
  apply List.map_congr_left
  intro i hi
  exact h (a + i) (by omega) (by have := List.mem_range.mp hi; omega)

theorem Mem.length_read (m : Mem) (a n : Nat) : (m.read a n).length = n := by
  rw [Mem.read, List.length_map, List.length_range]

theorem Mem.read_add (m : Mem) (a i j : Nat) : m.read a (i + j) = m.read a i ++ m.read (a + i) j := by
  unfold Mem.read
  rw [List.range_add, List.map_append, List.map_map]
  simp only [Function.comp_def, Nat.add_assoc]

theorem Mem.read_write (m : Mem) (a : Nat) (bs : List UInt8) :
    (m.write a bs).read a bs.length = bs := by
  refine List.ext_getElem (by rw [Mem.length_read]) fun i hi hi' => ?_
  simp only [Mem.read, List.getElem_map, List.getElem_range, Mem.write]
  rw [if_pos (by omega), Nat.add_sub_cancel_left, List.getD_eq_getElem?_getD,
    List.getElem?_eq_getElem hi', Option.getD_some]

theorem Mem.read_write_of_not_mem {m : Mem} {b n : Nat} {bs : List UInt8}
    (h : a + n ≤ b ∨ b + bs.length ≤ a) :
    (m.write b bs).read a n = m.read a n :=
  Mem.read_congr fun i hi hi' => Mem.write_of_not_mem (by omega)

theorem Mem.load16_write_of_not_mem {m : Mem} {b : Nat} {bs : List UInt8}
    (h : a + 2 ≤ b ∨ b + bs.length ≤ a) :
    (m.write b bs).load16 a = m.load16 a :=
  Mem.load16_congr fun i hi hi' => Mem.write_of_not_mem (by omega)

theorem Mem.load16_store16_of_not_mem {m : Mem} {b : Nat} (h : a + 2 ≤ b ∨ b + 2 ≤ a) (v : UInt16) :
    (m.store16 b v).load16 a = m.load16 a :=
  Mem.load16_write_of_not_mem h

/-- The memory of a word that was loaded. -/
theorem bytes32_load32 (m : Mem) (a : Nat) : bytes32 (m.load32 a) = m.read a 4 := by
  obtain ⟨h₀, h₁, h₂, h₃, hlt⟩ :=
    swap_bytes (m a).toNat_lt (m (a + 1)).toNat_lt (m (a + 2)).toNat_lt (m (a + 3)).toNat_lt
  have hbyte : ∀ {n : Nat} {x : UInt8}, n % 256 = x.toNat → UInt8.ofNat n = x := fun h =>
    UInt8.toNat.inj (by rw [UInt8.toNat_ofNat', h])
  rw [bytes32, Mem.load32, UInt32.toNat_ofNat', Nat.mod_eq_of_lt hlt, hbyte h₀, hbyte h₁, hbyte h₂,
    hbyte ((congrArg (· % 256) h₃).trans (Nat.mod_eq_of_lt (m (a + 3)).toNat_lt))]
  rfl

theorem bytes32_htonl (x : UInt32) : bytes32 (htonl x) = (bytes32 x).reverse := by
  obtain ⟨a, b, c, d, ha, hb, hc, hd, hx, hswap⟩ := exists_bytes x
  have hbyte : ∀ {n k : Nat}, n % 256 = k % 256 → UInt8.ofNat n = UInt8.ofNat k := fun h =>
    UInt8.toNat.inj (by rw [UInt8.toNat_ofNat', UInt8.toNat_ofNat', h])
  obtain ⟨h₀, h₁, h₂, h₃, -⟩ := swap_bytes ha hb hc hd
  obtain ⟨s₀, s₁, s₂, s₃, -⟩ := swap_bytes hd hc hb ha
  rw [← hx] at h₀ h₁ h₂ h₃
  rw [← hswap] at s₀ s₁ s₂ s₃
  clear hx hswap
  show _ = [_, _, _, _]
  refine List.cons_eq_cons.mpr ⟨hbyte ?_,
    List.cons_eq_cons.mpr ⟨hbyte ?_, List.cons_eq_cons.mpr ⟨hbyte ?_,
    List.cons_eq_cons.mpr ⟨hbyte ?_, rfl⟩⟩⟩⟩ <;> omega

end Bytes
