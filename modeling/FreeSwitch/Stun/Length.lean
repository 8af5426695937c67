import FreeSwitch.Lib.Run
import FreeSwitch.Stun.Packet

/-!
# STUN packets — the length a packet claims, and where its attributes lie

`header.length` is kept in network order, and `addLength` adds network-order words to each
other. On a little-endian host the low byte of the length sits in the upper half of the
word, so a carry out of it falls off the word instead of going into the high byte.

* **`add_spec`** — what every attribute call does: the length sum, and no byte written below
  the new attribute but the length itself.
* **`length_sum_iff`** — the sum is the new length exactly if the low bytes do not carry.
* **`stun_length_exact_iff`** — over whole sequences of calls.
-/

namespace FreeSwitch.Stun

open Bytes Runs

/-! ## The calls -/

inductive Add where
  | priority (priority : UInt32)
  | username (text : Option (Nat → UInt8)) (ulen : UInt16) (draws : Nat → Fin 62)
  | software (text : Option (Nat → UInt8)) (ulen : UInt16) (draws : Nat → Fin 62)
  | password (text : Option (Nat → UInt8)) (ulen : UInt16) (draws : Nat → Fin 62)
  | integrity (pass : List UInt8)
  | fingerprint
  | controlling (draws : Nat → Fin 62)
  | controlled (draws : Nat → Fin 62)
  | useCandidate
  | xorBindedAddress (ipstr : List UInt8) (port : UInt16) (inet6 : Bool)

def add (env : Env) (m : Mem) : Add → Mem
  | .priority p => switchStunPacketAttributeAddPriority m p
  | .username text ulen draws => switchStunPacketAttributeAddUsername m text ulen draws
  | .software text ulen draws => switchStunPacketAttributeAddSoftware m text ulen draws
  | .password text ulen draws => switchStunPacketAttributeAddPassword m text ulen draws
  | .integrity pass => switchStunPacketAttributeAddIntegrity env m pass
  | .fingerprint => switchStunPacketAttributeAddFingerprint env m
  | .controlling draws => switchStunPacketAttributeAddControlling m draws
  | .controlled draws => switchStunPacketAttributeAddControlled m draws
  | .useCandidate => switchStunPacketAttributeAddUseCandidate m
  | .xorBindedAddress ipstr port inet6 =>
      switchStunPacketAttributeAddXorBindedAddress env m ipstr port inet6

/-- The length of the attribute's value, without padding. -/
def Add.valueLen : Add → UInt16
  | .priority _ => 4
  | .username _ ulen _ => ulen
  | .software _ ulen _ => ulen
  | .password _ ulen _ => ulen
  | .integrity _ => 20
  | .fingerprint => 4
  | .controlling _ => 8
  | .controlled _ => 8
  | .useCandidate => 0
  | .xorBindedAddress _ _ inet6 => if inet6 then 20 else 8

/-- The bytes an attribute with a value of `len` bytes takes: its head, and the value rounded
up to a multiple of four. -/
def paddedSize (len : Nat) : Nat := 4 + (len + 3) / 4 * 4

/-! ## Writes that keep what lies below -/

/-- `m'` has the bytes of `m` below address `lo`. -/
def AgreeBelow (lo : Nat) (m m' : Mem) : Prop := ∀ i, i < lo → m' i = m i

theorem AgreeBelow.refl (lo : Nat) (m : Mem) : AgreeBelow lo m m := fun _ _ => rfl

theorem AgreeBelow.write {lo a : Nat} {m m' : Mem} (h : AgreeBelow lo m m') (ha : lo ≤ a)
    (bs : List UInt8) : AgreeBelow lo m (m'.write a bs) :=
  fun i hi => (Mem.write_of_not_mem (by omega)).trans (h i hi)

theorem AgreeBelow.store16 {lo a : Nat} {m m' : Mem} (h : AgreeBelow lo m m') (ha : lo ≤ a)
    (v : UInt16) : AgreeBelow lo m (m'.store16 a v) :=
  h.write ha _

theorem AgreeBelow.putAddress {n lo a : Nat} {m m' : Mem} (h : AgreeBelow lo m m')
    (ha : lo ≤ a) (addr : Option (Fin n → UInt8)) : AgreeBelow lo m (putAddress m' a addr) := by
  cases addr with
  | none => exact h
  | some addr => exact h.write ha _

theorem headerLength_congr {lo : Nat} {m m' : Mem} (hlo : 4 ≤ lo) (h : AgreeBelow lo m m') :
    headerLength m' = headerLength m :=
  Mem.load16_congr fun i _ hi => h i (by omega)

/-! ## What an attribute call does -/

/-- The effect of adding an attribute with a value of `len` bytes: the length is summed up in
network order, and of the bytes below the attribute only the length field changes. -/
structure AddEffect (m : Mem) (len : UInt16) (m' : Mem) : Prop where
  length : headerLength m' = headerLength m + (htons (4 + textPadding len) + htons len)
  frame : ∀ i, i < nextAttribute m → i ≠ 2 → i ≠ 3 → m' i = m i

/-- An attribute head, any writes behind it, the length sum, any writes behind the head. -/
theorem addEffect_of_writes (type : UInt16) {m m₂ m₃ : Mem} {len pad : UInt16}
    (hpad : textPadding len = pad)
    (h₂ : AgreeBelow (nextAttribute m + 4) (putHead m (nextAttribute m) type len) m₂)
    (h₃ : AgreeBelow (nextAttribute m + 4) (addLength m₂ (nextAttribute m) pad) m₃) :
    AddEffect m len m₃ := by
  have ha : 20 ≤ nextAttribute m := by unfold nextAttribute; omega
  have hhead : AgreeBelow (nextAttribute m) m (putHead m (nextAttribute m) type len) :=
    ((AgreeBelow.refl _ m).store16 le_rfl _).store16 (by omega) _
  have hlen₂ : headerLength m₂ = headerLength m :=
    (headerLength_congr (by omega) h₂).trans (headerLength_congr (by omega) hhead)
  have hattr : m₂.load16 (nextAttribute m + 2) = htons len := by
    rw [Mem.load16_congr fun i _ hi => h₂ i (by omega)]
    exact Mem.load16_store16 _ _ _
  constructor
  · rw [headerLength_congr (by omega) h₃, ← hlen₂, ← hattr, hpad]
    exact Mem.load16_store16 _ _ _
  · intro i hi h2 h3
    rw [h₃ i (by omega), addLength, Mem.store16_of_not_mem (by omega), h₂ i (by omega)]
    exact hhead i hi

/-- A length in whole words needs no padding. -/
theorem textPadding_of_dvd (len : UInt16) (h : len % 4 = 0) : textPadding len = 0 := if_pos h

theorem addText_effect (type : UInt16) (m : Mem) (text : Option (Nat → UInt8)) (ulen : UInt16)
    (draws : Nat → Fin 62) : AddEffect m ulen (addText type m text ulen draws) := by
  refine addEffect_of_writes type rfl ?_ (AgreeBelow.refl _ _)
  cases text with
  | none => exact (AgreeBelow.refl _ _).write le_rfl _
  | some text => exact (AgreeBelow.refl _ _).write le_rfl _

theorem addRole_effect (type : UInt16) (m : Mem) (draws : Nat → Fin 62) :
    AddEffect m 8 (addRole type m draws) :=
  addEffect_of_writes type (textPadding_of_dvd 8 rfl) ((AgreeBelow.refl _ _).write le_rfl _)
    (AgreeBelow.refl _ _)

theorem addXorBindedAddress_effect (env : Env) (m : Mem) (ipstr : List UInt8) (port : UInt16)
    (inet6 : Bool) :
    AddEffect m (if inet6 then 20 else 8)
      (switchStunPacketAttributeAddXorBindedAddress env m ipstr port inet6) := by
  have hpad : textPadding (if inet6 then 20 else 8) = 0 := by
    cases inet6 <;> exact textPadding_of_dvd _ rfl
  refine addEffect_of_writes attrXorMappedAddress hpad ?_ (AgreeBelow.refl _ _)
  -- port, family and address all lie behind the head
  have hip := ((AgreeBelow.refl (nextAttribute m + 4)
      (putHead m (nextAttribute m) attrXorMappedAddress (if inet6 then 20 else 8))).store16
        (a := nextAttribute m + 6) (by omega)
        (htons (port ^^^ (stunMagicCookie >>> 16).toUInt16))).write
        (a := nextAttribute m + 5) (by omega) [if inet6 then 2 else 1]
  cases inet6 with
  | true => exact (hip.putAddress (by omega) _).write (by omega) _
  | false => exact (hip.putAddress (by omega) _).write (by omega) _

theorem add_spec (env : Env) (m : Mem) (op : Add) : AddEffect m op.valueLen (add env m op) := by
  cases op with
  | priority p =>
    exact addEffect_of_writes attrPriority (textPadding_of_dvd 4 rfl)
      ((AgreeBelow.refl _ _).write le_rfl _) (AgreeBelow.refl _ _)
  | username text ulen draws => exact addText_effect attrUsername m text ulen draws
  | software text ulen draws => exact addText_effect attrSoftware m text ulen draws
  | password text ulen draws => exact addText_effect attrPassword m text ulen draws
  | integrity pass =>
    exact addEffect_of_writes attrMessageIntegrity (textPadding_of_dvd 20 rfl) (AgreeBelow.refl _ _)
      ((AgreeBelow.refl _ _).write le_rfl _)
  | fingerprint =>
    exact addEffect_of_writes attrFingerprint (textPadding_of_dvd 4 rfl) (AgreeBelow.refl _ _)
      ((AgreeBelow.refl _ _).write le_rfl _)
  | controlling draws => exact addRole_effect attrControlling m draws
  | controlled draws => exact addRole_effect attrControlled m draws
  | useCandidate =>
    exact addEffect_of_writes attrUseCand (textPadding_of_dvd 0 rfl) (AgreeBelow.refl _ _)
      (AgreeBelow.refl _ _)
  | xorBindedAddress ipstr port inet6 => exact addXorBindedAddress_effect env m ipstr port inet6

/-! ## The sum of network-order words -/

theorem toNat_textPadding (len : UInt16) :
    4 + (textPadding len).toNat + len.toNat = paddedSize len.toNat := by
  have hmod : (len % 4).toNat = len.toNat % 4 := UInt16.toNat_mod len 4
  unfold textPadding paddedSize
  split
  case isTrue h =>
    have : len.toNat % 4 = 0 := by rw [← hmod, h]; rfl
    show 4 + 0 + len.toNat = _
    omega
  case isFalse h =>
    have hne : len.toNat % 4 ≠ 0 := fun h0 => h (UInt16.toNat.inj (hmod.trans h0))
    have hsub : (4 - len % 4).toNat = 4 - len.toNat % 4 := by
      rw [UInt16.toNat_sub_of_le _ _ (by rw [UInt16.le_iff_toNat_le, hmod]; show _ ≤ 4; omega),
        hmod]
      rfl
    rw [hsub]
    omega

/-- The low byte of `total`, the head with its padding and the low byte of the value's length
do not carry. -/
def NoCarry (total : Nat) (len : UInt16) : Prop :=
  total % 256 + (4 + (textPadding len).toNat) + len.toNat % 256 < 256

/-- The sum on the bytes: `lo` and `hi` are the bytes of the length, `l₀` and `l₁` those of the
value's length, `p` is the head with its padding. -/
theorem swapped_sum_iff {lo hi p l₀ l₁ : Nat} (hlo : lo < 256) (hl₀ : l₀ < 256) (hp : p < 256)
    (hfit : hi * 256 + lo + (p + (l₁ * 256 + l₀)) ≤ 65535) :
    (lo * 256 + hi + (p * 256 + (l₀ * 256 + l₁)) % 65536) % 65536 % 256 * 256
        + (lo * 256 + hi + (p * 256 + (l₀ * 256 + l₁)) % 65536) % 65536 / 256
      = hi * 256 + lo + (p + (l₁ * 256 + l₀)) ↔ lo + p + l₀ < 256 := by
  have hhi : hi + l₁ < 256 := by omega
  have hdiv : ((lo + p + l₀) % 256 * 256 + (hi + l₁)) / 256 = (lo + p + l₀) % 256 := by omega
  -- of the upper half only what fits in a byte is left
  have hsum : (lo * 256 + hi + (p * 256 + (l₀ * 256 + l₁)) % 65536) % 65536
      = (lo + p + l₀) % 256 * 256 + (hi + l₁) := by
    rw [Nat.add_mod_mod]
    omega
  rw [hsum, Nat.mul_add_mod', Nat.mod_eq_of_lt hhi, hdiv]
  clear hsum hdiv
  constructor <;> intro h <;> omega

theorem length_sum_iff {total : Nat} {raw len : UInt16} (hraw : (ntohs raw).toNat = total)
    (hfit : total + paddedSize len.toNat ≤ 65535) :
    (ntohs (raw + (htons (4 + textPadding len) + htons len))).toNat
        = total + paddedSize len.toNat ↔ NoCarry total len := by
  have hsize := toNat_textPadding len
  have hpad : (textPadding len).toNat < 4 := by
    unfold paddedSize at hsize
    omega
  have hhead : (4 + textPadding len).toNat = 4 + (textPadding len).toNat := by
    rw [UInt16.toNat_add]
    exact Nat.mod_eq_of_lt (by show 4 + _ < _; omega)
  have hrawlt : raw.toNat < 65536 := raw.toNat_lt
  rw [← hsize] at hfit ⊢
  rw [toNat_ntohs] at hraw
  unfold NoCarry
  rw [toNat_ntohs, UInt16.toNat_add, UInt16.toNat_add, toNat_htons, toNat_htons, hhead]
  generalize (textPadding len).toNat = pad at *
  generalize raw.toNat = r at *
  generalize len.toNat = l at *
  have hfit' : r % 256 * 256 + r / 256 + (4 + pad + (l / 256 * 256 + l % 256)) ≤ 65535 := by
    omega
  have hhead' : (4 + pad) % 256 = 4 + pad ∧ (4 + pad) / 256 = 0 := by omega
  have htotal : total % 256 = r / 256 := by omega
  have hword : r / 256 * 256 + r % 256 = r ∧ l / 256 * 256 + l % 256 = l := by omega
  have h := swapped_sum_iff (show r / 256 < 256 by omega) (show l % 256 < 256 by omega)
    (show 4 + pad < 256 by omega) hfit'
  rw [hword.1, hword.2, hraw] at h
  rw [hhead'.1, hhead'.2, Nat.add_zero, htotal]
  exact h

/-- A packet that stays below 256 bytes never carries. -/
theorem noCarry_of_small {total : Nat} {len : UInt16} (h : total + paddedSize len.toNat < 256) :
    NoCarry total len := by
  have hsize := toNat_textPadding len
  unfold NoCarry
  omega

/-! ## Whole packets -/

/-- An attribute as its call left it: the value's length, and the bytes of head and value. -/
structure Placed where
  len : Nat
  bytes : List UInt8

/-- A packet under construction, with a record of what was put into it. -/
structure Build where
  mem : Mem
  placed : List Placed

def total (placed : List Placed) : Nat := (placed.map fun p => paddedSize p.len).sum

def step (env : Env) (s : Build) (op : Add) : Build :=
  let mem := add env s.mem op
  { mem
    placed := s.placed
      ++ [⟨op.valueLen.toNat, mem.read (nextAttribute s.mem) (4 + op.valueLen.toNat)⟩] }

/-- The attributes lie one directly behind the other from address `a` on, each with the bytes
its call left. -/
def LaidOut (m : Mem) : Nat → List Placed → Prop
  | _, [] => True
  | a, p :: ps => m.read a (4 + p.len) = p.bytes ∧ LaidOut m (a + paddedSize p.len) ps

structure Faithful (s : Build) : Prop where
  length : (ntohs (headerLength s.mem)).toNat = total s.placed
  laidOut : LaidOut s.mem 20 s.placed

theorem total_step (env : Env) (s : Build) (op : Add) :
    total (step env s op).placed = total s.placed + paddedSize op.valueLen.toNat := by
  simp [step, total]

theorem le_paddedSize (len : Nat) : 4 + len ≤ paddedSize len := by
  unfold paddedSize
  omega

theorem laidOut_append {m : Mem} {p : Placed} : ∀ {ps : List Placed} {a : Nat},
      LaidOut m a (ps ++ [p]) ↔ LaidOut m a ps ∧ m.read (a + total ps) (4 + p.len) = p.bytes := by
  intro ps
  induction ps with
  | nil => intro a; simp [LaidOut, total]
  | cons q ps ih =>
    intro a
    have htotal : a + total (q :: ps) = a + paddedSize q.len + total ps := by
      simp [total, Nat.add_assoc]
    rw [htotal, List.cons_append, LaidOut, LaidOut, ih, and_assoc]

theorem LaidOut.congr {m m' : Mem} : ∀ {ps : List Placed} {a : Nat}, LaidOut m a ps →
      (∀ i, a ≤ i → i < a + total ps → m' i = m i) → LaidOut m' a ps := by
  intro ps
  induction ps with
  | nil => intro a _ _; trivial
  | cons q ps ih =>
    rintro a ⟨hq, hps⟩ hagree
    have htotal : total (q :: ps) = paddedSize q.len + total ps := by simp [total]
    have hlen := le_paddedSize q.len
    refine ⟨?_, ih hps fun i hlo hhi => hagree i (by omega) (by omega)⟩
    rw [← hq]
    exact Mem.read_congr fun i hlo hhi => hagree i hlo (by omega)

/-- One call keeps the packet faithful exactly if its length sum has no carry. -/
theorem step_faithful_iff (env : Env) {s : Build} {op : Add} (h : Faithful s)
    (hfit : total s.placed + paddedSize op.valueLen.toNat ≤ 65535) :
    Faithful (step env s op) ↔ NoCarry (total s.placed) op.valueLen := by
  have heffect := add_spec env s.mem op
  have hnext : nextAttribute s.mem = 20 + total s.placed := by rw [nextAttribute, h.length]
  have hlength : (ntohs (headerLength (step env s op).mem)).toNat = total (step env s op).placed
      ↔ NoCarry (total s.placed) op.valueLen := by
    rw [total_step, ← length_sum_iff h.length hfit, ← heffect.length]
    rfl
  refine ⟨fun h' => hlength.mp h'.length, fun hcarry => ⟨hlength.mpr hcarry, ?_⟩⟩
  refine laidOut_append.mpr ⟨h.laidOut.congr fun i hlo hhi => ?_, by rw [hnext]; rfl⟩
  exact heffect.frame i (by omega) (by omega) (by omega)

/-! ## Sequences of calls -/

def Add.size (op : Add) : Nat := paddedSize op.valueLen.toNat

theorem total_foldl (env : Env) : ∀ (ops : List Add) (s : Build),
      total (ops.foldl (step env) s).placed = total s.placed + (ops.map Add.size).sum := by
  intro ops
  induction ops with
  | nil => intro s; rfl
  | cons op ops ih =>
    intro s
    rw [List.foldl_cons, ih, total_step, List.map_cons, List.sum_cons, Nat.add_assoc]
    rfl

/-- The packet just after `switch_stun_packet_build_header`. -/
def fresh (type : UInt16) (id : Option (Fin 12 → UInt8)) (draws : Nat → Fin 62) (buf : Mem) :
    Build :=
  ⟨switchStunPacketBuildHeader type id draws buf, []⟩

theorem fresh_faithful (type : UInt16) (id : Option (Fin 12 → UInt8)) (draws : Nat → Fin 62)
    (buf : Mem) : Faithful (fresh type id draws buf) := by
  have hzero : headerLength ((buf.store16 0 (htons type)).store16 2 0) = 0 :=
    Mem.load16_store16 _ _ _
  refine ⟨?_, trivial⟩
  have hlength : headerLength (fresh type id draws buf).mem = 0 := by
    rw [← hzero]
    cases id with
    | none =>
      exact headerLength_congr le_rfl
        (((AgreeBelow.refl 4 _).write le_rfl _).write (by omega) _)
    | some id =>
      exact headerLength_congr le_rfl
        (((AgreeBelow.refl 4 _).write le_rfl _).write (by omega) _)
  rw [hlength]
  rfl

/-- For calls whose attributes fit in 65535 bytes: after each call the length is the sum of the
padded attributes and the attributes lie unharmed one behind the other, exactly if no call
carries out of the low byte of the length. -/
theorem stun_length_exact_iff (env : Env) (type : UInt16) (id : Option (Fin 12 → UInt8))
    (draws : Nat → Fin 62) (buf : Mem) (ops : List Add)
    (hfit : (ops.map Add.size).sum ≤ 65535) :
    (∀ done rest, ops = done ++ rest →
        Faithful (done.foldl (step env) (fresh type id draws buf)))
      ↔ ∀ done op rest, ops = done ++ op :: rest →
          NoCarry (done.map Add.size).sum op.valueLen := by
  -- packets past 65535 bytes are outside the statement; both sides are made to ignore them
  let P : Build → Prop := fun s => total s.placed ≤ 65535 → Faithful s
  let ok : Build → Add → Prop := fun s op =>
    total s.placed + op.size ≤ 65535 → NoCarry (total s.placed) op.valueLen
  have hexact : ∀ s op, P s → (P (step env s op) ↔ ok s op) := by
    intro s op hs
    have hstep : total (step env s op).placed = total s.placed + op.size := total_step env s op
    simp only [P, ok, hstep]
    refine forall_congr' fun hfits => step_faithful_iff env (hs ?_) hfits
    exact Nat.le_trans (Nat.le_add_right _ _) hfits
  have hrun := prefixes_iff (fun _ h => h) (fun s op hs => (hexact s op hs).mp)
    (fun s op hs => (hexact s op hs).mpr) ops (fresh type id draws buf)
    fun _ => fresh_faithful type id draws buf
  have hstart : total (fresh type id draws buf).placed = 0 := rfl
  constructor
  · intro h done op rest heq
    have hok := hrun.mp (fun done rest heq _ => h done rest heq) done op rest heq
    have hle : (done.map Add.size).sum + op.size ≤ 65535 := by
      rw [heq] at hfit
      simp at hfit
      omega
    simp only [ok, total_foldl, hstart, Nat.zero_add] at hok
    exact hok hle
  · intro h done rest heq
    refine hrun.mpr (fun done op rest heq _ => ?_) done rest heq ?_
    · have hcarry := h done op rest heq
      rwa [total_foldl, hstart, Nat.zero_add]
    · rw [heq] at hfit
      rw [total_foldl, hstart]
      simp at hfit
      omega

/-- A binding request as ICE sends it. -/
theorem stun_length_exact_binding_request :
    let env : Env := ⟨fun _ _ _ => 0, fun _ => 0, fun _ => none, fun _ => none⟩
    let ops : List Add := [.username none 9 (fun _ => 0), .priority 1, .controlling (fun _ => 0),
      .integrity [], .fingerprint]
    (ops.map Add.size).sum ≤ 65535 ∧ ∀ done rest, ops = done ++ rest →
      Faithful (done.foldl (step env) (fresh 1 none (fun _ => 0) fun _ => 0)) := by
  intro env ops
  refine ⟨by decide, (stun_length_exact_iff env 1 none (fun _ => 0) (fun _ => 0) ops
    (by decide)).mpr fun done op rest heq => noCarry_of_small ?_⟩
  have hsum : (ops.map Add.size).sum < 256 := by decide
  rw [heq] at hsum
  simp only [List.map_append, List.map_cons, List.sum_append, List.sum_cons] at hsum
  unfold Add.size at hsum ⊢
  omega

/-- A user name of 252 bytes makes an attribute of 256 bytes, and a packet of length 0. -/
theorem stun_length_username_wraps :
    let env : Env := ⟨fun _ _ _ => 0, fun _ => 0, fun _ => none, fun _ => none⟩
    let op : Add := .username none 252 fun _ => 0
    let s := step env (fresh 1 none (fun _ => 0) fun _ => 0) op
    op.size = 256 ∧ ntohs (headerLength s.mem) = 0 ∧ ¬ Faithful s := by
  intro env op s
  have hlength : ntohs (headerLength s.mem) = 0 := by decide +kernel
  refine ⟨by decide, hlength, fun h => ?_⟩
  have htotal := h.length
  rw [hlength] at htotal
  exact absurd htotal (by decide)

end FreeSwitch.Stun
