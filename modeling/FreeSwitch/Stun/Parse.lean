import FreeSwitch.Stun.Packet
import FreeSwitch.Lib.Bounded

/-!
# STUN packets — parsing in place, `src/switch_stun.c`

`switch_stun_packet_parse` walks over the attributes of a datagram and turns header and attribute
fields to host order where they stand. Every access is a checked one: the model fails as soon as a
byte outside the datagram is touched. The walk compares the padded length of an attribute with the
bytes that are left, but the accesses to the value do not depend on that length, so an attribute of
length 0 at the end is the one that goes wrong.

* **`AttributesFit`** — the attributes that are empty have room behind them, from one head of the
  datagram to the next.
* **`parseAttribute_inside`** — the accesses for one attribute stay inside exactly if it has that room.
* **`switchStunPacketParse_isSome`** — the walk ends.
* **`stun_parse_inside_iff`** — the datagram is kept to exactly if `AttributesFit`.
* **`stun_parse_overruns`** — a datagram of 28 bytes of which byte 31 is touched.
-/

namespace FreeSwitch.Stun

open Bytes Bounded

/-! ## Types -/

/-- The valid values of `header.type`. -/
def messageTypes : List UInt16 :=
  [0x0001, 0x0101, 0x0111, 0x0002, 0x0102, 0x0112, 0x0003, 0x0103, 0x0113, 0x0004, 0x0104,
    0x0114, 0x0115]

/-- The branches of the switch over the attribute type. -/
inductive AttrKind where
  /-- `MAPPED_ADDRESS` and its kin, `PRIORITY` among them. -/
  | address
  | sourceAddress2
  /-- `CHANGE_REQUEST`, `LIFETIME`, `BANDWIDTH`, `OPTIONS`. -/
  | word
  | errorCode
  | messageIntegrity
  | magicCookie
  | unknownAttributes
  /-- Byte strings and everything unknown. -/
  | other
  deriving DecidableEq

def attrKind (type : UInt16) : AttrKind :=
  if type ∈ [0x0001, 0x0020, 0x0002, 0x0004, 0x0005, 0x000b, 0x000e, 0x0011, attrPriority] then .address
  else if type = 0x0012 then .sourceAddress2
  else if type ∈ [0x0003, 0x000d, 0x0010, 0x8001] then .word
  else if type = 0x0009 then .errorCode
  else if type = attrMessageIntegrity then .messageIntegrity
  else if type = 0x000f then .magicCookie
  else if type = 0x000a then .unknownAttributes
  else .other

/-- `(int) n` of an unsigned word. -/
def toInt (n : Nat) : Int := if n < 2 ^ 31 then n else (n : Int) - 2 ^ 32

/-- The macro ends in a conversion to `int16_t`. -/
def switchStunAttributePaddedLength (length : UInt16) : Int :=
  let n := length.toNat
  let padded : Nat := (if n % 4 ≠ 0 then 4 + (n - n % 4) else n) % 2 ^ 16
  if padded < 2 ^ 15 then padded else (padded : Int) - 2 ^ 16

/-! ## One attribute -/

/-- `ip->port = ntohs(ip->port)`. -/
def swapPort (len : Nat) (mem : Mem) (value : Nat) : Except Nat Mem := do
  let port ← Bounded.load16 len mem (value + 2)
  Bounded.store16 len mem (value + 2) (ntohs port)

/-- `*val = ntohl(*val)`. -/
def swapWord (len : Nat) (mem : Mem) (value : Nat) : Except Nat Mem := do
  let word ← Bounded.load32 len mem value
  Bounded.store32 len mem value (ntohl word)

/-- The size of an address of the family. -/
def addrLength (family : UInt8) : Option Nat :=
  if family = 1 then some 4 else if family = 2 then some 16 else none

/-- The switch over the type; `none` is `return NULL`. -/
def handleAttribute (len : Nat) (mem : Mem) (value : Nat)
    (type length : UInt16) : Except Nat (Option Mem) := do
  match attrKind type with
  | .address => return some (← swapPort len mem value)
  | .sourceAddress2 =>
    -- the family is read before the length is looked at
    let family ← load8 len mem (value + 1)
    match addrLength family with
    | none => return none
    | some n => if length.toNat ≠ n + 4 then return none else return some (← swapPort len mem value)
  | .word => if length ≠ 4 then return none else return some (← swapWord len mem value)
  | .errorCode => return some (← swapWord len mem value)
  | .messageIntegrity => return if length ≠ 20 then none else some mem
  | .magicCookie => return if length ≠ 4 then none else some mem
  | .unknownAttributes => return if length % 2 ≠ 0 then none else some mem
  | .other => return some mem

/-- The loop's variables. -/
structure Cursor where
  mem : Mem
  attr : Nat
  bytesLeft : Nat
  xlen : Int

/-- Whether a packet is returned, and the datagram as it was left. -/
abbrev Parsed := Bool × Mem

/-- Behind the loop. -/
def finish (len : Nat) (mem : Mem) (bytesLeft : Nat) : Except Nat Parsed := do
  let length ← Bounded.load16 len mem 2
  if length.toNat + 20 > len - bytesLeft then
    return (true, ← Bounded.store16 len mem 2 (UInt16.ofNat (len - bytesLeft - 20)))
  else return (true, mem)

/-- Past an attribute whose value takes `alen` bytes. -/
def advance (len : Nat) (c : Cursor) (mem : Mem) (bytesLeft : Nat)
    (alen : Int) : Except Nat (Cursor ⊕ Parsed) := do
  let bytesLeft := bytesLeft - alen.toNat
  let xlen := c.xlen + (4 + alen)
  let attr := c.attr + 4 + alen.toNat
  if attr > len then return .inr (← finish len mem bytesLeft)
  let length ← Bounded.load16 len mem 2
  if xlen < length.toNat then return .inl ⟨mem, attr, bytesLeft, xlen⟩
  else return .inr (← finish len mem bytesLeft)

/-- The loop's body. -/
def parseAttribute (len : Nat) (c : Cursor) : Except Nat (Cursor ⊕ Parsed) := do
  if c.bytesLeft < 4 then return .inr (false, c.mem)
  let length := ntohs (← Bounded.load16 len c.mem (c.attr + 2))
  let mem ← Bounded.store16 len c.mem (c.attr + 2) length
  let type := ntohs (← Bounded.load16 len mem c.attr)
  let mem ← Bounded.store16 len mem c.attr type
  let bytesLeft := c.bytesLeft - 4
  let alen := switchStunAttributePaddedLength length
  if alen > toInt bytesLeft ∨ alen < 0 then return .inr (false, mem)
  match ← handleAttribute len mem (c.attr + 4) type length with
  | none => return .inr (false, mem)
  | some mem => advance len c mem bytesLeft alen

/-! ## The packet -/

/-- Up to the loop. -/
def parseHeader (len : Nat) (buf : Mem) : Except Nat (Cursor ⊕ Parsed) := do
  if len < 20 then return .inr (false, buf)
  let type := ntohs (← Bounded.load16 len buf 0)
  let mem ← Bounded.store16 len buf 0 type
  let length := ntohs (← Bounded.load16 len mem 2)
  let mem ← Bounded.store16 len mem 2 length
  let bytesLeft := len - 20
  if length.toNat > bytesLeft then return .inr (false, mem)
  else if type ∉ messageTypes then return .inr (false, mem)
  else if bytesLeft ≤ 0 then return .inr (false, mem)
  else if length = 0 then return .inr (false, mem)
  else if bytesLeft < 8 then return .inr (false, mem)
  else return .inl ⟨mem, 20, bytesLeft, 0⟩

/-- `none` would be a walk that does not end. -/
def switchStunPacketParse (buf : Mem) (len : UInt32) : Option (Except Nat Parsed) :=
  walk (parseHeader len.toNat buf) (parseAttribute len.toNat) (len.toNat + 1)

/-! ## The attributes of a datagram

The walk as it can be read off the datagram. An attribute has its type and its length in the two words
at its offset, in network order, and the next one is behind its padded length. Behind an empty value
there is a trap: the bytes that are turned in place are those of the next attribute's head. -/

/-- The bytes behind an attribute's head that are accessed whatever its length. -/
def AttrKind.room : AttrKind → Nat
  | .address | .errorCode => 4
  | .sourceAddress2 => 2
  | _ => 0

/-- The lengths that are taken; `family` is the second byte of the value. -/
def AttrKind.accepts (kind : AttrKind) (family : UInt8) (length : UInt16) : Bool :=
  match kind with
  | .sourceAddress2 => (addrLength family).any fun n => length.toNat = n + 4
  | .word | .magicCookie => length = 4
  | .messageIntegrity => length = 20
  | .unknownAttributes => length % 2 = 0
  | .address | .errorCode | .other => true

/-- The walk goes on behind an attribute at `a` that is accepted, up to the header's length. -/
def GoesOn (buf : Mem) (len a : Nat) (type length : UInt16) : Prop :=
  let alen := switchStunAttributePaddedLength length
  (0 ≤ alen ∧ alen ≤ toInt (len - a - 4)) ∧ (attrKind type).accepts (buf (a + 5)) length = true
    ∧ a + 4 + alen < 20 + (ntohs (buf.load16 2)).toNat

/-- Type and length in the head at `a`, as they are found behind a value of `alen` bytes: an empty
address has the bytes of the length swapped, an empty error code all four. -/
def headBehind (buf : Mem) (a : Nat) (kind : AttrKind) (alen : Int) : UInt16 × UInt16 :=
  if alen = 0 ∧ kind = .address then (ntohs (buf.load16 a), buf.load16 (a + 2))
  else if alen = 0 ∧ kind = .errorCode then (buf.load16 (a + 2), buf.load16 a)
  else (ntohs (buf.load16 a), ntohs (buf.load16 (a + 2)))

/-- From the attribute at `a` on, whose head says `head`, each one whose value is empty has room
behind it for the bytes that are accessed all the same. -/
def AttributesFit (buf : Mem) (len a : Nat) (head : UInt16 × UInt16) : Prop :=
  a + 4 ≤ len →
    let alen := switchStunAttributePaddedLength head.2
    (alen = 0 → a + 4 + (attrKind head.1).room ≤ len)
      ∧ (GoesOn buf len a head.1 head.2 →
        AttributesFit buf len (a + 4 + alen.toNat)
          (headBehind buf (a + 4 + alen.toNat) (attrKind head.1) alen))
termination_by len - a

/-- The headers that are taken. -/
def HeaderTaken (buf : Mem) (len : Nat) : Prop :=
  28 ≤ len ∧ ntohs (buf.load16 0) ∈ messageTypes
    ∧ 0 < (ntohs (buf.load16 2)).toNat ∧ (ntohs (buf.load16 2)).toNat ≤ len - 20

/-! ## Where the accesses stay -/

theorem AttrKind.room_le (kind : AttrKind) : kind.room ≤ 4 := by
  cases kind <;> decide

/-- The attribute and the bytes left make up the datagram, and what is behind the head is as it came. -/
structure Cursor.Tracks (buf : Mem) (len : Nat) (c : Cursor) : Prop where
  header : 20 ≤ c.attr
  covers : c.attr + c.bytesLeft = len
  xlen : c.xlen + 20 = c.attr
  total : c.mem.load16 2 = ntohs (buf.load16 2)
  rest : ∀ i, c.attr + 4 ≤ i → c.mem i = buf i

/-- A padded length that is not negative is room for the length and for four bytes, or it is 0: the
largest lengths wrap around. -/
theorem paddedLength_cases {length : UInt16} (h : 0 ≤ switchStunAttributePaddedLength length) :
    (switchStunAttributePaddedLength length = 0 ∧ (length.toNat = 0 ∨ 65533 ≤ length.toNat))
      ∨ (length.toNat ≤ switchStunAttributePaddedLength length
        ∧ 4 ≤ switchStunAttributePaddedLength length) := by
  have hlt := length.toNat_lt
  simp only [switchStunAttributePaddedLength] at h ⊢
  split_ifs at h ⊢ <;> omega

theorem addrLength_le {family : UInt8} {n : Nat} (h : addrLength family = some n) : n ≤ 16 := by
  unfold addrLength at h
  split_ifs at h <;> cases h <;> decide

variable {mem : Mem} {value : Nat}

theorem swapPort_inside {len : Nat} : Inside (swapPort len mem value) ↔ value + 4 ≤ len := by
  simp [swapPort, Inside]

theorem swapWord_inside {len : Nat} : Inside (swapWord len mem value) ↔ value + 4 ≤ len := by
  simp [swapWord, Inside]

/-- The accesses to a value, of which the padded length is known to be inside. -/
theorem handleAttribute_inside {len left : Nat} {type length : UInt16} (hvalue : value + left = len)
    (hpos : 0 ≤ switchStunAttributePaddedLength length)
    (hle : switchStunAttributePaddedLength length ≤ left) :
    Inside (handleAttribute len mem value type length) ↔
      (switchStunAttributePaddedLength length = 0 → (attrKind type).room ≤ left) := by
  have hcases := paddedLength_cases hpos
  unfold handleAttribute
  cases hkind : attrKind type with
  | address =>
    show Inside (swapPort len mem value >>= _) ↔ (_ → 4 ≤ left)
    rw [inside_bind_of_inside fun m => inside_pure _, swapPort_inside]
    omega
  | errorCode =>
    show Inside (swapWord len mem value >>= _) ↔ (_ → 4 ≤ left)
    rw [inside_bind_of_inside fun m => inside_pure _, swapWord_inside]
    omega
  | word =>
    refine iff_of_true ?_ fun _ => Nat.zero_le left
    show Inside (if length ≠ 4 then _ else _)
    split
    · exact inside_pure none
    · next hlength =>
      have hlen : length.toNat = 4 := by
        rw [not_not.mp hlength]
        rfl
      rw [inside_bind_of_inside fun m => inside_pure _, swapWord_inside]
      omega
  | sourceAddress2 =>
    show Inside (load8 len mem (value + 1) >>= _) ↔ (_ → 2 ≤ left)
    rw [inside_bind_iff]
    constructor
    · rintro ⟨family, hfamily, -⟩ -
      have hread := (load8_eq_ok_iff.mp hfamily).1
      omega
    · intro hroom
      refine ⟨mem (value + 1), load8_eq_ok_iff.mpr ⟨by omega, rfl⟩, ?_⟩
      -- a length that passes the check is one with room for the port
      split
      · exact inside_pure none
      · next n haddr =>
        split
        · exact inside_pure none
        · next hlength =>
          have hn : n ≤ 16 := addrLength_le haddr
          rw [inside_bind_of_inside fun m => inside_pure _, swapPort_inside]
          omega
  | messageIntegrity => exact iff_of_true (inside_pure _) fun _ => Nat.zero_le left
  | magicCookie => exact iff_of_true (inside_pure _) fun _ => Nat.zero_le left
  | unknownAttributes => exact iff_of_true (inside_pure _) fun _ => Nat.zero_le left
  | other => exact iff_of_true (inside_pure _) fun _ => Nat.zero_le left

/-! ## What is turned in place -/

/-- The datagram with the value at `value` turned to host order. -/
def AttrKind.turn (kind : AttrKind) (m : Mem) (value : Nat) : Mem :=
  match kind with
  | .address | .sourceAddress2 => m.store16 (value + 2) (ntohs (m.load16 (value + 2)))
  | .word | .errorCode => m.write value (bytes32 (ntohl (m.load32 value)))
  | _ => m

theorem AttrKind.turn_of_not_mem (kind : AttrKind) (m : Mem) {i : Nat} (h : i < value ∨ value + 4 ≤ i) :
    kind.turn m value i = m i := by
  cases kind with
  | address | sourceAddress2 => exact Mem.store16_of_not_mem (by omega)
  | word | errorCode => exact Mem.write_of_not_mem h
  | messageIntegrity | magicCookie | unknownAttributes | other => rfl

theorem eq_of_swapPort {len : Nat} {m : Mem} (h : swapPort len mem value = .ok m) :
    m = mem.store16 (value + 2) (ntohs (mem.load16 (value + 2))) := by
  obtain ⟨port, hport, hm⟩ := bind_eq_ok_iff.mp h
  obtain ⟨-, rfl⟩ := load16_eq_ok_iff.mp hport
  exact (store16_eq_ok_iff.mp hm).2.symm

theorem eq_of_swapWord {len : Nat} {m : Mem} (h : swapWord len mem value = .ok m) :
    m = mem.write value (bytes32 (ntohl (mem.load32 value))) := by
  obtain ⟨word, hword, hm⟩ := bind_eq_ok_iff.mp h
  obtain ⟨-, rfl⟩ := load32_eq_ok_iff.mp hword
  exact (store32_eq_ok_iff.mp hm).2.symm

/-- Accesses that stay inside turn the value, if the length is taken. -/
theorem handleAttribute_eq {len : Nat} {type length : UInt16}
    (h : Inside (handleAttribute len mem value type length)) :
    handleAttribute len mem value type length =
      .ok (if (attrKind type).accepts (mem (value + 1)) length then
        some ((attrKind type).turn mem value) else none) := by
  obtain ⟨r, hr⟩ := h
  rw [hr]
  unfold handleAttribute at hr
  cases hkind : attrKind type <;> simp only [hkind] at hr
  case address =>
    obtain ⟨m, hm, hr⟩ := bind_eq_ok_iff.mp hr
    cases hr
    rw [eq_of_swapPort hm]
    rfl
  case errorCode =>
    obtain ⟨m, hm, hr⟩ := bind_eq_ok_iff.mp hr
    cases hr
    rw [eq_of_swapWord hm]
    rfl
  case sourceAddress2 =>
    -- the family says which length is taken
    obtain ⟨family, hfamily, hr⟩ := bind_eq_ok_iff.mp hr
    obtain ⟨-, rfl⟩ := load8_eq_ok_iff.mp hfamily
    cases haddr : addrLength (mem (value + 1)) with
    | none =>
      rw [haddr] at hr
      cases hr
      simp [AttrKind.accepts, haddr]
    | some n =>
      rw [haddr] at hr
      simp only at hr
      split at hr
      · next hlength =>
        cases hr
        simp [AttrKind.accepts, haddr, hlength]
      · next hlength =>
        obtain ⟨m, hm, hr⟩ := bind_eq_ok_iff.mp hr
        cases hr
        rw [eq_of_swapPort hm]
        simp [AttrKind.accepts, haddr, not_not.mp hlength, AttrKind.turn]
  case word =>
    split at hr
    · next hlength =>
      cases hr
      simp [AttrKind.accepts, hlength]
    · next hlength =>
      obtain ⟨m, hm, hr⟩ := bind_eq_ok_iff.mp hr
      cases hr
      rw [eq_of_swapWord hm]
      simp [AttrKind.accepts, not_not.mp hlength, AttrKind.turn]
  all_goals
    cases hr
    simp [AttrKind.accepts, AttrKind.turn]

/-- Two bytes, the other way round. -/
theorem ntohs_ofNat (x y : UInt8) :
    ntohs (UInt16.ofNat (x.toNat + 256 * y.toNat)) = UInt16.ofNat (y.toNat + 256 * x.toNat) := by
  have hx := x.toNat_lt
  have hy := y.toNat_lt
  apply UInt16.toNat.inj
  have hlt : x.toNat + 256 * y.toNat < 2 ^ 16 := by omega
  have hlt' : y.toNat + 256 * x.toNat < 2 ^ 16 := by omega
  rw [toNat_ntohs, UInt16.toNat_ofNat', UInt16.toNat_ofNat', Nat.mod_eq_of_lt hlt,
    Nat.mod_eq_of_lt hlt']
  omega

/-- The head behind an empty value, with what was turned in it. -/
theorem turn_head {buf m : Mem} {kind : AttrKind} {family : UInt8} {length : UInt16}
    (hrest : ∀ i, value ≤ i → m i = buf i) (haccepts : kind.accepts family length = true)
    (hlength : length.toNat = 0 ∨ 65533 ≤ length.toNat) :
    (ntohs ((kind.turn m value).load16 (value + Int.toNat 0)),
      ntohs ((kind.turn m value).load16 (value + Int.toNat 0 + 2)))
      = headBehind buf (value + Int.toNat 0) kind 0 := by
  have hword : ∀ a, value ≤ a → m.load16 a = buf.load16 a := fun a ha =>
    Mem.load16_congr fun i hi _ => hrest i (by omega)
  simp only [Int.toNat_zero, Nat.add_zero]
  unfold headBehind AttrKind.turn
  cases kind with
  | address =>
    simp only [true_and, if_true]
    rw [Mem.load16_store16_of_not_mem (Or.inl le_rfl), Mem.load16_store16, hword value le_rfl,
      hword _ (by omega)]
    exact Prod.ext rfl (ntohs_htons _)
  | errorCode =>
    -- four bytes reversed are two words that change places, and each of them turned
    have hbytes : bytes32 (ntohl (m.load32 value))
        = [m (value + 3), m (value + 2), m (value + 1), m value] := by
      rw [ntohl, bytes32_htonl, bytes32_load32]
      rfl
    have hfirst : (m.write value [m (value + 3), m (value + 2), m (value + 1), m value]).load16 value
        = UInt16.ofNat ((m (value + 3)).toNat + 256 * (m (value + 2)).toNat) := by
      simp [Mem.load16, Mem.write]
    have hsecond :
        (m.write value [m (value + 3), m (value + 2), m (value + 1), m value]).load16 (value + 2)
        = UInt16.ofNat ((m (value + 1)).toNat + 256 * (m value).toNat) := by
      simp [Mem.load16, Mem.write, Nat.add_assoc]
    simp only [reduceCtorEq, and_false, if_false, true_and, if_true]
    rw [hbytes, hfirst, hsecond, ntohs_ofNat, ntohs_ofNat, ← hword _ (by omega), ← hword value le_rfl]
    rfl
  | sourceAddress2 =>
    obtain ⟨n, haddr, hn⟩ := (Option.any_eq_true _ _).mp haccepts
    have hle := addrLength_le haddr
    have hn := of_decide_eq_true hn
    omega
  | word =>
    have hfour : length.toNat = 4 := congrArg UInt16.toNat (of_decide_eq_true haccepts)
    omega
  | messageIntegrity | magicCookie | unknownAttributes | other =>
    simp [hword]

/-! ## One pass of the loop -/

theorem finish_inside {len : Nat} {bytesLeft : Nat} (h : 20 ≤ len) :
    Inside (finish len mem bytesLeft) := by
  rw [finish, inside_bind_iff]
  refine ⟨mem.load16 2, load16_eq_ok_iff.mpr ⟨by omega, rfl⟩, ?_⟩
  split
  · rw [inside_bind_of_inside fun m => inside_pure _]
    exact ⟨_, store16_eq_ok_iff.mpr ⟨by omega, rfl⟩⟩
  · exact inside_pure _

theorem advance_inside {len : Nat} {c : Cursor} {bytesLeft : Nat} {alen : Int} (h : 20 ≤ len) :
    Inside (advance len c mem bytesLeft alen) := by
  have hfinish : ∀ left, Inside (finish len mem left >>= fun r => pure (Sum.inr r : Cursor ⊕ Parsed)) :=
    fun left => (inside_bind_of_inside fun r => inside_pure _).mpr (finish_inside h)
  unfold advance
  simp only
  split
  · exact hfinish _
  · rw [inside_bind_iff]
    refine ⟨mem.load16 2, load16_eq_ok_iff.mpr ⟨by omega, rfl⟩, ?_⟩
    split
    · exact inside_pure _
    · exact hfinish _

/-- The loop goes on behind the attribute it has handled. -/
theorem advance_next_iff {len : Nat} {c c' : Cursor} {bytesLeft : Nat} {alen : Int} (h : 20 ≤ len)
    (hle : c.attr + 4 + alen.toNat ≤ len) : advance len c mem bytesLeft alen = .ok (.inl c') ↔
      c.xlen + (4 + alen) < (mem.load16 2).toNat
        ∧ c' = ⟨mem, c.attr + 4 + alen.toNat, bytesLeft - alen.toNat, c.xlen + (4 + alen)⟩ := by
  have hlength : 2 + 2 ≤ len := by omega
  unfold advance
  simp only
  rw [if_neg (by omega), load16_of_le hlength, ok_bind]
  split
  · next hmore =>
    constructor
    · intro heq
      cases heq
      exact ⟨hmore, rfl⟩
    · rintro ⟨-, rfl⟩
      rfl
  · next hmore =>
    refine ⟨fun heq => ?_, fun heq => absurd heq.1 hmore⟩
    obtain ⟨r, -, hr⟩ := bind_eq_ok_iff.mp heq
    cases hr

/-- The datagram with the attribute's head turned to host order. -/
def Cursor.headed (c : Cursor) : Mem :=
  (c.mem.store16 (c.attr + 2) (ntohs (c.mem.load16 (c.attr + 2)))).store16 c.attr
    (ntohs (c.mem.load16 c.attr))

theorem Cursor.headed_of_not_mem (c : Cursor) {i : Nat} (h : i < c.attr ∨ c.attr + 4 ≤ i) :
    c.headed i = c.mem i := by
  rw [Cursor.headed, Mem.store16_of_not_mem (by omega), Mem.store16_of_not_mem (by omega)]

/-- Type and length of the attribute. -/
def Cursor.head (c : Cursor) : UInt16 × UInt16 :=
  (ntohs (c.mem.load16 c.attr), ntohs (c.mem.load16 (c.attr + 2)))

/-- A pass with the accesses to the head done. -/
theorem parseAttribute_eq {len : Nat} {c : Cursor} (hcovers : c.attr + c.bytesLeft = len)
    (hleft : 4 ≤ c.bytesLeft) :
    parseAttribute len c =
      let alen := switchStunAttributePaddedLength c.head.2
      if alen > toInt (c.bytesLeft - 4) ∨ alen < 0 then .ok (.inr (false, c.headed))
      else handleAttribute len c.headed (c.attr + 4) c.head.1 c.head.2
        >>= fun
          | none => .ok (.inr (false, c.headed))
          | some mem => advance len c mem (c.bytesLeft - 4) alen := by
  have htype : (c.mem.store16 (c.attr + 2) (ntohs (c.mem.load16 (c.attr + 2)))).load16 c.attr
      = c.mem.load16 c.attr :=
    Mem.load16_congr fun i _ hi => Mem.store16_of_not_mem (Or.inl (by omega))
  rw [parseAttribute, if_neg (by omega)]
  have hlength : c.attr + 2 + 2 ≤ len := by omega
  have htypeIn : c.attr + 2 ≤ len := by omega
  simp only [load16_of_le hlength, load16_of_le htypeIn, store16_of_le hlength, store16_of_le htypeIn,
    ok_bind, htype]
  rfl

theorem le_of_le_toInt {n : Nat} {x : Int} (h : x ≤ toInt n) : x ≤ n := by
  unfold toInt at h
  split_ifs at h <;> omega

section Pass

variable {buf : Mem} {len : Nat} {c c' : Cursor}

/-- The accesses of a pass stay inside exactly if there is room behind an empty value. -/
theorem parseAttribute_inside (htracks : c.Tracks buf len) (hleft : c.attr + 4 ≤ len) :
    Inside (parseAttribute len c) ↔
      (switchStunAttributePaddedLength c.head.2 = 0 → c.attr + 4 + (attrKind c.head.1).room ≤ len) := by
  have hcovers := htracks.covers
  have hheader := htracks.header
  rw [parseAttribute_eq hcovers (by omega)]
  generalize c.head.2 = length
  generalize c.head.1 = type
  simp only
  split
  · next hrefused =>
    -- an empty value is refused only if the bytes left are taken for a negative number
    refine iff_of_true (inside_ok _) fun hempty => ?_
    have hroom := (attrKind type).room_le
    rw [hempty] at hrefused
    unfold toInt at hrefused
    split_ifs at hrefused <;> omega
  · next haccepted =>
    obtain ⟨hle, hpos⟩ := not_or.mp haccepted
    have hle : switchStunAttributePaddedLength length ≤ ((c.bytesLeft - 4 : Nat) : Int) :=
      le_of_le_toInt (not_lt.mp hle)
    have hvalue : c.attr + 4 + (c.bytesLeft - 4) = len := by omega
    rw [inside_bind_of_inside, handleAttribute_inside hvalue (not_lt.mp hpos) hle]
    · omega
    · intro result
      split
      · exact inside_ok _
      · exact advance_inside (by omega)

/-- The state behind an attribute. -/
def Cursor.next (c : Cursor) : Cursor :=
  let alen := switchStunAttributePaddedLength c.head.2
  ⟨(attrKind c.head.1).turn c.headed (c.attr + 4), c.attr + 4 + alen.toNat,
    c.bytesLeft - 4 - alen.toNat,
    c.xlen + (4 + alen)⟩

theorem parseAttribute_next_iff (htracks : c.Tracks buf len) (hleft : c.attr + 4 ≤ len)
    (hinside : Inside (parseAttribute len c)) :
    Next (parseAttribute len) c c' ↔ GoesOn buf len c.attr c.head.1 c.head.2 ∧ c' = c.next := by
  have hcovers := htracks.covers
  have hheader := htracks.header
  have hxlen := htracks.xlen
  have hleft' : c.bytesLeft - 4 = len - c.attr - 4 := by omega
  rw [Next, parseAttribute_eq hcovers (by omega)] at *
  simp only at hinside ⊢
  unfold GoesOn
  split at hinside
  · next hrefused =>
    rw [if_pos hrefused]
    rw [hleft'] at hrefused
    refine ⟨fun h => (by cases h), fun h => ?_⟩
    have hsize := h.1.1
    omega
  · next haccepted =>
    have hsize := le_of_le_toInt (not_lt.mp (not_or.mp haccepted).1)
    obtain ⟨r, hr, -⟩ := inside_bind_iff.mp hinside
    have hfamily : c.headed (c.attr + 4 + 1) = buf (c.attr + 5) := by
      rw [c.headed_of_not_mem (Or.inr (by omega)), htracks.rest _ (by omega)]
    have htotal : ((attrKind c.head.1).turn c.headed (c.attr + 4)).load16 2 = ntohs (buf.load16 2) := by
      rw [← htracks.total]
      exact Mem.load16_congr fun i _ hi => by
        rw [AttrKind.turn_of_not_mem _ _ (Or.inl (by omega)), c.headed_of_not_mem (Or.inl (by omega))]
    rw [if_neg haccepted, handleAttribute_eq ⟨r, hr⟩, ok_bind, hfamily]
    rw [hleft'] at haccepted hsize
    cases haccepts : (attrKind c.head.1).accepts (buf (c.attr + 5)) c.head.2 with
    | false => simp
    | true =>
      rw [if_pos rfl]
      show advance _ _ _ _ _ = _ ↔ _
      rw [advance_next_iff (by omega) (by omega), htotal]
      refine and_congr_left fun _ => ⟨fun h => ⟨by omega, rfl, by omega⟩, fun h => ?_⟩
      have hmore := h.2.2
      omega

/-- What the walk finds behind an attribute. -/
theorem Cursor.next_tracks (htracks : c.Tracks buf len)
    (hgoes : GoesOn buf len c.attr c.head.1 c.head.2)
    (hleft : c.attr + 4 ≤ len) : c.next.Tracks buf len := by
  have hcovers := htracks.covers
  have hheader := htracks.header
  have hxlen := htracks.xlen
  have hpos := hgoes.1.1
  have hsize := le_of_le_toInt hgoes.1.2
  refine ⟨?_, ?_, ?_, ?_, fun i hi => ?_⟩
  · show 20 ≤ c.attr + 4 + _
    omega
  · show c.attr + 4 + _ + (c.bytesLeft - 4 - _) = len
    omega
  · show c.xlen + (4 + _) + 20 = ((c.attr + 4 + _ : Nat) : Int)
    omega
  · rw [← htracks.total]
    exact Mem.load16_congr fun i _ hi => (AttrKind.turn_of_not_mem _ _ (Or.inl (by omega))).trans
      (c.headed_of_not_mem (Or.inl (by omega)))
  · have hi : c.attr + 4 + (switchStunAttributePaddedLength c.head.2).toNat + 4 ≤ i := hi
    exact ((AttrKind.turn_of_not_mem _ _ (Or.inr (by omega))).trans
      (c.headed_of_not_mem (Or.inr (by omega)))).trans (htracks.rest i (by omega))

theorem Cursor.next_head (htracks : c.Tracks buf len)
    (hgoes : GoesOn buf len c.attr c.head.1 c.head.2) :
    c.next.head = headBehind buf c.next.attr (attrKind c.head.1)
      (switchStunAttributePaddedLength c.head.2) := by
  have hrest : ∀ i, c.attr + 4 ≤ i → c.headed i = buf i := fun i hi =>
    (c.headed_of_not_mem (Or.inr hi)).trans (htracks.rest i hi)
  obtain ⟨⟨hpos, -⟩, haccepts, -⟩ := hgoes
  show (ntohs (((attrKind c.head.1).turn c.headed (c.attr + 4)).load16 (c.attr + 4 + _)),
    ntohs (((attrKind c.head.1).turn c.headed (c.attr + 4)).load16 (c.attr + 4 + _ + 2)))
      = headBehind buf (c.attr + 4 + _) _ _
  rcases paddedLength_cases hpos with ⟨hzero, hlength⟩ | ⟨-, hfour⟩
  · rw [hzero]
    exact turn_head hrest haccepts hlength
  · -- what was turned is in front of the next head
    have hword : ∀ a, c.attr + 8 ≤ a →
        ((attrKind c.head.1).turn c.headed (c.attr + 4)).load16 a = buf.load16 a := fun a ha =>
      Mem.load16_congr fun i hi _ =>
        (AttrKind.turn_of_not_mem _ _ (Or.inr (by omega))).trans (hrest i (by omega))
    rw [hword _ (by omega), hword _ (by omega), headBehind, if_neg (by omega), if_neg (by omega)]

/-- What the attributes need from here on is what this one needs, and the rest if the walk goes on. -/
theorem attributesFit_iff (htracks : c.Tracks buf len) : AttributesFit buf len c.attr c.head ↔
    Inside (parseAttribute len c) ∧
      ∀ c', Next (parseAttribute len) c c' → AttributesFit buf len c'.attr c'.head := by
  rw [AttributesFit]
  by_cases hleft : c.attr + 4 ≤ len
  · simp only [hleft, forall_const]
    rw [parseAttribute_inside htracks hleft]
    refine and_congr_right fun hroom => ?_
    have hinside := (parseAttribute_inside htracks hleft).mpr hroom
    constructor
    · intro hrest c' hnext
      obtain ⟨hgoes, rfl⟩ := (parseAttribute_next_iff htracks hleft hinside).mp hnext
      rw [c.next_head htracks hgoes]
      exact hrest hgoes
    · intro hall hgoes
      have hgood := hall c.next ((parseAttribute_next_iff htracks hleft hinside).mpr ⟨hgoes, rfl⟩)
      rwa [c.next_head htracks hgoes] at hgood
  · have hends : parseAttribute len c = .ok (.inr (false, c.mem)) := by
      have hcovers := htracks.covers
      rw [parseAttribute, if_pos (by omega)]
      rfl
    refine iff_of_true (fun h => absurd h hleft) ⟨⟨_, hends⟩, fun c' hnext => ?_⟩
    rw [Next, hends] at hnext
    cases hnext

/-- A pass that goes on has kept to the datagram, and has fewer bytes left. -/
theorem parseAttribute_next (htracks : c.Tracks buf len) (h : Next (parseAttribute len) c c') :
    c'.Tracks buf len ∧ c'.bytesLeft < c.bytesLeft := by
  have hcovers := htracks.covers
  by_cases hleft : c.attr + 4 ≤ len
  · obtain ⟨hgoes, rfl⟩ := (parseAttribute_next_iff htracks hleft ⟨_, h⟩).mp h
    refine ⟨c.next_tracks htracks hgoes hleft, ?_⟩
    show c.bytesLeft - 4 - _ < c.bytesLeft
    omega
  · rw [Next, parseAttribute, if_pos (by omega)] at h
    cases h

end Pass

/-! ## The whole datagram -/

/-- The datagram with its type and length turned to host order. -/
def hosted (buf : Mem) : Mem :=
  (buf.store16 0 (ntohs (buf.load16 0))).store16 2 (ntohs (buf.load16 2))

/-- The walk is entered behind a header that is taken. -/
theorem parseHeader_eq (len : Nat) (buf : Mem) : Inside (parseHeader len buf)
    ∧ ∀ c, parseHeader len buf = .ok (.inl c) ↔ HeaderTaken buf len
    ∧ c = ⟨hosted buf, 20, len - 20, 0⟩ := by
  unfold HeaderTaken
  by_cases hlen : len < 20
  · have heq : parseHeader len buf = .ok (.inr (false, buf)) := by
      rw [parseHeader, if_pos hlen]
      rfl
    rw [heq]
    exact ⟨inside_ok _, fun c => ⟨fun h => (by cases h), fun h => absurd h.1.1 (by omega)⟩⟩
  · have htype : 0 + 2 ≤ len := by omega
    have hlength : 2 + 2 ≤ len := by omega
    have hload : (buf.store16 0 (ntohs (buf.load16 0))).load16 2 = buf.load16 2 :=
      Mem.load16_store16_of_not_mem (Or.inr le_rfl) _
    rw [parseHeader, if_neg hlen]
    simp only [load16_of_le htype, load16_of_le hlength, store16_of_le htype, store16_of_le hlength,
      ok_bind, hload]
    have hzero : ntohs (buf.load16 2) = 0 ↔ (ntohs (buf.load16 2)).toNat = 0 := UInt16.toNat_inj.symm
    refine ⟨by split_ifs <;> exact inside_pure _, fun c => ⟨fun h => ?_, ?_⟩⟩
    · split_ifs at h with h₁ h₂ h₃ h₄ h₅ <;> cases h
      exact ⟨⟨by omega, h₂, Nat.pos_of_ne_zero (mt hzero.mpr h₄), by omega⟩, rfl⟩
    · rintro ⟨⟨h28, htypes, hpos, hle⟩, rfl⟩
      rw [if_neg (by omega), if_neg (not_not.mpr htypes), if_neg (by omega),
        if_neg (mt hzero.mp hpos.ne'),
        if_neg (by omega)]
      rfl

theorem hosted_of_le (buf : Mem) {i : Nat} (h : 4 ≤ i) : hosted buf i = buf i := by
  rw [hosted, Mem.store16_of_not_mem (by omega), Mem.store16_of_not_mem (by omega)]

theorem parseHeader_prepares (len : Nat) (buf : Mem) :
    Prepares (parseHeader len buf) (Cursor.Tracks buf len) Cursor.bytesLeft (len + 1) := by
  refine ⟨(parseHeader_eq len buf).1, fun c hc => ?_⟩
  obtain ⟨⟨hlen, -⟩, rfl⟩ := ((parseHeader_eq len buf).2 c).mp hc
  refine ⟨⟨le_rfl, ?_, rfl, Mem.load16_store16 _ _ _, fun i hi => hosted_of_le buf (by omega)⟩, ?_⟩
  · show 20 + (len - 20) = len
    omega
  · show len - 20 < len + 1
    omega

/-- The walk ends. -/
theorem switchStunPacketParse_isSome (buf : Mem) (len : UInt32) :
    (switchStunPacketParse buf len).isSome = true :=
  walk_isSome (parseHeader_prepares len.toNat buf)
    (fun _ _ htracks h => (parseAttribute_next htracks h).1)
    (fun _ _ htracks h => (parseAttribute_next htracks h).2)

/-- Every datagram is parsed, and only its own bytes are touched exactly if the header is not taken or
each attribute that is empty has room behind it. -/
theorem stun_parse_inside_iff (buf : Mem) (len : UInt32) :
    (∃ r, switchStunPacketParse buf len = some (.ok r)) ↔
      (HeaderTaken buf len.toNat →
        AttributesFit buf len.toNat 20 (ntohs (buf.load16 20), ntohs (buf.load16 22))) := by
  rw [switchStunPacketParse, walk_inside_iff (parseHeader_prepares len.toNat buf)
    (fun _ _ htracks h => (parseAttribute_next htracks h).1)
    (fun _ _ htracks h => (parseAttribute_next htracks h).2)
      (fun _ htracks => attributesFit_iff htracks)]
  have hhead : Cursor.head ⟨hosted buf, 20, len.toNat - 20, 0⟩
      = (ntohs (buf.load16 20), ntohs (buf.load16 22)) := by
    have hword : ∀ a, 4 ≤ a → (hosted buf).load16 a = buf.load16 a := fun a ha =>
      Mem.load16_congr fun i hi _ => hosted_of_le buf (by omega)
    exact Prod.ext (congrArg ntohs (hword 20 (by omega))) (congrArg ntohs (hword 22 (by omega)))
  rw [← hhead]
  constructor
  · exact fun hgood htaken => hgood _ (((parseHeader_eq len.toNat buf).2 _).mpr ⟨htaken, rfl⟩)
  · intro hfit c hc
    obtain ⟨htaken, rfl⟩ := ((parseHeader_eq len.toNat buf).2 c).mp hc
    exact hfit htaken

/-- A binding request of 28 bytes: an empty `USERNAME`, then an empty `MAPPED_ADDRESS`. -/
def emptyAttributes : Mem := fun a =>
  [0, 1, 0, 8, 0x21, 0x12, 0xa4, 0x42, 0, 0, 0, 0, 0, 0, 0, 0, 0, 0, 0, 0, 0, 6, 0, 0, 0, 1,
    0, 0].getD a 0

/-- The port of the address that is not there is taken from behind the datagram. -/
theorem stun_parse_overruns : switchStunPacketParse emptyAttributes 28 = some (.error 31) := by
  rfl

end FreeSwitch.Stun
