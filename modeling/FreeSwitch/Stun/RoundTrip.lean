import FreeSwitch.Lib.Inet
import FreeSwitch.Stun.Length
import FreeSwitch.Stun.Parse

/-!
# A mapped address, sent and received

`switch_stun_packet_attribute_add_xor_binded_address` masks address and port before they are sent,
`switch_stun_packet_attribute_get_xor_mapped_address` takes the mask away. For both families the mask of
the address is what stands in the header from the cookie on: four bytes of it, or sixteen with the
transaction id.

* **`Carries`** — a packet with an address, as it is sent.
* **`Carries.parse`** — what the parser makes of it.
* **`stun_address_roundTrip`** — the address and the port are read back.
-/

namespace FreeSwitch.Stun

open Bytes Bounded Inet

/-- `inet_ntop(AF_INET6, ..)` comes in as `ntop6`; the first component is the memory that is left. -/
def switchStunPacketAttributeGetXorMappedAddress (ntop6 : (Fin 16 → UInt8) → List UInt8) (m : Mem)
    (attr : Nat) :
    Mem × List UInt8 × UInt16 :=
  let value := attr + 4
  let (m, ipstr) :=
    if m (value + 1) = 2 then
      let m := v6Xor m (value + 4)
      (m, ntop6 fun i => m (value + 4 + i))
    else
      let m := m.write (value + 4) (bytes32 (m.load32 (value + 4) ^^^ m.load32 4))
      (m, dotted (m (value + 4)) (m (value + 4 + 1)) (m (value + 4 + 2)) (m (value + 4 + 3)))
  let port := m.load16 (value + 2) ^^^ (ntohl (m.load32 4) >>> 16).toUInt16
  (m.store16 (value + 2) port, ipstr, port)

/-- `switch_stun_packet_length`. -/
def switchStunPacketLength (m : Mem) : UInt32 := (ntohs (headerLength m)).toUInt32 + 20

inductive Address where
  | v4 (a : Fin 4 → UInt8)
  | v6 (a : Fin 16 → UInt8)

namespace Address

def inet6 : Address → Bool
  | v4 _ => false
  | v6 _ => true

def bytes : Address → List UInt8
  | v4 a => List.ofFn a
  | v6 a => List.ofFn a

/-- The text of an address, as it is passed in and as it comes out. -/
def text (ntop6 : (Fin 16 → UInt8) → List UInt8) : Address → List UInt8
  | v4 a => dotted (a 0) (a 1) (a 2) (a 3)
  | v6 a => ntop6 a

/-- The length of the attribute's value, and its family. -/
def valueLen (addr : Address) : UInt16 := if addr.inet6 then 20 else 8

def family (addr : Address) : UInt8 := if addr.inet6 then 2 else 1

theorem valueLen_cases (addr : Address) : addr.valueLen = 8 ∨ addr.valueLen = 20 := by
  cases addr with
  | v4 a => exact Or.inl rfl
  | v6 a => exact Or.inr rfl

end Address

/-! ## Masks -/

def mask (a key : List UInt8) : List UInt8 := List.zipWith (· ^^^ ·) a key

theorem mask_mask {a key : List UInt8} (h : a.length ≤ key.length) : mask (mask a key) key = a := by
  induction a generalizing key with
  | nil => rfl
  | cons x a ih =>
    cases key with
    | nil => exact absurd h (by simp)
    | cons k key =>
      have hx : x ^^^ k ^^^ k = x := by rw [UInt8.xor_assoc, UInt8.xor_self, UInt8.xor_zero]
      exact congrArg₂ List.cons hx (ih (Nat.le_of_succ_le_succ h))

theorem mask_reverse {a key : List UInt8} (h : a.length = key.length) :
    mask a.reverse key.reverse = (mask a key).reverse :=
  (List.reverse_zipWith h).symm

theorem bytes32_xor (x y : UInt32) : bytes32 (x ^^^ y) = mask (bytes32 x) (bytes32 y) := by
  simp only [bytes32, mask, UInt32.toNat_xor, List.zipWith_cons_cons, List.zipWith_nil_left,
    ← UInt8.ofNat_xor]
  rw [show (256 : Nat) = 2 ^ 8 from rfl, Nat.xor_div_two_pow, Nat.xor_div_two_pow, Nat.xor_div_two_pow]

/-- The cookie in the header. -/
def cookieBytes : List UInt8 := [0x21, 0x12, 0xa4, 0x42]

theorem bytes32_stunMagicCookie : bytes32 stunMagicCookie = cookieBytes.reverse := by decide

/-! ## The packet that is sent -/

/-- A packet with one attribute that holds the address and the port. -/
structure Carries (m : Mem) (type : UInt16) (addr : Address) (port : UInt16) : Prop where
  type : m.load16 0 = htons type
  length : m.load16 2 = htons (addr.valueLen + 4)
  cookie : m.read 4 4 = cookieBytes
  attrType : m.load16 20 = htons attrXorMappedAddress
  attrLength : m.load16 22 = htons addr.valueLen
  family : m 25 = addr.family
  port : m.load16 26 = htons (port ^^^ 0x2112)
  address : m.read 28 addr.bytes.length = mask addr.bytes (m.read 4 addr.bytes.length)

section Sent

variable (type : UInt16) (id : Option (Fin 12 → UInt8)) (draws : Nat → Fin 62) (buf : Mem)

theorem load16_buildHeader : (switchStunPacketBuildHeader type id draws buf).load16 0 = htons type
      ∧ (switchStunPacketBuildHeader type id draws buf).load16 2 = 0
      ∧ (switchStunPacketBuildHeader type id draws buf).read 4 4 = cookieBytes := by
  have hids : ∃ bs, switchStunPacketBuildHeader type id draws buf
      = (((buf.store16 0 (htons type)).store16 2 0).write 4 (bytes32 (htonl stunMagicCookie))).write 8
        bs := by
    cases id with
    | none => exact ⟨_, rfl⟩
    | some id => exact ⟨_, rfl⟩
  obtain ⟨bs, hbs⟩ := hids
  have hlow : ∀ i, i < 4 → switchStunPacketBuildHeader type id draws buf i
      = (buf.store16 0 (htons type)).store16 2 0 i := by
    intro i hi
    rw [hbs, Mem.write_of_not_mem (by omega), Mem.write_of_not_mem (by omega)]
  refine ⟨?_, ?_, ?_⟩
  · rw [Mem.load16_congr fun i _ hi => hlow i (by omega), Mem.load16_store16_of_not_mem (by omega),
      Mem.load16_store16]
  · rw [Mem.load16_congr fun i _ hi => hlow i (by omega), Mem.load16_store16]
  · have hcookie : bytes32 (htonl stunMagicCookie) = cookieBytes := by
      rw [bytes32_htonl, bytes32_stunMagicCookie, List.reverse_reverse]
    rw [hbs, Mem.read_write_of_not_mem (by omega), hcookie]
    exact Mem.read_write _ 4 cookieBytes

/-- The value of the attribute, before the address is masked. -/
def valueWritten (m : Mem) (addr : Address) (port : UInt16) : Mem :=
  (((putHead m 20 attrXorMappedAddress addr.valueLen).store16 26 (htons (port ^^^ 0x2112))).write 25
    [addr.family]).write 28 addr.bytes

theorem read_valueWritten (m : Mem) (addr : Address) (port : UInt16) {a n : Nat} (h : a + n ≤ 20) :
    (valueWritten m addr port).read a n = m.read a n :=
  Mem.read_congr fun i _ hi => by
    rw [valueWritten, Mem.write_of_not_mem (by omega), Mem.write_of_not_mem (by omega),
      Mem.store16_of_not_mem (by omega),
      putHead, Mem.store16_of_not_mem (by omega), Mem.store16_of_not_mem (by omega)]

/-- The masked address, for both families. -/
theorem addXorBindedAddress_eq {env : Env} {ntop6 : (Fin 16 → UInt8) → List UInt8}
    {addr : Address} {m : Mem} (h4 : ∀ a, env.inetPton4 (dotted (a 0) (a 1) (a 2) (a 3)) = some a)
    (h6 : ∀ a, env.inetPton6 (ntop6 a) = some a)
    (hlength : m.load16 2 = 0) (hcookie : m.read 4 4 = cookieBytes) (port : UInt16) :
    switchStunPacketAttributeAddXorBindedAddress env m (addr.text ntop6) port addr.inet6
      = addLength ((valueWritten m addr port).write 28 (mask addr.bytes (m.read 4 addr.bytes.length)))
        20 0 := by
  have hnext : nextAttribute m = 20 := by
    rw [nextAttribute, headerLength, hlength]
    rfl
  have hwritten : (valueWritten m addr port).read 28 addr.bytes.length = addr.bytes :=
    Mem.read_write _ _ _
  unfold switchStunPacketAttributeAddXorBindedAddress
  simp only [hnext]
  cases addr with
  | v4 a =>
    have hsize : ((valueWritten m (.v4 a) port).read 28 4).length = cookieBytes.length :=
      Mem.length_read _ _ _
    have hword : bytes32 (htonl (ntohl ((valueWritten m (.v4 a) port).load32 28) ^^^ stunMagicCookie))
        = mask (Address.v4 a).bytes (m.read 4 4) := by
      rw [bytes32_htonl, bytes32_xor, bytes32_stunMagicCookie, ntohl, bytes32_htonl, bytes32_load32,
        mask_reverse hsize, List.reverse_reverse, hcookie]
      exact congrArg (mask · cookieBytes) hwritten
    have haddr : env.inetPton4 ((Address.v4 a).text ntop6) = some a := h4 a
    rw [haddr]
    exact congrArg (fun bs => addLength ((valueWritten m (.v4 a) port).write 28 bs) 20 0) hword
  | v6 a =>
    have haddr : env.inetPton6 ((Address.v6 a).text ntop6) = some a := h6 a
    have hkey : cookieBytes ++ (valueWritten m (.v6 a) port).read 8 12 = m.read 4 16 := by
      rw [read_valueWritten m (.v6 a) port (by omega), ← hcookie]
      exact (Mem.read_add m 4 4 12).symm
    rw [haddr]
    show addLength (v6Xor (valueWritten m (.v6 a) port) 28) 20 0 = _
    rw [v6Xor]
    exact congrArg₂ (fun bs key =>
      addLength ((valueWritten m (.v6 a) port).write 28 (mask bs key)) 20 0) hwritten hkey

theorem carries_built {env : Env} {ntop6 : (Fin 16 → UInt8) → List UInt8}
    (h4 : ∀ a, env.inetPton4 (dotted (a 0) (a 1) (a 2) (a 3)) = some a)
    (h6 : ∀ a, env.inetPton6 (ntop6 a) = some a) (addr : Address) (port : UInt16) :
    Carries (switchStunPacketAttributeAddXorBindedAddress env
      (switchStunPacketBuildHeader type id draws buf)
      (addr.text ntop6) port addr.inet6) type addr port := by
  obtain ⟨htype, hlength, hcookie⟩ := load16_buildHeader type id draws buf
  generalize switchStunPacketBuildHeader type id draws buf = m at htype hlength hcookie ⊢
  rw [addXorBindedAddress_eq h4 h6 hlength hcookie]
  have hsize : addr.bytes.length ≤ 16 := by cases addr <;> simp [Address.bytes]
  -- behind its length the header is as it was built
  have hframe : ∀ {a n : Nat}, 4 ≤ a → a + n ≤ 20 →
      (addLength ((valueWritten m addr port).write 28 (mask addr.bytes (m.read 4 addr.bytes.length)))
        20 0).read a n
        = m.read a n := by
    intro a n ha hn
    rw [addLength, Mem.store16, Mem.read_write_of_not_mem (by right; exact ha),
      Mem.read_write_of_not_mem (by omega),
      read_valueWritten m addr port hn]
  have hattr :
      ((valueWritten m addr port).write 28 (mask addr.bytes (m.read 4 addr.bytes.length))).load16 22
      = htons addr.valueLen := by
    simp (disch := omega) only [valueWritten, putHead, Mem.load16_write_of_not_mem,
      Mem.load16_store16_of_not_mem, Mem.load16_store16]
  have hlow : ∀ {a : Nat}, a + 2 ≤ 20 →
      ((valueWritten m addr port).write 28 (mask addr.bytes (m.read 4 addr.bytes.length))).load16 a
        = m.load16 a := by
    intro a ha
    simp (disch := omega) only [valueWritten, putHead, Mem.load16_write_of_not_mem,
      Mem.load16_store16_of_not_mem]
  constructor
  case type => rw [addLength, Mem.load16_store16_of_not_mem (by omega), hlow (by omega), htype]
  case length =>
    rw [addLength, Mem.load16_store16, headerLength, hlow (by omega), hlength, hattr]
    rcases addr.valueLen_cases with hlen | hlen <;> rw [hlen] <;> decide
  case cookie => rw [hframe (by omega) (by omega), hcookie]
  case attrType =>
    simp (disch := omega) only [addLength, valueWritten, putHead, Mem.load16_write_of_not_mem,
      Mem.load16_store16_of_not_mem,
      Mem.load16_store16]
  case attrLength => rw [addLength, Mem.load16_store16_of_not_mem (by omega), hattr]
  case family =>
    rw [addLength, Mem.store16_of_not_mem (by omega), Mem.write_of_not_mem (by omega), valueWritten,
      Mem.write_of_not_mem (by omega)]
    rfl
  case port =>
    rw [addLength, Mem.load16_store16_of_not_mem (by omega),
      Mem.load16_write_of_not_mem (by omega), valueWritten,
      Mem.load16_write_of_not_mem (by omega), Mem.load16_write_of_not_mem (by simp), Mem.load16_store16]
  case address =>
    have hmask : (mask addr.bytes (m.read 4 addr.bytes.length)).length = addr.bytes.length := by
      rw [mask, List.length_zipWith, Mem.length_read, Nat.min_self]
    have hread :=
      Mem.read_write (valueWritten m addr port) 28 (mask addr.bytes (m.read 4 addr.bytes.length))
    rw [hmask] at hread
    rw [hframe le_rfl (by omega), addLength, Mem.store16,
      Mem.read_write_of_not_mem (by right; simp), hread]

end Sent

/-! ## The packet that is received -/

/-- The packet as the parser leaves it: the words that it knows are in the order of the host. -/
def parsed (m : Mem) (type : UInt16) (addr : Address) (port : UInt16) : Mem :=
  ((((m.store16 0 type).store16 2 (addr.valueLen + 4)).store16 22 addr.valueLen).store16 20
    attrXorMappedAddress).store16 26
    (port ^^^ 0x2112)

section Received

variable {m : Mem} {type : UInt16} {addr : Address} {port : UInt16}

theorem Carries.parse (h : Carries m type addr port) (htype : type ∈ messageTypes) :
    switchStunPacketParse m (switchStunPacketLength m)
      = some (.ok (true, parsed m type addr port)) := by
  have hlen : (switchStunPacketLength m).toNat = addr.valueLen.toNat + 24 := by
    rw [switchStunPacketLength, headerLength, h.length, ntohs_htons]
    rcases addr.valueLen_cases with hlen | hlen <;> rw [hlen] <;> decide
  have hheader : parseHeader (addr.valueLen.toNat + 24) m = .ok (.inl
      ⟨(m.store16 0 type).store16 2 (addr.valueLen + 4), 20, addr.valueLen.toNat + 4, 0⟩) := by
    unfold parseHeader
    simp (disch := omega) only [load16_of_le, store16_of_le, ok_bind, h.type, ntohs_htons,
      Mem.load16_store16_of_not_mem,
      h.length]
    rcases addr.valueLen_cases with hlen | hlen <;> rw [hlen] <;> simp [htype] <;> rfl
  have hmin : 8 ≤ addr.valueLen.toNat := by
    rcases addr.valueLen_cases with hlen | hlen <;> rw [hlen] <;> decide
  have hpad : switchStunAttributePaddedLength addr.valueLen = addr.valueLen.toNat := by
    rcases addr.valueLen_cases with hlen | hlen <;> rw [hlen] <;> rfl
  have hplus : (addr.valueLen + 4).toNat = addr.valueLen.toNat + 4 := by
    rcases addr.valueLen_cases with hlen | hlen <;> rw [hlen] <;> rfl
  have hleft : toInt (addr.valueLen.toNat + 4 - 4) = addr.valueLen.toNat := by
    rw [Nat.add_sub_cancel]
    rcases addr.valueLen_cases with hlen | hlen <;> rw [hlen] <;> rfl
  have hkind : attrKind attrXorMappedAddress = .address := rfl
  have hstored : (parsed m type addr port).load16 2 = addr.valueLen + 4 := by
    unfold parsed
    simp (disch := omega) only [Mem.load16_store16_of_not_mem, Mem.load16_store16]
  have hattribute : parseAttribute (addr.valueLen.toNat + 24)
      ⟨(m.store16 0 type).store16 2 (addr.valueLen + 4), 20, addr.valueLen.toNat + 4, 0⟩
        = .ok (.inr (true, parsed m type addr port)) := by
    unfold parseAttribute
    simp (disch := omega) only [load16_of_le, store16_of_le, ok_bind, h.attrLength, ntohs_htons,
      Mem.load16_store16_of_not_mem,
      h.attrType, hpad, hleft, handleAttribute, hkind, swapPort, h.port]
    rw [if_neg (by omega), if_neg (by omega)]
    show advance _ _ (parsed m type addr port) _ _ = _
    unfold advance finish
    simp (disch := omega) only [load16_of_le, hstored, ok_bind, Int.toNat_natCast, hplus]
    rw [if_neg (by omega), if_neg (by omega), if_neg (by omega)]
    rfl
  rw [switchStunPacketParse, hlen]
  unfold walk
  rw [hheader]
  show iterate _ _ _ = _
  rw [iterate, hattribute]

/-- The words that the parser turns lie apart from what the receiver reads. -/
theorem parsed_of_not_mem {i : Nat} (h : 4 ≤ i ∧ i < 20 ∨ 24 ≤ i ∧ i < 26 ∨ 28 ≤ i) :
    parsed m type addr port i = m i := by
  unfold parsed
  rw [Mem.store16_of_not_mem (by omega), Mem.store16_of_not_mem (by omega),
    Mem.store16_of_not_mem (by omega),
    Mem.store16_of_not_mem (by omega), Mem.store16_of_not_mem (by omega)]

/-- The address is there again when the mask is taken away. -/
theorem Carries.unmask (h : Carries m type addr port) :
    mask ((parsed m type addr port).read 28 addr.bytes.length)
      ((parsed m type addr port).read 4 addr.bytes.length)
      = addr.bytes := by
  have hsize : addr.bytes.length ≤ 16 := by cases addr <;> simp [Address.bytes]
  rw [Mem.read_congr fun i hi _ => parsed_of_not_mem (by omega),
    Mem.read_congr fun i hi hi' => parsed_of_not_mem (by omega),
    h.address, mask_mask (Mem.length_read _ _ _).ge]

theorem ofFn_eq_of_read {n : Nat} {a : Fin n → UInt8} {m : Mem} {b : Nat}
    (h : m.read b n = List.ofFn a) (i : Fin n) :
    m (b + i) = a i := by
  have hget := congrArg (·[i.val]?) h
  simpa [Mem.read] using hget

theorem Carries.get (h : Carries m type addr port) (ntop6 : (Fin 16 → UInt8) → List UInt8) :
    (switchStunPacketAttributeGetXorMappedAddress ntop6 (parsed m type addr port) 20).2
      = (addr.text ntop6, port) := by
  have hunmask := h.unmask
  have hfamily : parsed m type addr port 25 = addr.family :=
    (parsed_of_not_mem (by omega)).trans h.family
  have hcookie : (parsed m type addr port).read 4 4 = cookieBytes :=
    (Mem.read_congr fun i hi hi' => parsed_of_not_mem (by omega)).trans h.cookie
  have hport : (parsed m type addr port).load16 26 = port ^^^ 0x2112 := Mem.load16_store16 _ _ _
  generalize parsed m type addr port = p at hunmask hfamily hcookie hport
  -- the address goes where its masked form was
  have hread : (p.write 28 addr.bytes).read 28 addr.bytes.length = addr.bytes := Mem.read_write _ _ _
  have hword : (p.write 28 addr.bytes).load32 4 = htonl stunMagicCookie := by
    have hbytes : (p.write 28 addr.bytes).read 4 4 = List.ofFn ![0x21, 0x12, 0xa4, 0x42] :=
      (Mem.read_write_of_not_mem (Or.inl (by omega))).trans hcookie
    have hbyte := ofFn_eq_of_read hbytes
    rw [Mem.load32, show (4 : Nat) = 4 + (0 : Fin 4) from rfl, hbyte 0]
    show UInt32.ofNat (_ + 256 * (p.write 28 addr.bytes (4 + (1 : Fin 4))).toNat
      + 2 ^ 16 * (p.write 28 addr.bytes (4 + (2 : Fin 4))).toNat + 2 ^ 24 *
        (p.write 28 addr.bytes (4 + (3 : Fin 4))).toNat) = _
    rw [hbyte 1, hbyte 2, hbyte 3]
    rfl
  have hback : (p.write 28 addr.bytes).load16 26 ^^^
      (ntohl ((p.write 28 addr.bytes).load32 4) >>> 16).toUInt16 = port := by
    rw [Mem.load16_write_of_not_mem (by omega), hport, hword, ntohl, htonl_htonl]
    show port ^^^ 0x2112 ^^^ 0x2112 = port
    rw [UInt16.xor_assoc, UInt16.xor_self, UInt16.xor_zero]
  cases addr with
  | v4 a =>
    have hbs : bytes32 (p.load32 28 ^^^ p.load32 4) = (Address.v4 a).bytes := by
      rw [bytes32_xor, bytes32_load32, bytes32_load32]
      exact hunmask
    have hbyte : ∀ i : Fin 4, p.write 28 (Address.v4 a).bytes (28 + i) = a i := ofFn_eq_of_read hread
    have htext : dotted _ _ _ _ = dotted (a 0) (a 1) (a 2) (a 3) :=
      congr (congr (congr (congrArg dotted (hbyte 0)) (hbyte 1)) (hbyte 2)) (hbyte 3)
    have hv4 : p 25 ≠ 2 := by
      rw [hfamily]
      exact (by decide : (1 : UInt8) ≠ 2)
    unfold switchStunPacketAttributeGetXorMappedAddress
    simp only [Nat.reduceAdd, if_neg hv4]
    rw [hbs]
    exact congrArg₂ Prod.mk htext hback
  | v6 a =>
    replace hfamily : p 25 = 2 := hfamily
    have hkey : cookieBytes ++ p.read 8 12 = p.read 4 16 := by
      rw [← hcookie]
      exact (Mem.read_add p 4 4 12).symm
    have hbs : v6Xor p 28 = p.write 28 (Address.v6 a).bytes := by
      have hmask : mask (p.read 28 16) (cookieBytes ++ p.read 8 12) = (Address.v6 a).bytes :=
        hkey ▸ hunmask
      exact congrArg (p.write 28) hmask
    have hbyte := ofFn_eq_of_read hread
    unfold switchStunPacketAttributeGetXorMappedAddress
    simp only [Nat.reduceAdd, if_pos hfamily]
    rw [hbs]
    exact congrArg₂ Prod.mk (congrArg ntop6 (funext hbyte)) hback

end Received

/-- A packet with an address and a port, of any message type and with any transaction id, is parsed, and
the same address and port are read from it. -/
theorem stun_address_roundTrip (env : Env) (ntop6 : (Fin 16 → UInt8) → List UInt8)
    (h4 : ∀ a, env.inetPton4 (dotted (a 0) (a 1) (a 2) (a 3)) = some a)
    (h6 : ∀ a, env.inetPton6 (ntop6 a) = some a)
    {type : UInt16} (htype : type ∈ messageTypes) (id : Option (Fin 12 → UInt8))
    (draws : Nat → Fin 62) (buf : Mem) (addr : Address) (port : UInt16) :
    let m :=
      switchStunPacketAttributeAddXorBindedAddress env (switchStunPacketBuildHeader type id draws buf)
      (addr.text ntop6) port addr.inet6
    ∃ m', switchStunPacketParse m (switchStunPacketLength m) = some (.ok (true, m'))
      ∧ (switchStunPacketAttributeGetXorMappedAddress ntop6 m' 20).2 = (addr.text ntop6, port) := by
  have hcarries := carries_built type id draws buf h4 h6 addr port
  exact ⟨_, hcarries.parse htype, hcarries.get ntop6⟩

/-- A response with `192.0.2.1` and port 3478, where `inet_ntop` for IPv6 writes the 16 bytes
themselves. -/
theorem stun_address_roundTrip_v4 :
    let env : Env := ⟨fun _ _ _ => 0, fun _ => 0, fun s => (inetPton4 s).map fun bs i => bs.getD i 0,
      fun s => some fun i => s.getD i 0⟩
    let m := switchStunPacketAttributeAddXorBindedAddress env
      (switchStunPacketBuildHeader 0x0101 (some fun _ => 7)
      (fun _ => 0) fun _ => 0) (dotted 192 0 2 1) 3478 false
    ∃ m', switchStunPacketParse m (switchStunPacketLength m) = some (.ok (true, m'))
      ∧ (switchStunPacketAttributeGetXorMappedAddress List.ofFn m' 20).2
        = (dotted 192 0 2 1, 3478) := by
  refine stun_address_roundTrip _ List.ofFn ?_ ?_ (by decide) _ _ _ (.v4 ![192, 0, 2, 1]) 3478
  · intro a
    show Option.map _ (inetPton4 (dotted (a 0) (a 1) (a 2) (a 3))) = some a
    rw [inetPton4_dotted, Option.map_some]
    exact congrArg some (funext fun i => by fin_cases i <;> rfl)
  · intro a
    exact congrArg some (funext fun i => by fin_cases i <;> rfl)

end FreeSwitch.Stun
