import FreeSwitch.Lib.Bytes

/-!
# STUN packets — building, `src/switch_stun.c`

A packet is a byte memory with the header at address 0: `type`, `length`, `cookie`, the
transaction id, and from address 20 on the attributes. `header.length` and the two fields of
an attribute head are the raw 16-bit words in network order, as the source keeps them; the
host is little-endian.

What the source takes from elsewhere comes in as an `Env`: the HMAC and CRC-32 of a byte
string, and what `inet_pton` makes of an address text.
-/

namespace FreeSwitch.Stun

open Bytes

/-! ## What is taken from outside -/

structure Env where
  /-- `HMAC(EVP_sha1(), key, data)`, 20 bytes. -/
  hmacSha1 : List UInt8 → List UInt8 → Fin 20 → UInt8
  /-- `switch_crc32_8bytes`. -/
  crc32 : List UInt8 → UInt32
  /-- `inet_pton(AF_INET, ..)`; `none` leaves the destination alone. -/
  inetPton4 : List UInt8 → Option (Fin 4 → UInt8)
  /-- `inet_pton(AF_INET6, ..)`. -/
  inetPton6 : List UInt8 → Option (Fin 16 → UInt8)

/-- The letters and digits `switch_stun_random_string` draws from. -/
def randomChars : List UInt8 :=
  (List.range 26).map (fun i => UInt8.ofNat (97 + i))
    ++ (List.range 26).map (fun i => UInt8.ofNat (65 + i))
    ++ (List.range 10).map (fun i => UInt8.ofNat (48 + i))

/-- `switch_stun_random_string` with the default set; `draws` are the indices `rand` gave. -/
def switchStunRandomString (draws : Nat → Fin 62) (len : Nat) : List UInt8 :=
  (List.range len).map fun i => randomChars.getD (draws i).val 0

/-! ## Constants -/

/-- `STUN_MAGIC_COOKIE`. -/
def stunMagicCookie : UInt32 := 0x2112A442

def attrUsername : UInt16 := 0x0006
def attrPassword : UInt16 := 0x0007
def attrMessageIntegrity : UInt16 := 0x0008
def attrXorMappedAddress : UInt16 := 0x0020
def attrPriority : UInt16 := 0x0024
def attrUseCand : UInt16 := 0x0025
def attrSoftware : UInt16 := 0x8022
def attrFingerprint : UInt16 := 0x8028
def attrControlled : UInt16 := 0x8029
def attrControlling : UInt16 := 0x802a

/-! ## Header -/

/-- `id = none` is a `NULL` id: a random one is drawn. -/
def switchStunPacketBuildHeader (type : UInt16) (id : Option (Fin 12 → UInt8))
    (draws : Nat → Fin 62) (buf : Mem) : Mem :=
  let m := (buf.store16 0 (htons type)).store16 2 0
  let m := m.write 4 (bytes32 (htonl stunMagicCookie))
  match id with
  | some id => m.write 8 (List.ofFn id)
  | none => m.write 8 (switchStunRandomString draws 12)

/-- `header.length`, in network order. -/
def headerLength (m : Mem) : UInt16 := m.load16 2

/-! ## Attributes -/

/-- `&packet->first_attribute + ntohs(packet->header.length)`. -/
def nextAttribute (m : Mem) : Nat := 20 + (ntohs (headerLength m)).toNat

/-- `attribute->type` and `attribute->length` of the attribute at `a`. -/
def putHead (m : Mem) (a : Nat) (type length : UInt16) : Mem :=
  (m.store16 a (htons type)).store16 (a + 2) (htons length)

/-- `packet->header.length += htons(sizeof(attribute) + padding) + attribute->length`: a sum
of words in network order. -/
def addLength (m : Mem) (a : Nat) (padding : UInt16) : Mem :=
  m.store16 2 (headerLength m + (htons (4 + padding) + m.load16 (a + 2)))

/-- `addr[0..15] ^= cookie, transaction id` at `a`. -/
def v6Xor (m : Mem) (a : Nat) : Mem :=
  m.write a (List.zipWith (fun x y => x ^^^ y) (m.read a 16)
    ([0x21, 0x12, 0xa4, 0x42] ++ m.read 8 12))

/-- `inet_pton` into the memory at `a`. -/
def putAddress {n : Nat} (m : Mem) (a : Nat) (addr : Option (Fin n → UInt8)) : Mem :=
  match addr with
  | some addr => m.write a (List.ofFn addr)
  | none => m

/-- The first byte of the value (`wasted`) is not written. -/
def switchStunPacketAttributeAddXorBindedAddress (env : Env) (m : Mem) (ipstr : List UInt8)
    (port : UInt16) (inet6 : Bool) : Mem :=
  let a := nextAttribute m
  let m := putHead m a attrXorMappedAddress (if inet6 then 20 else 8)
  let m := m.store16 (a + 6) (htons (port ^^^ (stunMagicCookie >>> 16).toUInt16))
  let m := m.write (a + 5) [if inet6 then 2 else 1]
  let m :=
    if inet6 then v6Xor (putAddress m (a + 8) (env.inetPton6 ipstr)) (a + 8)
    else
      let m := putAddress m (a + 8) (env.inetPton4 ipstr)
      m.write (a + 8) (bytes32 (htonl (ntohl (m.load32 (a + 8)) ^^^ stunMagicCookie)))
  addLength m a 0

def switchStunPacketAttributeAddPriority (m : Mem) (priority : UInt32) : Mem :=
  let a := nextAttribute m
  let m := putHead m a attrPriority 4
  addLength (m.write (a + 4) (bytes32 (htonl priority))) a 0

/-- The digest covers the packet before this attribute, with the new length in place. -/
def switchStunPacketAttributeAddIntegrity (env : Env) (m : Mem) (pass : List UInt8) : Mem :=
  let a := nextAttribute m
  let m := putHead m a attrMessageIntegrity 20
  let xlen := ntohs (headerLength m) + 20
  let m := addLength m a 0
  m.write (a + 4) (List.ofFn (env.hmacSha1 pass (m.read 0 xlen.toNat)))

/-- The checksum is over all that is in front of the attribute, with the length in which it counts. -/
def switchStunPacketAttributeAddFingerprint (env : Env) (m : Mem) : Mem :=
  let a := nextAttribute m
  let m := putHead m a attrFingerprint 4
  let xlen := ntohs (headerLength m) + 20
  let m := addLength m a 0
  m.write (a + 4) (bytes32 (htonl (env.crc32 (m.read 0 xlen.toNat) ^^^ 0x5354554e)))

def switchStunPacketAttributeAddUseCandidate (m : Mem) : Mem :=
  let a := nextAttribute m
  addLength (putHead m a attrUseCand 0) a 0

/-- The body `add_controlling` and `add_controlled` share: eight random characters. -/
def addRole (type : UInt16) (m : Mem) (draws : Nat → Fin 62) : Mem :=
  let a := nextAttribute m
  let m := putHead m a type 8
  addLength (m.write (a + 4) (switchStunRandomString draws 8)) a 0

def switchStunPacketAttributeAddControlling := addRole attrControlling

def switchStunPacketAttributeAddControlled := addRole attrControlled

/-- `padding` of the text attributes. -/
def textPadding (ulen : UInt16) : UInt16 := if ulen % 4 = 0 then 0 else 4 - ulen % 4

/-- The body `add_username`, `add_software` and `add_password` share. `text` are the bytes
behind the pointer passed in, `none` for `NULL`. The padding is counted but not written. -/
def addText (type : UInt16) (m : Mem) (text : Option (Nat → UInt8)) (ulen : UInt16)
    (draws : Nat → Fin 62) : Mem :=
  let a := nextAttribute m
  let m := putHead m a type ulen
  let m :=
    match text with
    | some text => m.write (a + 4) ((List.range ulen.toNat).map text)
    | none => m.write (a + 4) (switchStunRandomString draws ulen.toNat)
  addLength m a (textPadding ulen)

def switchStunPacketAttributeAddUsername := addText attrUsername

def switchStunPacketAttributeAddSoftware := addText attrSoftware

def switchStunPacketAttributeAddPassword := addText attrPassword

end FreeSwitch.Stun
