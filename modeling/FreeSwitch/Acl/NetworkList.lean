import FreeSwitch.Lib.Inet

/-!
# Network lists — `src/switch_utils.c`

A list of networks, the last one added first. A network is parsed from the text `address/bits`; the
verdict on an address is that of the matching node with the most bits, found in one walk over the
list. The mask of a network is made by a shift that the processor takes modulo 32, so both 0 and 32
bits leave an empty mask, and `switch_test_subnet` treats an empty mask in a way of its own.

What the source takes from elsewhere comes in as an `Env`.
-/

namespace FreeSwitch.Acl

open CString Bytes Inet

structure Env where
  /-- What `switch_separate_string` makes of a text with commas, in at most 32 parts. -/
  separateString : Str → List Str
  /-- `inet_pton(AF_INET6, ..)`, 16 bytes. -/
  inetPton6 : Str → Option (List UInt8)
  /-- What an address variable holds before `inet_pton` stores into it. -/
  stale4 : UInt32
  stale6 : List UInt8

/-! ## Parsing -/

/-- The union `ip_t`. -/
inductive IpT where
  | v4 (addr : UInt32)
  | v6 (addr : List UInt8)

/-- The results of `switch_parse_cidr` other than 0. -/
inductive CidrError where
  /-- `-1`: there is no slash. -/
  | noBits
  /-- `-2`: the number of bits is out of range. -/
  | badBits

/-- `0xFFFFFFFF & ~(0xFFFFFFFF >> bits)`; the processor shifts by `bits` modulo 32, as `>>>` does. -/
def mask4 (bits : Nat) : UInt32 := 0xFFFFFFFF &&& ~~~((0xFFFFFFFF : UInt32) >>> UInt32.ofNat bits)

/-- The mask byte by byte: `n` bits are left for the remaining `i` bytes. -/
def mask6 : Nat → Nat → List UInt8
  | 0, _ => []
  | i + 1, n => if 8 ≤ n then 0xFF :: mask6 i (n - 8)
    else (0xFF &&& ~~~((0xFF : UInt8) >>> UInt8.ofNat n)) :: mask6 i 0

/-- The first bytes of an address as a word of the host, if `inet_pton` stored one. -/
def storedWord (stale : UInt32) : Option (List UInt8) → UInt32
  | some [a, b, c, d] => word32 a b c d
  | _ => stale

/-- `host` has room for 126 characters. -/
def switchParseCidr (env : Env) (string : Str) : Except CidrError (IpT × IpT × Nat) :=
  let host := string.take 126
  match host.dropWhile (· ≠ 47) with
  | [] => .error .noBits
  | _ :: bitStr =>
    let bits := atoi bitStr
    let host := host.takeWhile (· ≠ 47)
    if string.contains 58 then
      if bits < 0 ∨ bits > 128 then .error .badBits
      else .ok (.v6 ((env.inetPton6 host).getD env.stale6), .v6 (mask6 16 bits.toNat), bits.toNat)
    else
      if bits < 0 ∨ bits > 32 then .error .badBits
      else .ok (.v4 (htonl (storedWord env.stale4 (inetPton4 host))),
        .v4 (mask4 bits.toNat), bits.toNat)

/-! ## The list -/

structure PortRange where
  port : Int
  /-- `MAX_NETWORK_PORTS` ports, up to the first 0. -/
  ports : List Int
  minPort : Int
  maxPort : Int

def PortRange.none : PortRange := ⟨0, [], 0, 0⟩

inductive Family where
  | inet
  | inet6
  /-- 0: `switch_network_list_add_host_mask` does not set the field. -/
  | unspec
  deriving DecidableEq

/-- `switch_network_node_t`, without the link. -/
structure SwitchNetworkNode where
  ip : IpT
  mask : IpT
  bits : Nat
  family : Family
  ok : Bool
  token : Option Str
  str : Str
  portRange : PortRange

/-- The nodes from `node_head` on. -/
structure SwitchNetworkList where
  nodes : List SwitchNetworkNode
  defaultType : Bool
  name : Str

/-- `switch_network_list_create`. -/
def switchNetworkListCreate (name : Str) (defaultType : Bool) : SwitchNetworkList :=
  ⟨[], defaultType, name⟩

/-- The text behind `::ffff:`. -/
def switchNetworkIpv4MappedIpv6Addr (ipStr : Str) : Option Str :=
  if lower (ipStr.take 7) = bytes "::ffff:" then some (ipStr.drop 7) else none

/-- The list and whether the network was added. -/
def switchNetworkListPerformAddCidrToken (env : Env) (list : SwitchNetworkList)
    (cidrStr : Str) (ok : Bool)
    (token : Option Str) (port : Option PortRange) : SwitchNetworkList × Bool :=
  let cidrStr := (switchNetworkIpv4MappedIpv6Addr cidrStr).getD cidrStr
  match switchParseCidr env cidrStr with
  | .error _ => (list, false)
  | .ok (ip, mask, bits) =>
    let node : SwitchNetworkNode :=
      { ip, mask, bits, ok
        family := if cidrStr.contains 58 then .inet6 else .inet
        -- `zstr`: an empty token is none
        token := token.filter fun t => ¬ t.isEmpty
        str := cidrStr
        portRange := port.getD .none }
    ({ list with nodes := node :: list.nodes }, true)

def switchNetworkListAddCidrPortToken (env : Env) (list : SwitchNetworkList) (cidrStr : Str) (ok : Bool)
    (token : Option Str) (port : Option PortRange) : SwitchNetworkList × Bool :=
  if cidrStr.contains 44 then
    (env.separateString cidrStr).foldl (fun (list, status) part =>
      let (list, added) := switchNetworkListPerformAddCidrToken env list part ok token port
      (list, status && added)) (list, true)
  else switchNetworkListPerformAddCidrToken env list cidrStr ok token port

def switchNetworkListAddCidrToken (env : Env) (list : SwitchNetworkList) (cidrStr : Str) (ok : Bool)
    (token : Option Str) : SwitchNetworkList × Bool :=
  switchNetworkListAddCidrPortToken env list cidrStr ok token none

/-- The bits of a mask, counted side by side. -/
def countBits (mask : UInt32) : UInt32 :=
  let mask : UInt32 := mask - ((mask >>> 1) &&& 0x55555555)
  let mask : UInt32 := (mask &&& (0x33333333 : UInt32)) +
    ((mask >>> (2 : UInt32)) &&& (0x33333333 : UInt32))
  (((mask + (mask >>> 4)) &&& 0xF0F0F0F) * 0x1010101) >>> 24

/-- The text is `host:mask`. -/
def switchNetworkListAddHostPortMask (env : Env) (list : SwitchNetworkList)
    (host maskStr : Str) (ok : Bool) (port : Option PortRange) : SwitchNetworkList :=
  let ip := storedWord env.stale4 (inetPton4 host)
  let mask := storedWord env.stale4 (inetPton4 maskStr)
  let node : SwitchNetworkNode :=
    { ip := .v4 (htonl ip), mask := .v4 (htonl mask), bits := (countBits mask).toNat,
      family := .unspec, ok
      token := none, str := host ++ 58 :: maskStr, portRange := port.getD .none }
  { list with nodes := node :: list.nodes }

def switchNetworkListAddHostMask (env : Env) (list : SwitchNetworkList)
    (host maskStr : Str) (ok : Bool) :
    SwitchNetworkList :=
  switchNetworkListAddHostPortMask env list host maskStr ok none

/-! ## Verdicts -/

/-- `switch_test_subnet`. -/
def switchTestSubnet (ip net mask : UInt32) : Bool :=
  if mask ≠ 0 then net &&& mask == ip &&& mask
  else if net ≠ 0 then net == ip
  else true

/-- `is_port_in_node`. -/
def isPortInNode (port : Int) (node : SwitchNetworkNode) : Bool :=
  let range := node.portRange
  if port = 0 then true
  else if range.port ≠ 0 ∧ range.port ≠ port then false
  else if range.ports.headD 0 ≠ 0 then ((range.ports.take 10).takeWhile (· ≠ 0)).contains port
  else if range.minPort ≠ 0 ∨ range.maxPort ≠ 0 then range.minPort ≤ port && port ≤ range.maxPort
  else true

/-- What a walk has found so far. -/
structure Verdict where
  ok : Bool
  bits : Nat
  token : Option Str

/-- The test a node has to pass besides having enough bits. -/
def matchesNode (ip : UInt32) (port : Int) (node : SwitchNetworkNode) : Bool :=
  match node.family, node.ip, node.mask with
  | .inet6, _, _ => false
  | _, .v4 net, .v4 mask => switchTestSubnet ip net mask && isPortInNode port node
  | _, _, _ => false

/-- A node counts if its prefix is not shorter than the best so far: of one length, the last wins. -/
def visit (ip : UInt32) (port : Int) (verdict : Verdict) (node : SwitchNetworkNode) : Verdict :=
  if verdict.bits ≤ node.bits ∧ matchesNode ip port node then
    ⟨node.ok, node.bits, node.token⟩ else verdict

/-- The verdict and the token of the node that gave it; `token` is what the caller's pointer had. -/
def switchNetworkListValidateIpPortToken (list : SwitchNetworkList) (ip : UInt32) (port : Int)
    (token : Option Str) : Bool × Option Str :=
  let verdict := list.nodes.foldl (visit ip port) ⟨list.defaultType, 0, token⟩
  (verdict.ok, verdict.token)

def switchNetworkListValidateIpToken (list : SwitchNetworkList) (ip : UInt32) (token : Option Str) :
    Bool × Option Str :=
  switchNetworkListValidateIpPortToken list ip 0 token

/-! ## Verdicts on IPv6 addresses -/

/-- `struct in6_addr`. -/
structure In6Addr where
  bytes : List UInt8
  length_bytes : bytes.length = 16

/-- The 16 bytes of the union in a node, which is cleared before an address is stored. -/
def IpT.union : IpT → List UInt8
  | .v4 addr => bytes32 addr ++ List.replicate 12 0
  | .v6 addr => addr

/-- `IN6_IS_ADDR_UNSPECIFIED`. -/
def unspecified (a : List UInt8) : Bool := a.all (· == 0)

/-- `switch_testv6_subnet`. -/
def switchTestv6Subnet (ip net mask : List UInt8) : Bool :=
  if ¬unspecified mask then List.zipWith (· &&& ·) net mask == List.zipWith (· &&& ·) ip mask
  else if ¬unspecified net then net == ip
  else true

def visit6 (ip : In6Addr) (verdict : Verdict) (node : SwitchNetworkNode) : Verdict :=
  if node.family = .inet then verdict
  else if verdict.bits ≤ node.bits ∧ switchTestv6Subnet ip.bytes node.ip.union node.mask.union then
    ⟨node.ok, node.bits, node.token⟩
  else verdict

def switchNetworkListValidateIp6PortToken (list : SwitchNetworkList) (ip : In6Addr) (_port : Int)
    (token : Option Str) : Bool × Option Str :=
  let verdict := list.nodes.foldl (visit6 ip) ⟨list.defaultType, 0, token⟩
  (verdict.ok, verdict.token)

def switchNetworkListValidateIp6Token (list : SwitchNetworkList) (ip : In6Addr) (token : Option Str) :
    Bool × Option Str :=
  switchNetworkListValidateIp6PortToken list ip 0 token

end FreeSwitch.Acl
