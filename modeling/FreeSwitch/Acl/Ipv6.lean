import FreeSwitch.Acl.NetworkList
import FreeSwitch.Lib.FirstMax

/-!
# IPv6 verdicts and IPv4 rules

The walk for an IPv6 address leaves out the nodes of the family `AF_INET`.
`switch_network_list_add_host_mask` does not set the family, so its nodes are not left out: their four
bytes, in the order of the host, are compared with the first four of the address.

* **`visit6_decides`** — the walk finds the first of the longest among the nodes that pass.
* **`testv6_host`** — the addresses that a host and a mask cover.
* **`ip6_ignores_ip4_iff`** — when the IPv4 entries of a list make no difference for an address: if the
  node that decides is one of a host and a mask, it has to say what the IPv6 entries say.
* **`ip6_allowed_by_ip4`** — an address that is allowed by `10.0.0.0` with the mask `255.0.0.0`.
-/

namespace FreeSwitch.Acl

open CString Bytes Inet Maxima

inductive AclCall where
  | cidrToken (cidrStr : Str) (ok : Bool) (token : Option Str)
  | hostMask (host maskStr : Str) (ok : Bool)

def addCall (env : Env) (list : SwitchNetworkList) : AclCall → SwitchNetworkList
  | .cidrToken cidrStr ok token => (switchNetworkListAddCidrToken env list cidrStr ok token).1
  | .hostMask host maskStr ok => switchNetworkListAddHostMask env list host maskStr ok

def listOf (env : Env) (name : Str) (defaultType : Bool) (calls : List AclCall) : SwitchNetworkList :=
  calls.foldl (addCall env) (switchNetworkListCreate name defaultType)

/-- The list without its IPv4 entries. -/
def SwitchNetworkList.ipv6Only (list : SwitchNetworkList) : SwitchNetworkList :=
  { list with nodes := list.nodes.filter (·.family = .inet6) }

/-- The memory of the word that `inet_pton` stores for a text, in the order of the host. -/
def hostBytes (env : Env) (text : Str) : List UInt8 :=
  bytes32 (htonl (storedWord env.stale4 (inetPton4 text)))

/-- The address begins with the bytes of the host, as far as the mask goes. With an empty mask it
consists of them, unless the host is empty too. -/
def Covers (env : Env) (host maskStr : Str) (ip : In6Addr) : Prop :=
  if unspecified (hostBytes env maskStr) then
    unspecified (hostBytes env host) ∨ ip.bytes = hostBytes env host ++ List.replicate 12 0
  else
    List.zipWith (· &&& ·) (ip.bytes.take 4) (hostBytes env maskStr)
      = List.zipWith (· &&& ·) (hostBytes env host) (hostBytes env maskStr)

/-! ## The walk -/

/-- The node passes the test for the address. -/
def Passes6 (ip : In6Addr) (node : SwitchNetworkNode) : Prop :=
  switchTestv6Subnet ip.bytes node.ip.union node.mask.union = true

instance decidablePasses6 (ip : In6Addr) (node : SwitchNetworkNode) : Decidable (Passes6 ip node) :=
  inferInstanceAs (Decidable (_ = true))

/-- Of the entries with one of these families that pass, the one with the most bits says `ok`, the first
one added among equals; without any, the default does. -/
def Says (list : SwitchNetworkList) (ip : In6Addr) (family : Family → Prop) (ok : Bool) : Prop :=
  Decides (fun node => family node.family ∧ Passes6 ip node) SwitchNetworkNode.bits SwitchNetworkNode.ok
    list.defaultType list.nodes.reverse ok

theorem visit6_decides (list : SwitchNetworkList) (ip : In6Addr) (token : Option Str)
    (family : Family → Prop) [DecidablePred family] (hfamily : ∀ f, family f → f ≠ .inet) :
    Says list ip family ((list.nodes.filter (fun node => family node.family)).foldl (visit6 ip)
      ⟨list.defaultType, 0, token⟩).ok := by
  rw [List.foldl_filter, ← List.foldr_reverse]
  have hwalk := firstMax_foldr (p := fun node => family node.family ∧ Passes6 ip node)
    (fun verdict node => if decide (family node.family) = true then visit6 ip verdict node else verdict)
    Verdict.bits (fun node => ⟨node.ok, node.bits, node.token⟩) ?_ (fun _ => rfl)
    ⟨list.defaultType, 0, token⟩ rfl list.nodes.reverse
  · rcases hwalk with ⟨node, hnode, heq⟩ | ⟨hnone, heq⟩
    · exact Or.inl ⟨node, hnode, congrArg Verdict.ok heq⟩
    · exact Or.inr ⟨hnone, congrArg Verdict.ok heq⟩
  · intro verdict node
    by_cases hin : family node.family
    · simp only [hin, decide_true, if_true, true_and]
      exact if_neg (hfamily _ hin)
    · simp [hin]

/-- The walk passes over the nodes of the family `AF_INET`. -/
theorem foldl_visit6 (ip : In6Addr) (nodes : List SwitchNetworkNode) (verdict : Verdict) :
    (nodes.filter (fun node => node.family ≠ .inet)).foldl (visit6 ip) verdict
      = nodes.foldl (visit6 ip) verdict := by
  rw [List.foldl_filter]
  refine List.foldl_ext _ _ _ fun verdict node _ => ?_
  by_cases hfamily : node.family = .inet
  · simp [hfamily, visit6]
  · simp [hfamily]

/-! ## What is in the list -/

theorem perform_family (env : Env) (list : SwitchNetworkList) (cidrStr : Str) (ok : Bool)
    (token : Option Str) (port : Option PortRange) :
    ∀ node ∈ (switchNetworkListPerformAddCidrToken env list cidrStr ok token port).1.nodes,
      node ∈ list.nodes ∨ node.family ≠ .unspec := by
  intro node hnode
  unfold switchNetworkListPerformAddCidrToken at hnode
  dsimp only at hnode
  split at hnode
  · exact Or.inl hnode
  · rcases List.mem_cons.mp hnode with rfl | hmem
    · refine Or.inr ?_
      dsimp only
      split <;> decide
    · exact Or.inl hmem

/-- A text may stand for several networks; none of their nodes is without a family. -/
theorem cidrToken_family (env : Env) (list : SwitchNetworkList) (cidrStr : Str) (ok : Bool)
    (token : Option Str) :
    ∀ node ∈ (switchNetworkListAddCidrToken env list cidrStr ok token).1.nodes,
      node ∈ list.nodes ∨ node.family ≠ .unspec := by
  unfold switchNetworkListAddCidrToken switchNetworkListAddCidrPortToken
  split
  · generalize env.separateString cidrStr = parts
    generalize true = status
    induction parts generalizing list status with
    | nil => exact fun node hnode => Or.inl hnode
    | cons part parts ih =>
      intro node hnode
      rcases ih _ _ node hnode with hmem | hfamily
      · exact perform_family env list part ok token none node hmem
      · exact Or.inr hfamily
  · exact perform_family env list cidrStr ok token none

/-- The node has a family, or is one of `switch_network_list_add_host_mask`. -/
def Sourced (env : Env) (calls : List AclCall) (node : SwitchNetworkNode) : Prop :=
  node.family ≠ .unspec ∨ ∃ host maskStr ok, .hostMask host maskStr ok ∈ calls
    ∧ node.ip.union = hostBytes env host ++ List.replicate 12 0
    ∧ node.mask.union = hostBytes env maskStr ++ List.replicate 12 0

theorem Sourced.append {env : Env} {calls : List AclCall} {node : SwitchNetworkNode}
    (h : Sourced env calls node) (call : AclCall) : Sourced env (calls ++ [call]) node :=
  h.imp_right fun ⟨host, maskStr, ok, hcall, hbytes⟩ =>
    ⟨host, maskStr, ok, List.mem_append_left [call] hcall, hbytes⟩

theorem sourced_of_mem {env : Env} {name : Str} {defaultType : Bool} {calls : List AclCall} :
    ∀ node ∈ (listOf env name defaultType calls).nodes, Sourced env calls node := by
  induction calls using List.reverseRecOn with
  | nil => exact fun node hnode => absurd hnode List.not_mem_nil
  | append_singleton calls call ih =>
    intro node hnode
    rw [listOf, List.foldl_append] at hnode
    cases call with
    | cidrToken cidrStr ok token =>
      rcases cidrToken_family env _ cidrStr ok token node hnode with hmem | hfamily
      · exact (ih node hmem).append _
      · exact Or.inl hfamily
    | hostMask host maskStr ok =>
      rcases List.mem_cons.mp hnode with rfl | hmem
      · exact Or.inr ⟨host, maskStr, ok, by simp, rfl, rfl⟩
      · exact (ih node hmem).append _

/-! ## Hosts and masks -/

theorem unspecified_append_zeros (a : List UInt8) (n : Nat) :
    unspecified (a ++ List.replicate n 0) = unspecified a := by
  simp [unspecified]

theorem zipWith_and_zeros (a m : List UInt8) (n : Nat) (hlen : a.length = m.length + n) :
    List.zipWith (· &&& ·) a (m ++ List.replicate n 0)
      = List.zipWith (· &&& ·) (a.take m.length) m ++ List.replicate n 0 := by
  conv_lhs => rw [← List.take_append_drop m.length a]
  rw [List.zipWith_append (by rw [List.length_take]; omega)]
  congr 1
  refine List.eq_replicate_iff.mpr ⟨by simp; omega, fun x hx => ?_⟩
  obtain ⟨i, hi, rfl⟩ := List.mem_iff_getElem.mp hx
  simp

theorem testv6_host (env : Env) (host maskStr : Str) (ip : In6Addr) :
    switchTestv6Subnet ip.bytes (hostBytes env host ++ List.replicate 12 0)
        (hostBytes env maskStr ++ List.replicate 12 0) = true ↔ Covers env host maskStr ip := by
  have hhost : (hostBytes env host ++ List.replicate 12 0).length
      = (hostBytes env maskStr).length + 12 := by
    simp [hostBytes, bytes32]
  have hip : ip.bytes.length = (hostBytes env maskStr).length + 12 := ip.length_bytes
  have htake : (hostBytes env host ++ List.replicate 12 0).take (hostBytes env maskStr).length
      = hostBytes env host := rfl
  unfold switchTestv6Subnet Covers
  rw [unspecified_append_zeros, unspecified_append_zeros, zipWith_and_zeros _ _ _ hhost,
    zipWith_and_zeros _ _ _ hip, htake]
  cases unspecified (hostBytes env maskStr) with
  | true =>
    rw [if_neg (by simp), if_pos rfl]
    cases unspecified (hostBytes env host) with
    | true =>
      rw [if_neg (by simp)]
      exact iff_of_true rfl (Or.inl rfl)
    | false =>
      rw [if_pos (by simp), beq_iff_eq]
      exact ⟨fun h => Or.inr h.symm, fun h => (h.resolve_left Bool.false_ne_true).symm⟩
  | false =>
    rw [if_pos (by simp), if_neg Bool.false_ne_true, beq_iff_eq, List.append_left_inj]
    exact eq_comm

/-- With and without its IPv4 entries, the list has one verdict on the address. -/
def IgnoresIp4 (list : SwitchNetworkList) (ip : In6Addr) (token : Option Str) : Prop :=
  (switchNetworkListValidateIp6Token list ip token).1
    = (switchNetworkListValidateIp6Token list.ipv6Only ip token).1

/-- The node that decides is left when the IPv4 entries are gone, or it is one of a host and a mask. -/
theorem ignoresIp4_iff (list : SwitchNetworkList) (ip : In6Addr) (token : Option Str) :
    IgnoresIp4 list ip token
      ↔ ∀ node, FirstMax (fun node => node.family ≠ .inet ∧ Passes6 ip node) SwitchNetworkNode.bits
          list.nodes.reverse node → node.family = .unspec → Says list ip (· = .inet6) node.ok := by
  have hall : Says list ip (· ≠ .inet) (switchNetworkListValidateIp6Token list ip token).1 := by
    have hwalk := visit6_decides list ip token (· ≠ .inet) fun _ h => h
    rwa [foldl_visit6] at hwalk
  have honly : Says list ip (· = .inet6) (switchNetworkListValidateIp6Token list.ipv6Only ip token).1 :=
    visit6_decides list ip token (· = .inet6) fun _ h => by rw [h]; decide
  constructor
  · intro hsame node hnode _
    have hok := (Decides.iff_of_firstMax hnode).mp hall
    exact (hok.symm.trans hsame) ▸ honly
  · intro hverdict
    rcases hall with ⟨node, hnode, hok⟩ | ⟨hnone, hok⟩
    · refine hok.trans ?_
      cases hfamily : node.family with
      | inet => exact absurd hfamily hnode.has.1
      | unspec => exact (hverdict node hnode hfamily).unique honly
      | inet6 =>
        refine ((Decides.iff_of_firstMax (hnode.mono ⟨hfamily, hnode.has.2⟩ fun x hx => ?_)).mp
          honly).symm
        exact ⟨by rw [hx.1]; decide, hx.2⟩
    · refine hok.trans (Decides.unique (Or.inr ⟨fun x hx hp => hnone x hx ⟨?_, hp.2⟩, rfl⟩) honly)
      rw [hp.1]
      decide

/-- The verdicts are the same exactly if the node that decides is none of a host and a mask, or says
what the IPv6 entries say; and always if no host and mask covers the address. -/
theorem ip6_ignores_ip4_iff (env : Env) (name : Str) (defaultType : Bool) (calls : List AclCall)
    (ip : In6Addr) (token : Option Str) :
    let list := listOf env name defaultType calls
    (IgnoresIp4 list ip token
        ↔ ∀ node, FirstMax (fun node => node.family ≠ .inet ∧ Passes6 ip node) SwitchNetworkNode.bits
            list.nodes.reverse node → node.family = .unspec → Says list ip (· = .inet6) node.ok)
      ∧ ((∀ host maskStr ok, .hostMask host maskStr ok ∈ calls → ¬Covers env host maskStr ip) →
        IgnoresIp4 list ip token) := by
  intro list
  have hiff := ignoresIp4_iff list ip token
  refine ⟨hiff, fun hnone => hiff.mpr fun node hnode hfamily => ?_⟩
  have hpasses := hnode.has.2
  rcases sourced_of_mem node (List.mem_reverse.mp hnode.mem) with
    hother | ⟨host, maskStr, ok, hcall, hip, hmask⟩
  · exact absurd hfamily hother
  · rw [Passes6, hip, hmask, testv6_host] at hpasses
    exact absurd hpasses (hnone host maskStr ok hcall)

/-- `2001:d0a::1`. -/
def sampleAddr : In6Addr := ⟨[0x20, 0x01, 0x0d, 0x0a, 0, 0, 0, 0, 0, 0, 0, 0, 0, 0, 0, 1], rfl⟩

/-- A rule for 10.0.0.0 lets an IPv6 address in. -/
theorem ip6_allowed_by_ip4 :
    let env : Env := ⟨fun _ => [], fun _ => none, 0, []⟩
    let list := listOf env [] false [.hostMask (bytes "10.0.0.0") (bytes "255.0.0.0") true]
    (switchNetworkListValidateIp6Token list sampleAddr none).1 = true
      ∧ (switchNetworkListValidateIp6Token list.ipv6Only sampleAddr none).1 = false := by
  decide +kernel

end FreeSwitch.Acl
