import FreeSwitch.Acl.NetworkList
import FreeSwitch.Lib.FirstMax

/-!
# Verdicts by the longest prefix

A list is built from networks `a.b.c.d/bits`. The rule it should follow: of the networks whose first
bits agree with the address, the one with the most bits decides, the one added first among equals;
without any, the default does. The code follows the rule with its own test in place of agreement,
and the two differ for networks with an empty mask only: `0.0.0.0/32` passes every address, and
a network of 0 bits with another address than `0.0.0.0` passes that address only.

* **`add_text`** — what a network adds to a list.
* **`validate_follows`** — the walk follows the rule with the code's test.
* **`passes_iff_agrees`** — the test is agreement, unless the mask is empty.
* **`acl_longest_prefix_iff`** — when the verdict is that of the longest prefix.
* **`acl_host_zero_allows_other`** — `0.0.0.0/32` decides about another address.
-/

namespace FreeSwitch.Acl

open CString Bytes Inet Maxima

/-! ## Building a list -/

/-- A network as it is given to `switch_network_list_add_cidr_token`. -/
structure Cidr where
  a : UInt8
  b : UInt8
  c : UInt8
  d : UInt8
  bits : Fin 33
  ok : Bool
  token : Option Str

namespace Cidr

def text (n : Cidr) : Str := dotted n.a n.b n.c n.d ++ 47 :: decimal n.bits.val

def addr (n : Cidr) : UInt32 := address n.a n.b n.c n.d

/-- The node the network becomes. -/
def node (n : Cidr) : SwitchNetworkNode :=
  ⟨.v4 n.addr, .v4 (mask4 n.bits.val), n.bits.val, .inet, n.ok, n.token.filter fun t => ¬ t.isEmpty,
    n.text, .none⟩

/-- The first bits agree. -/
def Agrees (ip : UInt32) (n : Cidr) : Prop :=
  ∀ i < n.bits.val, n.addr.toBitVec.getMsbD i = ip.toBitVec.getMsbD i

end Cidr

def build (env : Env) (name : Str) (defaultType : Bool) (cidrs : List Cidr) : SwitchNetworkList :=
  cidrs.foldl (fun list n => (switchNetworkListAddCidrToken env list n.text n.ok n.token).1)
    (switchNetworkListCreate name defaultType)

/-- The bytes of a network's text: digits, dots and the slash. -/
def isPlain (x : UInt8) : Bool := 46 ≤ x && x ≤ 57

theorem isPlain_decimal {n : Nat} (h : n < 1000) : ∀ x ∈ decimal n, isPlain x = true ∧ x ≠ 47 := by
  have hdigit : ∀ k < 10, isPlain (UInt8.ofNat (48 + k)) = true ∧ UInt8.ofNat (48 + k) ≠ 47 := by decide
  intro x hx
  unfold decimal at hx
  split at hx
  · obtain rfl := List.mem_singleton.mp hx
    exact hdigit n (by omega)
  · split at hx
    · rcases List.mem_pair.mp hx with rfl | rfl
      · exact hdigit (n / 10) (by omega)
      · exact hdigit (n % 10) (by omega)
    · rcases List.mem_cons.mp hx with rfl | hx
      · exact hdigit (n / 100) (by omega)
      · rcases List.mem_pair.mp hx with rfl | rfl
        · exact hdigit (n / 10 % 10) (by omega)
        · exact hdigit (n % 10) (by omega)

theorem length_decimal_le (n : Nat) : (decimal n).length ≤ 3 := by
  unfold decimal
  split
  · exact Nat.le_add_left 1 2
  · split
    · exact Nat.le_add_left 2 1
    · exact le_rfl

theorem isPlain_dotted (a b c d : UInt8) : ∀ x ∈ dotted a b c d, isPlain x = true ∧ x ≠ 47 := by
  have hoctet : ∀ o : UInt8, ∀ x ∈ decimal o.toNat, isPlain x = true ∧ x ≠ 47 :=
    fun o => isPlain_decimal (by have := o.toNat_lt; omega)
  have hdot : isPlain 46 = true ∧ (46 : UInt8) ≠ 47 := by decide
  intro x hx
  simp only [dotted, List.mem_append, List.mem_cons] at hx
  rcases hx with hx | rfl | hx | rfl | hx | rfl | hx
  · exact hoctet a x hx
  · exact hdot
  · exact hoctet b x hx
  · exact hdot
  · exact hoctet c x hx
  · exact hdot
  · exact hoctet d x hx

theorem isPlain_text (n : Cidr) : ∀ x ∈ n.text, isPlain x = true := by
  intro x hx
  rcases List.mem_append.mp hx with hx | hx
  · exact (isPlain_dotted _ _ _ _ x hx).1
  · rcases List.mem_cons.mp hx with rfl | hx
    · decide
    · exact (isPlain_decimal (by omega) x hx).1

theorem length_text_le (n : Cidr) : n.text.length ≤ 126 := by
  have ha := length_decimal_le n.a.toNat
  have hb := length_decimal_le n.b.toNat
  have hc := length_decimal_le n.c.toNat
  have hd := length_decimal_le n.d.toNat
  have hbits := length_decimal_le n.bits.val
  simp only [Cidr.text, dotted, List.length_append, List.length_cons]
  omega

/-- A byte that is not plain is not in a text. -/
theorem not_contains_text (n : Cidr) {x : UInt8} (hx : isPlain x = false) :
    n.text.contains x = false := by
  rw [List.contains_eq_mem, decide_eq_false_iff_not]
  intro hmem
  exact Bool.false_ne_true (hx.symm.trans (isPlain_text n x hmem))

theorem not_mapped_text (n : Cidr) : switchNetworkIpv4MappedIpv6Addr n.text = none := by
  rw [switchNetworkIpv4MappedIpv6Addr, if_neg]
  intro heq
  -- a colon would have to come from a byte of the text
  have hcolon : (58 : UInt8) ∈ lower (n.text.take 7) := by
    rw [heq]
    decide
  obtain ⟨x, hx, hlower⟩ := List.mem_map.mp hcolon
  have hplain := isPlain_text n x (List.mem_of_mem_take hx)
  simp only [isPlain, Bool.and_eq_true, decide_eq_true_eq] at hplain
  have hnot : ¬ (65 ≤ x ∧ x ≤ 90) := fun h => absurd (UInt8.le_trans h.1 hplain.2) (by decide)
  rw [toLower, if_neg hnot] at hlower
  rw [hlower] at hplain
  exact absurd hplain (by decide)

theorem atoi_decimal (bits : Fin 33) : atoi (decimal bits.val) = bits.val := by
  revert bits
  decide

theorem parse_text (env : Env) (n : Cidr) :
    switchParseCidr env n.text = .ok (.v4 n.addr, .v4 (mask4 n.bits.val), n.bits.val) := by
  have hhost : ∀ x ∈ dotted n.a n.b n.c n.d, decide (x ≠ 47) = true :=
    fun x hx => decide_eq_true (isPlain_dotted _ _ _ _ x hx).2
  have hdrop : n.text.dropWhile (fun x => decide (x ≠ 47)) = 47 :: decimal n.bits.val := by
    rw [Cidr.text, List.dropWhile_append_of_pos hhost]
    rfl
  have htake : n.text.takeWhile (fun x => decide (x ≠ 47)) = dotted n.a n.b n.c n.d := by
    rw [Cidr.text, List.takeWhile_append_of_pos hhost]
    exact List.append_nil _
  have hbits := n.bits.isLt
  rw [switchParseCidr, List.take_of_length_le (length_text_le n), hdrop, htake,
    not_contains_text n (by decide)]
  simp only [atoi_decimal, inetPton4_dotted, Bool.false_eq_true, if_false, storedWord, htonl_word32,
    Int.toNat_natCast]
  rw [if_neg (by omega)]
  rfl

theorem add_text (env : Env) (list : SwitchNetworkList) (n : Cidr) :
    switchNetworkListAddCidrToken env list n.text n.ok n.token
      = ({ list with nodes := n.node :: list.nodes }, true) := by
  rw [switchNetworkListAddCidrToken, switchNetworkListAddCidrPortToken, not_contains_text n (by decide),
    if_neg Bool.false_ne_true, switchNetworkListPerformAddCidrToken, not_mapped_text, Option.getD_none,
    parse_text]
  simp only [not_contains_text n (show isPlain 58 = false by decide), Bool.false_eq_true, if_false]
  rfl

/-- The nodes of a list, the last network first. -/
theorem build_eq (env : Env) (name : Str) (defaultType : Bool) (cidrs : List Cidr) :
    build env name defaultType cidrs = ⟨(cidrs.map Cidr.node).reverse, defaultType, name⟩ := by
  have hfold : ∀ list : SwitchNetworkList,
      cidrs.foldl (fun list n => (switchNetworkListAddCidrToken env list n.text n.ok n.token).1) list
        = { list with nodes := (cidrs.map Cidr.node).reverse ++ list.nodes } := by
    induction cidrs with
    | nil => exact fun list => rfl
    | cons n cidrs ih =>
      intro list
      rw [List.foldl_cons, add_text, ih, List.map_cons, List.reverse_cons, List.append_assoc]
      rfl
  rw [build, hfold]
  show SwitchNetworkList.mk ((cidrs.map Cidr.node).reverse ++ []) _ _ = _
  rw [List.append_nil]
  rfl

/-! ## The walk -/

/-- The code's test for the network. -/
def Cidr.passes (ip : UInt32) (n : Cidr) : Bool := switchTestSubnet ip n.addr (mask4 n.bits.val)

theorem matchesNode_node (ip : UInt32) (n : Cidr) : matchesNode ip 0 n.node = n.passes ip := by
  show (switchTestSubnet ip n.addr (mask4 n.bits.val) && isPortInNode 0 n.node) = _
  rw [isPortInNode, if_pos rfl, Bool.and_true]
  rfl

/-- The rule: of the networks that have `p`, the one with the most bits decides. -/
def Rule (p : Cidr → Prop) (defaultType : Bool) (cidrs : List Cidr) (ok : Bool) : Prop :=
  Decides p (fun n => n.bits.val) Cidr.ok defaultType cidrs ok

theorem validate_follows (env : Env) (name : Str) (defaultType : Bool) (cidrs : List Cidr) (ip : UInt32)
    (token : Option Str) : Rule (fun n => n.passes ip = true) defaultType cidrs
      (switchNetworkListValidateIpToken (build env name defaultType cidrs) ip token).1 := by
  rw [build_eq, switchNetworkListValidateIpToken, switchNetworkListValidateIpPortToken]
  dsimp only
  rw [← List.map_reverse, List.foldl_map, List.foldl_reverse]
  have hwalk := firstMax_foldr (p := fun n : Cidr => n.passes ip = true)
    (fun verdict n => visit ip 0 verdict n.node) Verdict.bits
      (fun n => ⟨n.ok, n.bits.val, n.node.token⟩)
    (fun verdict n => by rw [visit, matchesNode_node]; rfl) (fun _ => rfl) ⟨defaultType, 0,
      token⟩ rfl cidrs
  rcases hwalk with ⟨n, hn, heq⟩ | ⟨hnone, heq⟩
  · exact Or.inl ⟨n, hn, congrArg Verdict.ok heq⟩
  · exact Or.inr ⟨hnone, congrArg Verdict.ok heq⟩

/-! ## The test -/

/-- The mask bit by bit: 32 bits give the mask of 0 bits. -/
theorem mask4_getMsbD (bits : Fin 33) (i : Fin 32) :
    (mask4 bits.val).toBitVec.getMsbD i.val = decide (i.val < bits.val % 32) := by
  revert bits i
  decide +kernel

theorem mask4_ne_zero {bits : Fin 33} (h : 0 < bits.val) (h' : bits.val < 32) : mask4 bits.val ≠ 0 := by
  revert bits
  decide +kernel

theorem getMsbD_ext {x y : UInt32} (h : ∀ i < 32, x.toBitVec.getMsbD i = y.toBitVec.getMsbD i) :
    x = y :=
  UInt32.toBitVec_inj.mp (BitVec.eq_of_getMsbD_eq h)

variable {n : Cidr} {ip : UInt32}

theorem passes_of_mask_zero (h : n.bits.val = 0 ∨ n.bits.val = 32) :
    n.passes ip = true ↔ n.addr = 0 ∨ n.addr = ip := by
  have hmask : mask4 n.bits.val = 0 := by
    rcases h with h | h <;> rw [h] <;> decide
  rw [Cidr.passes, switchTestSubnet, hmask, if_neg (by decide)]
  by_cases hnet : n.addr = 0
  · simp [hnet]
  · simp [hnet]

theorem agrees_of_host (h : n.bits.val = 32) : n.Agrees ip ↔ n.addr = ip := by
  rw [Cidr.Agrees, h]
  exact ⟨getMsbD_ext, fun heq _ _ => by rw [heq]⟩

theorem agrees_of_any (h : n.bits.val = 0) : n.Agrees ip := by
  intro i hi
  omega

/-- With a mask that is not empty the test is agreement. -/
theorem passes_iff_agrees (hpos : 0 < n.bits.val) (hlt : n.bits.val < 32) :
    n.passes ip = true ↔ n.Agrees ip := by
  have hmod : n.bits.val % 32 = n.bits.val := Nat.mod_eq_of_lt hlt
  have hmask := mask4_getMsbD n.bits
  rw [Cidr.passes, switchTestSubnet, if_pos (mask4_ne_zero hpos hlt), beq_iff_eq]
  constructor
  · intro heq i hi
    have hbit := congrArg (fun x : UInt32 => x.toBitVec.getMsbD i) heq
    simpa [UInt32.toBitVec_and, BitVec.getMsbD_and, hmask ⟨i, hi.trans hlt⟩, hmod, hi] using hbit
  · intro hagree
    refine getMsbD_ext fun i hi => ?_
    rw [UInt32.toBitVec_and, UInt32.toBitVec_and, BitVec.getMsbD_and, BitVec.getMsbD_and,
      hmask ⟨i, hi⟩, hmod]
    by_cases hin : i < n.bits.val
    · rw [hagree i hin]
    · simp [hin]

/-! ## The verdict -/

/-- The networks of 32 bits the code lets decide. -/
def hostDecides (ip : UInt32) (n : Cidr) : Bool := n.bits.val == 32 && (n.addr == 0 || n.addr == ip)

/-- The networks of 0 bits the code lets decide. -/
def anyDecides (ip : UInt32) (n : Cidr) : Bool := n.bits.val == 0 && (n.addr == 0 || n.addr == ip)

/-- What the first network that has `q` says, or the default. -/
def firstOk (defaultType : Bool) (cidrs : List Cidr) (q : Cidr → Bool) : Bool :=
  ((cidrs.find? q).map Cidr.ok).getD defaultType

/-- When the networks with an empty mask do no harm. If a network `0.0.0.0/32` comes before the
address's own network of 32 bits, it has to say what the networks that agree say. If no network with
bits agrees, the first network of 0 bits and the first one of them the code lets decide have to say
the same. -/
def EmptyMasksHarmless (defaultType : Bool) (cidrs : List Cidr) (ip : UInt32) : Prop :=
  (∀ n, cidrs.find? (hostDecides ip) = some n → n.addr ≠ ip →
      Rule (Cidr.Agrees ip) defaultType cidrs n.ok)
    ∧ ((∀ n ∈ cidrs, 0 < n.bits.val → ¬ n.Agrees ip ∧ hostDecides ip n = false) →
        firstOk defaultType cidrs (anyDecides ip)
          = firstOk defaultType cidrs (fun n => n.bits.val == 0))

/-- Without `0.0.0.0/32`, and with 0 bits for `0.0.0.0` only, they never do. -/
theorem emptyMasksHarmless_of_regular {cidrs : List Cidr}
    (hhost : ∀ n ∈ cidrs, n.bits.val = 32 → n.addr ≠ 0)
    (hany : ∀ n ∈ cidrs, n.bits.val = 0 → n.addr = 0) (defaultType : Bool) (ip : UInt32) :
    EmptyMasksHarmless defaultType cidrs ip := by
  refine ⟨fun n hfind haddr => ?_, fun _ => ?_⟩
  · have hdecides : hostDecides ip n = true := List.find?_some hfind
    have hnet := hhost n (List.mem_of_find?_eq_some hfind)
    simp only [hostDecides, Bool.and_eq_true, Bool.or_eq_true, beq_iff_eq, haddr, or_false] at hdecides
    exact absurd hdecides.2 (hnet hdecides.1)
  · have hsame : ∀ n ∈ cidrs, anyDecides ip n = (n.bits.val == 0) := by
      intro n hn
      by_cases hbits : n.bits.val = 0
      · simp [anyDecides, hbits, hany n hn hbits]
      · simp [anyDecides, hbits]
    rw [firstOk, firstOk, List.find?_congr hsame]

theorem hostDecides_iff : hostDecides ip n = true ↔ n.passes ip = true ∧ n.bits.val = 32 := by
  simp only [hostDecides, Bool.and_eq_true, Bool.or_eq_true, beq_iff_eq]
  constructor
  · rintro ⟨hbits, hnet⟩
    exact ⟨(passes_of_mask_zero (Or.inr hbits)).mpr hnet, hbits⟩
  · rintro ⟨hpass, hbits⟩
    exact ⟨hbits, (passes_of_mask_zero (Or.inr hbits)).mp hpass⟩

theorem anyDecides_iff : anyDecides ip n = true ↔ n.passes ip = true ∧ n.bits.val = 0 := by
  simp only [anyDecides, Bool.and_eq_true, Bool.or_eq_true, beq_iff_eq]
  constructor
  · rintro ⟨hbits, hnet⟩
    exact ⟨(passes_of_mask_zero (Or.inl hbits)).mpr hnet, hbits⟩
  · rintro ⟨hpass, hbits⟩
    exact ⟨hbits, (passes_of_mask_zero (Or.inl hbits)).mp hpass⟩

/-- Apart from the networks of 32 bits the code lets decide, the test is agreement as soon as there
are bits. -/
theorem passes_iff_agrees_of_not_host (hpos : 0 < n.bits.val)
    (hhost : hostDecides ip n = false) : n.passes ip = true ↔ n.Agrees ip := by
  have hle : n.bits.val ≤ 32 := Nat.lt_succ_iff.mp n.bits.isLt
  rcases hle.lt_or_eq with hlt | heq
  · exact passes_iff_agrees hpos hlt
  · rw [agrees_of_host heq]
    simp only [hostDecides, heq, beq_self_eq_true, Bool.true_and, Bool.or_eq_false_iff,
      beq_eq_false_iff_ne] at hhost
    rw [passes_of_mask_zero (Or.inr heq)]
    exact ⟨fun h => absurd h (by simp [hhost]), fun h => absurd h hhost.2⟩

/-- A network of 32 bits is the one to decide. -/
theorem verdict_of_host {defaultType : Bool} {cidrs : List Cidr} {ok : Bool}
    (hrule : Rule (fun n => n.passes ip = true) defaultType cidrs ok)
    (hfind : cidrs.find? (hostDecides ip) = some n) :
    Rule (Cidr.Agrees ip) defaultType cidrs ok ↔ EmptyMasksHarmless defaultType cidrs ip := by
  have hle : ∀ m ∈ cidrs, m.bits.val ≤ 32 := fun m _ => Nat.lt_succ_iff.mp m.bits.isLt
  have hok : ok = n.ok :=
    (Decides.iff_of_find (fun m _ => hostDecides_iff) (fun m hm _ => hle m hm) hfind).mp hrule
  have hdecides : hostDecides ip n = true := List.find?_some hfind
  have hmem : n ∈ cidrs := List.mem_of_find?_eq_some hfind
  have hbits : n.bits.val = 32 := (hostDecides_iff.mp hdecides).2
  constructor
  · rintro hagree
    refine ⟨fun m hm _ => ?_, fun hnone => ?_⟩
    · obtain rfl := Option.some.inj (hfind.symm.trans hm)
      exact hok ▸ hagree
    · have hnot := (hnone n hmem (by omega)).2
      exact absurd hdecides (by rw [hnot]; decide)
  · rintro ⟨hhost, -⟩
    rw [hok]
    by_cases haddr : n.addr = ip
    · -- nothing of 32 bits before it agrees, as that would pass as well
      obtain ⟨-, before, after, rfl, hbefore⟩ := List.find?_eq_some_iff_append.mp hfind
      refine Or.inl ⟨n, ⟨before, after, rfl, (agrees_of_host hbits).mpr haddr, fun m hm hagree => ?_,
        fun m hm _ => ?_⟩, rfl⟩
      · have hm' := hle m (List.mem_append_left _ hm)
        have hne : m.bits.val ≠ 32 := by
          intro heq
          have hnot := hbefore m hm
          simp [hostDecides, heq, (agrees_of_host heq).mp hagree] at hnot
        show m.bits.val < n.bits.val
        omega
      · show m.bits.val ≤ n.bits.val
        rw [hbits]
        exact hle m (List.mem_append_right _ (List.mem_cons_of_mem n hm))
    · exact hhost n hfind haddr

/-- No network of 32 bits decides. -/
theorem verdict_of_no_host {defaultType : Bool} {cidrs : List Cidr} {ok : Bool}
    (hrule : Rule (fun n => n.passes ip = true) defaultType cidrs ok)
    (hhost : ∀ n ∈ cidrs, hostDecides ip n = false) :
    Rule (Cidr.Agrees ip) defaultType cidrs ok ↔ EmptyMasksHarmless defaultType cidrs ip := by
  have hnone : ∀ n, cidrs.find? (hostDecides ip) ≠ some n := by
    intro n hfind
    have hnot := hhost n (List.mem_of_find?_eq_some hfind)
    rw [List.find?_some hfind] at hnot
    exact absurd hnot (by decide)
  by_cases hsome : ∃ n ∈ cidrs, 0 < n.bits.val ∧ n.Agrees ip
  · -- a network with bits agrees, so the ones of 0 bits do not matter
    obtain ⟨n, hn, hpos, hagree⟩ := hsome
    have hright : Rule (Cidr.Agrees ip) defaultType cidrs ok := by
      refine Decides.of_iff_above hrule hn
        ((passes_iff_agrees_of_not_host hpos (hhost n hn)).mpr hagree) ?_
      exact fun m hm hle => passes_iff_agrees_of_not_host (lt_of_lt_of_le hpos hle) (hhost m hm)
    exact ⟨fun _ => ⟨fun m hm => absurd hm (hnone m), fun h => absurd hagree (h n hn hpos).1⟩,
      fun _ => hright⟩
  · -- only the networks of 0 bits are left
    have hzero : ∀ n ∈ cidrs, n.Agrees ip → n.bits.val = 0 :=
      fun n hn hagree => Nat.eq_zero_of_not_pos fun hpos => hsome ⟨n, hn, hpos, hagree⟩
    have hzero' : ∀ n ∈ cidrs, n.passes ip = true → n.bits.val = 0 := fun n hn hpass =>
      Nat.eq_zero_of_not_pos fun hpos =>
        hsome ⟨n, hn, hpos, (passes_iff_agrees_of_not_host hpos (hhost n hn)).mp hpass⟩
    have hok : ok = firstOk defaultType cidrs (anyDecides ip) :=
      (Decides.iff_of_key_eq (fun n hn => anyDecides_iff.trans ⟨And.left, fun h => ⟨h, hzero' n hn h⟩⟩)
        hzero').mp hrule
    have hspec : Rule (Cidr.Agrees ip) defaultType cidrs ok
        ↔ ok = firstOk defaultType cidrs (fun n => n.bits.val == 0) :=
      Decides.iff_of_key_eq
        (fun n hn => beq_iff_eq.trans ⟨agrees_of_any, hzero n hn⟩) hzero
    rw [hspec, hok]
    constructor
    · exact fun heq => ⟨fun m hm => absurd hm (hnone m), fun _ => heq⟩
    · rintro ⟨-, hany⟩
      exact hany fun n hn hpos => ⟨fun hagree => hsome ⟨n, hn, hpos, hagree⟩, hhost n hn⟩

/-- The verdict is that of the longest prefix exactly if the networks with an empty mask do no harm. -/
theorem acl_longest_prefix_iff (env : Env) (name : Str) (defaultType : Bool)
    (cidrs : List Cidr) (ip : UInt32) (token : Option Str) :
    Rule (Cidr.Agrees ip) defaultType cidrs
        (switchNetworkListValidateIpToken (build env name defaultType cidrs) ip token).1
      ↔ EmptyMasksHarmless defaultType cidrs ip := by
  have hrule := validate_follows env name defaultType cidrs ip token
  cases hfind : cidrs.find? (hostDecides ip) with
  | some n => exact verdict_of_host hrule hfind
  | none =>
    have hhost : ∀ n ∈ cidrs, hostDecides ip n = false :=
      fun n hn => Bool.eq_false_iff.mpr (List.find?_eq_none.mp hfind n hn)
    exact verdict_of_no_host hrule hhost

def bareEnv : Env := ⟨fun s => [s], fun _ => none, 0, []⟩

/-- With `0.0.0.0/32` allowed and a default of deny, 10.0.0.1 is allowed. -/
theorem acl_host_zero_allows_other :
    ¬ Rule (Cidr.Agrees (address 10 0 0 1)) false [⟨0, 0, 0, 0, 32, true, none⟩]
      (switchNetworkListValidateIpToken (build bareEnv [] false [⟨0, 0, 0, 0, 32, true, none⟩])
        (address 10 0 0 1) none).1 := by
  have hallowed :
      (switchNetworkListValidateIpToken (build bareEnv [] false [⟨0, 0, 0, 0, 32, true, none⟩])
      (address 10 0 0 1) none).1 = true := by decide +kernel
  rw [hallowed]
  rintro (⟨n, hn, -⟩ | ⟨-, hdefault⟩)
  · obtain rfl := List.mem_singleton.mp hn.mem
    exact absurd ((agrees_of_host rfl).mp hn.has) (by decide)
  · exact absurd hdefault (by decide)

end FreeSwitch.Acl
