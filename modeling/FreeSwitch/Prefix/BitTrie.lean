import Mathlib.Tactic

/-!
# The trie of `mod_prefix` — `src/mod/applications/mod_prefix/trie.c`

A binary tree holds the keys bit by bit, the lowest bit of a byte first. `bit_trie_set` walks down along
the bits of a key, creates the nodes it misses and writes the value to the last one. `bit_trie_get`
walks down along the bits of a query and remembers the last node with a value that it has come to at the
end of a byte.

The tree is a value: a null pointer is `null`, and a node that is written to is put back into its
parent. The nodes of a trie are never shared, so that nothing else can see the difference.

* **`held_setBits`** — a walk to a node finds what was written there, and elsewhere what was there
  before.
* **`bestOf_getLoop`** — the loop of `bit_trie_get` keeps the last node with a value.
* **`bit_trie_longest_prefix`** — so it finds the longest key that was set and is a prefix of the query.
-/

namespace FreeSwitch.Prefix

/-- `struct bit_trie_node *`. -/
inductive BitTrieNode (ν : Type) where
  | null
  | node (next0 next1 : BitTrieNode ν) (value : Option ν) (valueLen : UInt32)

/-- What a `key` and `key_len` can be. -/
abbrev Key := { key : List UInt8 // key.length < 2 ^ 32 }

namespace BitTrieNode

variable {ν : Type}

def bitTrieCreate : BitTrieNode ν := node null null none 0

/-- `node->next[bit]`. -/
def next : BitTrieNode ν → Bool → BitTrieNode ν
  | null, _ => null
  | node next0 next1 _ _, bit => if bit then next1 else next0

/-- `node->next[bit] = next`. -/
def setNext : BitTrieNode ν → Bool → BitTrieNode ν → BitTrieNode ν
  | null, _, _ => null
  | node next0 next1 value valueLen, bit, next =>
    if bit then node next0 next value valueLen else node next next1 value valueLen

/-- `node->value = value` and `node->value_len = value_len`. -/
def setValue : BitTrieNode ν → ν → UInt32 → BitTrieNode ν
  | null, _, _ => null
  | node next0 next1 _ _, value, valueLen => node next0 next1 (some value) valueLen

/-- The value of a node and its length, if it has one. -/
def held : BitTrieNode ν → Option (ν × UInt32)
  | null => none
  | node _ _ value valueLen => value.map fun v => (v, valueLen)

end BitTrieNode

open BitTrieNode (null bitTrieCreate held)

variable {ν : Type}

/-- The bits of a byte in the order of `offset`. -/
def bits (byte : UInt8) : List Bool :=
  (List.range 8).map fun offset => (byte >>> UInt8.ofNat offset) &&& 0x01 == 1

/-- The node at the end of the bits: the inner loop of `bit_trie_get`. It stops at a null pointer. -/
def descend : List Bool → BitTrieNode ν → BitTrieNode ν
  | [], node => node
  | bit :: bits, node => descend bits (node.next bit)

/-- The outer loop of `bit_trie_get`. `n` bytes are behind `keyp`, and `n0` behind `keyp0`. -/
def getLoop : List UInt8 → Nat → BitTrieNode ν → Nat → BitTrieNode ν → BitTrieNode ν × Nat
  | [], _, _, n0, node0 => (node0, n0)
  | byte :: keyp, n, node, n0, node0 =>
    match descend (bits byte) node with
    | .null => (node0, n0)
    | .node next0 next1 none valueLen => getLoop keyp (n + 1) (.node next0 next1 none valueLen) n0 node0
    | .node next0 next1 (some value) valueLen =>
      getLoop keyp (n + 1) (.node next0 next1 (some value) valueLen) (n + 1)
        (.node next0 next1 (some value) valueLen)

/-- `*node_out` and the length that is returned. -/
def bitTrieGet (root : BitTrieNode ν) (key : Key) : BitTrieNode ν × UInt32 :=
  let (node, len) := getLoop key.1 0 root 0 root
  (node, UInt32.ofNat len)

/-- The loops of `bit_trie_set`, from a node down. -/
def setBits (value : ν) (valueLen : UInt32) : List Bool → BitTrieNode ν → BitTrieNode ν
  | [], node => node.setValue value valueLen
  | bit :: bits, node =>
    let next := match node.next bit with
      | .null => bitTrieCreate
      | next => next
    node.setNext bit (setBits value valueLen bits next)

/-- The bits of a key. -/
def path (key : List UInt8) : List Bool := key.flatMap bits

/-- The trie under `root` after `bit_trie_set`. -/
def bitTrieSet (root : BitTrieNode ν) (key : Key) (value : ν) (valueLen : UInt32) : BitTrieNode ν :=
  setBits value valueLen (path key.1) root

/-! ## Walks -/

theorem descend_null : ∀ p : List Bool, descend p (null : BitTrieNode ν) = null := by
  intro p
  induction p with
  | nil => rfl
  | cons bit p ih => exact ih

theorem descend_append (p q : List Bool) :
    ∀ node : BitTrieNode ν, descend (p ++ q) node = descend q (descend p node) := by
  induction p with
  | nil => exact fun _ => rfl
  | cons bit p ih => exact fun node => ih (node.next bit)

/-- Nothing is held under a node that has just been created. -/
theorem held_descend_create (p : List Bool) :
    held (descend p (bitTrieCreate : BitTrieNode ν)) = none := by
  cases p with
  | nil => rfl
  | cons bit p =>
    have hnext : (bitTrieCreate : BitTrieNode ν).next bit = null := by cases bit <;> rfl
    show held (descend p (bitTrieCreate.next bit)) = none
    rw [hnext, descend_null]
    rfl

theorem next_setNext (node child : BitTrieNode ν) (hnode : node ≠ null) (bit other : Bool) :
    (node.setNext bit child).next other = if other = bit then child else node.next other := by
  cases node with
  | null => exact absurd rfl hnode
  | node next0 next1 value valueLen => cases bit <;> cases other <;> rfl

theorem held_setNext (node child : BitTrieNode ν) (bit : Bool) :
    held (node.setNext bit child) = held node := by
  cases node with
  | null => rfl
  | node next0 next1 value valueLen => cases bit <;> rfl

theorem setBits_ne_null (value : ν) (valueLen : UInt32) (p : List Bool) (node : BitTrieNode ν)
    (hnode : node ≠ null) :
    setBits value valueLen p node ≠ null := by
  cases node with
  | null => exact absurd rfl hnode
  | node next0 next1 v l =>
    cases p with
    | nil => exact nofun
    | cons bit p => cases bit <;> exact nofun

/-- The node at the end of the walk gets the value, every other node keeps what it holds. -/
theorem held_setBits (value : ν) (valueLen : UInt32) :
    ∀ (p q : List Bool) (node : BitTrieNode ν), node ≠ null →
      held (descend q (setBits value valueLen p node))
        = if q = p then some (value, valueLen) else held (descend q node) := by
  intro p
  induction p with
  | nil =>
    intro q node hnode
    cases node with
    | null => exact absurd rfl hnode
    | node next0 next1 v l =>
      cases q with
      | nil => rfl
      | cons bit q => rfl
  | cons bit p ih =>
    intro q node hnode
    cases q with
    | nil =>
      show held (node.setNext bit _) = held node
      exact held_setNext node _ bit
    | cons other q =>
      show held (descend q ((node.setNext bit _).next other)) = _
      rw [next_setNext node _ hnode]
      by_cases hbit : other = bit
      · subst hbit
        simp only [if_true, List.cons.injEq, true_and]
        -- a node that is missing is created first, and holds nothing
        cases hnext : node.next other with
        | null =>
          rw [ih q bitTrieCreate nofun, held_descend_create]
          show _ = if q = p then _ else held (descend q (node.next other))
          rw [hnext, descend_null]
          rfl
        | node next0 next1 v l =>
          show held (descend q (setBits value valueLen p (.node next0 next1 v l))) = _
          rw [ih q (.node next0 next1 v l) nofun]
          show _ = if q = p then _ else held (descend q (node.next other))
          rw [hnext]
      · rw [if_neg hbit, if_neg fun h => hbit (List.cons.inj h).1]
        rfl

/-! ## Keys -/

theorem length_bits (byte : UInt8) : (bits byte).length = 8 := rfl

theorem bits_injective : Function.Injective bits := by
  -- the bits are the binary digits of the byte
  have hdigits : ∀ n : Fin 256,
      (bits (UInt8.ofNat n)).foldr (fun bit n => 2 * n + bit.toNat) 0 = n.val := by decide +kernel
  have hbyte (byte : UInt8) : (bits byte).foldr (fun bit n => 2 * n + bit.toNat) 0 = byte.toNat := by
    have h := hdigits ⟨byte.toNat, byte.toNat_lt⟩
    rwa [UInt8.ofNat_toNat] at h
  intro a b hbits
  rw [← UInt8.toNat_inj, ← hbyte a, ← hbyte b, hbits]

theorem path_append (key rest : List UInt8) :
    path (key ++ rest) = path key ++ path rest := List.flatMap_append

theorem path_injective : Function.Injective path := by
  intro key
  induction key with
  | nil =>
    intro other hpath
    cases other with
    | nil => rfl
    | cons byte other => cases hpath
  | cons byte key ih =>
    intro other hpath
    cases other with
    | nil => cases hpath
    | cons byte' other =>
      have hsplit := List.append_inj hpath (by rw [length_bits, length_bits])
      rw [bits_injective hsplit.1, ih hsplit.2]

/-! ## Sequences of calls -/

/-- A call of `bit_trie_set`. -/
structure Entry (ν : Type) where
  key : Key
  value : ν
  valueLen : UInt32

def build (entries : List (Entry ν)) : BitTrieNode ν :=
  entries.foldl (fun root entry => bitTrieSet root entry.key entry.value entry.valueLen) bitTrieCreate

/-- The value and length that were set last for the key. -/
def lastSet (entries : List (Entry ν)) (key : List UInt8) : Option (ν × UInt32) :=
  entries.foldl (fun last entry => if key = entry.key.1 then some (entry.value, entry.valueLen)
    else last) none

theorem held_build (entries : List (Entry ν)) (key : List UInt8) :
    held (descend (path key) (build entries)) = lastSet entries key := by
  have hfold : ∀ (entries : List (Entry ν)) (root : BitTrieNode ν), root ≠ null →
      held (descend (path key)
        (entries.foldl (fun root entry => bitTrieSet root entry.key entry.value entry.valueLen) root))
        = entries.foldl (fun last entry => if key = entry.key.1 then
          some (entry.value, entry.valueLen) else last)
            (held (descend (path key) root)) := by
    intro entries
    induction entries with
    | nil => exact fun _ _ => rfl
    | cons entry entries ih =>
      intro root hroot
      have hset : held (descend (path key) (bitTrieSet root entry.key entry.value entry.valueLen))
          = if key = entry.key.1 then some (entry.value, entry.valueLen)
            else held (descend (path key) root) := by
        rw [bitTrieSet, held_setBits _ _ _ _ _ hroot]
        simp only [path_injective.eq_iff]
      have hne : bitTrieSet root entry.key entry.value entry.valueLen ≠ null :=
        setBits_ne_null _ _ _ _ hroot
      rw [List.foldl_cons, List.foldl_cons, ih _ hne, hset]
  show held (descend (path key) (entries.foldl _ bitTrieCreate)) = _
  rw [hfold entries bitTrieCreate nofun, held_descend_create]
  rfl

theorem isSome_lastSet_iff (entries : List (Entry ν)) (key : List UInt8) :
    (lastSet entries key).isSome ↔ ∃ entry ∈ entries, entry.key.1 = key := by
  have hfold : ∀ (entries : List (Entry ν)) (last : Option (ν × UInt32)),
      (entries.foldl (fun last entry => if key = entry.key.1 then some (entry.value, entry.valueLen)
        else last) last).isSome
        ↔ last.isSome ∨ ∃ entry ∈ entries, entry.key.1 = key := by
    intro entries
    induction entries with
    | nil => intro last; simp
    | cons entry entries ih =>
      intro last
      rw [List.foldl_cons, ih]
      by_cases hkey : key = entry.key.1
      · simp [hkey]
      · have hkey' : ¬ entry.key.1 = key := fun h => hkey h.symm
        simp [hkey, hkey']
  have hentries := hfold entries none
  simpa [lastSet] using hentries

/-! ## Lookup -/

/-- The first `n0` bytes of the query lead to `node0`, the longest of the first `n` prefixes that lead
to a node with a value. -/
structure BestOf (root : BitTrieNode ν) (query : List UInt8) (n n0 : Nat)
    (node0 : BitTrieNode ν) : Prop where
  le : n0 ≤ n
  node : node0 = descend (path (query.take n0)) root
  value : n0 = 0 ∨ (held node0).isSome
  best : ∀ m, n0 < m → m ≤ n → held (descend (path (query.take m)) root) = none

/-- What is held at a prefix of the query that ends behind a null pointer is nothing. -/
theorem BestOf.of_null {root node0 : BitTrieNode ν} {query : List UInt8} {n n0 k : Nat}
    (h : BestOf root query n n0 node0)
    (hnull : descend (path (query.take (n + 1))) root = null) (hk : n ≤ k) :
    BestOf root query k n0 node0 := by
  refine ⟨h.le.trans hk, h.node, h.value, fun m hlt hle => ?_⟩
  by_cases hm : m ≤ n
  · exact h.best m hlt hm
  · have hsplit : query.take m = query.take (n + 1) ++ (query.take m).drop (n + 1) := by
      conv_lhs => rw [← List.take_append_drop (n + 1) (query.take m)]
      rw [List.take_take, Nat.min_eq_left (by omega)]
    rw [hsplit, path_append, descend_append, hnull, descend_null]
    rfl

theorem bestOf_getLoop (root : BitTrieNode ν) (query : List UInt8) :
    ∀ (keyp : List UInt8) (n : Nat) (node : BitTrieNode ν) (n0 : Nat) (node0 : BitTrieNode ν),
      query.drop n = keyp → n ≤ query.length → node = descend (path (query.take n)) root →
      BestOf root query n n0 node0 →
      BestOf root query query.length (getLoop keyp n node n0 node0).2
        (getLoop keyp n node n0 node0).1 := by
  intro keyp
  induction keyp with
  | nil =>
    intro n node n0 node0 hdrop hn hnode hbest
    have hlength : n = query.length := by
      have := List.drop_eq_nil_iff.mp hdrop
      omega
    rw [← hlength]
    exact hbest
  | cons byte keyp ih =>
    intro n node n0 node0 hdrop hn hnode hbest
    have hlt : n < query.length := by
      by_contra hge
      rw [List.drop_eq_nil_iff.mpr (by omega)] at hdrop
      cases hdrop
    have hbyte : query.take (n + 1) = query.take n ++ [byte] := by
      have hget : query[n] = byte := by
        have hhead := List.drop_eq_getElem_cons hlt
        rw [hdrop] at hhead
        exact (List.cons.inj hhead).1.symm
      rw [List.take_succ_eq_append_getElem hlt, hget]
    have hrest : query.drop (n + 1) = keyp := by
      rw [← List.drop_drop, hdrop]
      rfl
    -- the eight bits of the byte lead to the next prefix
    have hnext : descend (bits byte) node = descend (path (query.take (n + 1))) root := by
      rw [hbyte, path_append, descend_append, ← hnode]
      simp [path]
    unfold getLoop
    cases hdescend : descend (bits byte) node with
    | null =>
      show BestOf root query query.length n0 node0
      exact hbest.of_null (hnext.symm.trans hdescend) hn
    | node next0 next1 value valueLen =>
      have hnode' := hdescend.symm.trans hnext
      cases value with
      | none =>
        refine ih (n + 1) _ n0 node0 hrest hlt hnode' ⟨hbest.le.trans (Nat.le_succ n), hbest.node,
          hbest.value, ?_⟩
        intro m hm0 hm
        by_cases hmn : m ≤ n
        · exact hbest.best m hm0 hmn
        · have hm' : m = n + 1 := by omega
          rw [hm', ← hnode']
          rfl
      | some value =>
        exact ih (n + 1) _ (n + 1) _ hrest hlt hnode' ⟨le_rfl, hnode', Or.inr rfl,
          fun m hm0 hm => by omega⟩

theorem bestOf_get (root : BitTrieNode ν) (query : Key) :
    BestOf root query.1 query.1.length (bitTrieGet root query).2.toNat (bitTrieGet root query).1 := by
  have hbest := bestOf_getLoop root query.1 query.1 0 root 0 root rfl (Nat.zero_le _) rfl
    ⟨le_rfl, rfl, Or.inl rfl, fun m hm0 hm => by omega⟩
  have hlen : (bitTrieGet root query).2.toNat = (getLoop query.1 0 root 0 root).2 := by
    show (UInt32.ofNat _).toNat = _
    rw [UInt32.toNat_ofNat', Nat.mod_eq_of_lt (hbest.le.trans_lt query.2)]
  rw [hlen]
  exact hbest

/-- Of all keys that were set, `bit_trie_get` finds the longest one that the query begins with, and the
node that carries the value set for it last. Where there is none, it returns 0 and the root. -/
theorem bit_trie_longest_prefix (entries : List (Entry ν)) (query : Key) :
    (∃ entry ∈ entries, entry.key.1 <+: query.1
        ∧ (bitTrieGet (build entries) query).2.toNat = entry.key.1.length
        ∧ (bitTrieGet (build entries) query).1 = descend (path entry.key.1) (build entries)
        ∧ held (bitTrieGet (build entries) query).1 = lastSet entries entry.key.1
        ∧ (lastSet entries entry.key.1).isSome
        ∧ ∀ other ∈ entries, other.key.1 <+: query.1 → other.key.1.length ≤ entry.key.1.length)
      ∨ (∀ entry ∈ entries, ¬ entry.key.1 <+: query.1)
        ∧ bitTrieGet (build entries) query = (build entries, 0) := by
  have hbest := bestOf_get (build entries) query
  generalize bitTrieGet (build entries) query = got at hbest ⊢
  -- every key that fits is found at its own length
  have hlongest : ∀ other ∈ entries, other.key.1 <+: query.1 → other.key.1.length ≤ got.2.toNat := by
    intro other hother hfits
    by_contra hlonger
    have hnone := hbest.best other.key.1.length (by omega) hfits.length_le
    rw [← List.prefix_iff_eq_take.mp hfits, held_build] at hnone
    have hsome := (isSome_lastSet_iff entries other.key.1).mpr ⟨other, hother, rfl⟩
    rw [hnone] at hsome
    cases hsome
  by_cases hheld : (held got.1).isSome
  · have hkey : held got.1 = lastSet entries (query.1.take got.2.toNat) := by
      rw [hbest.node, held_build]
    have hsome : (lastSet entries (query.1.take got.2.toNat)).isSome := hkey ▸ hheld
    obtain ⟨entry, hentry, hentryKey⟩ := (isSome_lastSet_iff entries _).mp hsome
    have hlength : entry.key.1.length = got.2.toNat := by
      rw [hentryKey, List.length_take, Nat.min_eq_left hbest.le]
    refine Or.inl ⟨entry, hentry, ?_, hlength.symm, ?_, ?_, ?_, fun other hother hfits => ?_⟩
    · rw [hentryKey]
      exact List.take_prefix _ _
    · rw [hentryKey]
      exact hbest.node
    · rw [hentryKey]
      exact hkey
    · rw [hentryKey]
      exact hsome
    · rw [hlength]
      exact hlongest other hother hfits
  · have hzero : got.2.toNat = 0 := hbest.value.resolve_right hheld
    have hroot : got.1 = build entries := by
      rw [hbest.node, hzero]
      rfl
    refine Or.inr ⟨fun entry hentry hfits => ?_, ?_⟩
    · -- a key that fits would be the empty one, and the root would hold its value
      have hempty : entry.key.1 = [] := by
        have hle := hlongest entry hentry hfits
        exact List.length_eq_zero_iff.mp (by omega)
      have hsome := (isSome_lastSet_iff entries []).mpr ⟨entry, hentry, hempty⟩
      rw [← held_build] at hsome
      rw [hroot] at hheld
      exact hheld hsome
    · exact Prod.ext hroot (UInt32.toNat_inj.mp hzero)

end FreeSwitch.Prefix
