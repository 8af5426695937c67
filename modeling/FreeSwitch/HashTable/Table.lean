import FreeSwitch.Lib.Buckets

/-!
# Hash tables — `src/switch_hashtable.c`

A table of chains. An entry keeps the hash of its key; the chain it stands in is the hash modulo
the number of chains. An insert with `HASHTABLE_DUP_CHECK` first removes the entry of an equal key;
an insert that takes the count over the load limit moves all entries to the next larger table of
the list of primes. Allocations succeed.

Chains are lists, and the iterator's entry pointer is the rest of the chain it points into.
-/

namespace FreeSwitch.HashTable

open Buckets

/-- A key type with the two functions a table is created with: `eqf` is an equality, and equal
keys hash equally. -/
structure KeyType (κ : Type) where
  hashf : κ → UInt32
  eqf : κ → κ → Bool
  refl : ∀ k, eqf k k = true
  symm : ∀ k l, eqf k l = true → eqf l k = true
  trans : ∀ k l m, eqf k l = true → eqf l m = true → eqf k m = true
  agree : ∀ k l, eqf k l = true → hashf k = hashf l

variable {κ υ : Type}

/-- `hash` of the private header, which mixes what the hash function gives. -/
def hash (K : KeyType κ) (k : κ) : UInt32 :=
  let i := K.hashf k
  let i := i + ~~~(i <<< 9)
  let i := i ^^^ ((i >>> 14) ||| (i <<< 18))
  let i := i + (i <<< 4)
  i ^^^ ((i >>> 10) ||| (i <<< 22))

def indexFor (tablelength : Nat) (hashvalue : UInt32) : Nat := hashvalue.toNat % tablelength

/-! ## Sizes -/

def primes : List Nat :=
  [53, 97, 193, 389, 769, 1543, 3079, 6151, 12289, 24593, 49157, 98317, 196613, 393241, 786433,
    1572869, 3145739, 6291469, 12582917, 25165843, 50331653, 100663319, 201326611, 402653189,
    805306457, 1610612741]

/-- `n` as a `float` has it: 24 significant bits, ties to even. -/
def roundFloat (n : Nat) : Nat :=
  if n < 2 ^ 24 then n
  else
    let unit := 2 ^ (n.log2 - 23)
    let q := n / unit
    let r := n % unit
    if unit < 2 * r ∨ 2 * r = unit ∧ q % 2 = 1 then (q + 1) * unit else q * unit

/-- `ceil(size * 0.65f)`: the factor is 10905190 / 2^24, and the product is a `float`. -/
def loadLimit (size : Nat) : Nat :=
  (roundFloat (roundFloat size * 10905190) + (2 ^ 24 - 1)) / 2 ^ 24

example : loadLimit 53 = 35 := by decide

/-! ## The table -/

structure Flags where
  freeKey : Bool
  freeValue : Bool
  dupCheck : Bool

structure Entry (κ υ : Type) where
  k : κ
  v : υ
  h : UInt32
  flags : Flags
  /-- Whether there is a destructor. -/
  destructor : Bool

structure SwitchHashtable (κ υ : Type) where
  tablelength : Nat
  table : Nat → List (Entry κ υ)
  entrycount : UInt32
  loadlimit : Nat
  primeindex : Nat

/-- `none` if the table asked for is too large. -/
def switchCreateHashtable (minsize : Nat) : Option (SwitchHashtable κ υ) :=
  if 2 ^ 30 < minsize then none
  else
    let pindex := primes.findIdx fun prime => minsize < prime
    let size := primes.getD pindex 53
    some ⟨size, fun _ => [], 0, loadLimit size, pindex⟩

/-- `hashtable_expand`; nothing happens at the last prime. -/
def hashtableExpand (h : SwitchHashtable κ υ) : SwitchHashtable κ υ :=
  if h.primeindex = primes.length - 1 then h
  else
    let newsize := primes.getD (h.primeindex + 1) 0
    { h with
      table := rehash (fun e => indexFor newsize e.h) h.tablelength h.table fun _ => []
      tablelength := newsize
      loadlimit := loadLimit newsize
      primeindex := h.primeindex + 1 }

def switchHashtableCount (h : SwitchHashtable κ υ) : UInt32 := h.entrycount

/-- The comparison of a walk: the hash first, then the key. -/
def isEntry (K : KeyType κ) (k : κ) (hashvalue : UInt32) (e : Entry κ υ) : Bool :=
  hashvalue == e.h && K.eqf k e.k

/-- The walk of `_switch_hashtable_remove`: the chain without the first entry that compares equal,
and the entry. -/
def unlink (K : KeyType κ) (k : κ)
    (hashvalue : UInt32) : List (Entry κ υ) → List (Entry κ υ) × Option (Entry κ υ)
  | [] => ([], none)
  | e :: chain =>
    if isEntry K k hashvalue e then (chain, some e)
    else
      let (rest, found) := unlink K k hashvalue chain
      (e :: rest, found)

/-- The value a removal hands back: none that was freed or destroyed. -/
def removedValue (e : Entry κ υ) : Option υ :=
  if e.flags.freeValue then none else if e.destructor then none else some e.v

/-- `_switch_hashtable_remove`. -/
def removeAt (K : KeyType κ) (h : SwitchHashtable κ υ) (k : κ) (hashvalue : UInt32) (index : Nat) :
    SwitchHashtable κ υ × Option υ :=
  match unlink K k hashvalue (h.table index) with
  | (chain, some e) =>
    ({ h with table := Function.update h.table index chain, entrycount := h.entrycount - 1 },
      removedValue e)
  | (_, none) => (h, none)

def switchHashtableInsertDestructor (K : KeyType κ) (h : SwitchHashtable κ υ) (k : κ) (v : υ)
    (flags : Flags) (destructor : Bool) : SwitchHashtable κ υ :=
  let hashvalue := hash K k
  let index := indexFor h.tablelength hashvalue
  let h := if flags.dupCheck then (removeAt K h k hashvalue index).1 else h
  let h := { h with entrycount := h.entrycount + 1 }
  let h := if h.loadlimit < h.entrycount.toNat then hashtableExpand h else h
  -- the index is taken anew after an expansion; without one the table has its length still
  { h with table := push h.table (indexFor h.tablelength hashvalue) ⟨k, v, hashvalue,
    flags, destructor⟩ }

def switchHashtableSearch (K : KeyType κ) (h : SwitchHashtable κ υ) (k : κ) : Option υ :=
  let hashvalue := hash K k
  ((h.table (indexFor h.tablelength hashvalue)).find? (isEntry K k hashvalue)).map Entry.v

def switchHashtableRemove (K : KeyType κ) (h : SwitchHashtable κ υ)
    (k : κ) : SwitchHashtable κ υ × Option υ :=
  let hashvalue := hash K k
  removeAt K h k hashvalue (indexFor h.tablelength hashvalue)

/-! ## Iterators -/

/-- `e` is the chain from the current entry on, empty for `NULL`. -/
structure SwitchHashtableIterator (κ υ : Type) where
  pos : Nat
  e : List (Entry κ υ)

/-- The first index from `pos` on with a chain, at most `left` further. -/
def skipEmpty (h : SwitchHashtable κ υ) : Nat → Nat → Nat
  | 0, pos => pos
  | left + 1, pos => if (h.table pos).isEmpty then skipEmpty h left (pos + 1) else pos

/-- The rest of `switch_hashtable_next` once the current chain is used up. -/
def nextChain (h : SwitchHashtable κ υ) (pos : Nat) : Option (SwitchHashtableIterator κ υ) :=
  let pos := skipEmpty h (h.tablelength - pos) pos
  if h.tablelength ≤ pos then none
  else if (h.table pos).isEmpty then none
  else some ⟨pos, h.table pos⟩

/-- `none` frees the iterator. -/
def switchHashtableNext (h : SwitchHashtable κ υ) (i : SwitchHashtableIterator κ υ) :
    Option (SwitchHashtableIterator κ υ) :=
  match i.e with
  | _ :: e :: rest => some ⟨i.pos, e :: rest⟩
  | [_] => nextChain h (i.pos + 1)
  | [] => nextChain h i.pos

def switchHashtableFirstIter (h : SwitchHashtable κ υ) : Option (SwitchHashtableIterator κ υ) :=
  switchHashtableNext h ⟨0, []⟩

/-- The loop over an iterator: `switch_hashtable_this` at each stop. `none` when `fuel` is used up. -/
def traverse (h : SwitchHashtable κ υ) : Nat → Option (SwitchHashtableIterator κ υ) →
    Option (List (κ × υ))
  | _, none => some []
  | 0, some _ => none
  | fuel + 1, some i => do
    let rest ← traverse h fuel (switchHashtableNext h i)
    match i.e with
    | e :: _ => some ((e.k, e.v) :: rest)
    | [] => some rest

end FreeSwitch.HashTable
