import FreeSwitch.HashTable.Table

/-!
# A hash table is a finite map

The abstract map takes a key to the value last inserted and not removed. `Wf` is what keeps the
table searchable: every entry stands in the chain of its hash, and no two entries have equal keys.

* **`removeAt_spec`**, **`hashtableExpand_spec`**, **`insert_spec`** — what the operations do to the
  entries held.
* **`traverse_firstIter`** — an iterator stops once at every entry.
* **`hashtable_refines_map`** — after any inserts with `HASHTABLE_DUP_CHECK` and removals a search
  finds the value of the map, a traversal yields the live entries once each, and the count is
  their number, in 32 bits.
* **`hashtable_count_wraps`** — the count of 2^32 entries.
-/

namespace FreeSwitch.HashTable

open Buckets

variable {κ υ : Type} {K : KeyType κ}

/-- The entries of a table, chain by chain. -/
def contents (h : SwitchHashtable κ υ) : List (Entry κ υ) := entries h.tablelength h.table

structure Wf (K : KeyType κ) (h : SwitchHashtable κ υ) : Prop where
  primeindex : h.primeindex < primes.length
  tablelength : h.tablelength = primes.getD h.primeindex 0
  placed : Placed (fun e => indexFor h.tablelength e.h) h.table
  hashed : ∀ e ∈ contents h, e.h = hash K e.k
  distinct : (contents h).Pairwise fun e e' => K.eqf e.k e'.k = false

/-! ## Keys -/

theorem hash_congr {k l : κ} (h : K.eqf k l = true) : hash K k = hash K l := by
  rw [hash, hash, K.agree k l h]

theorem KeyType.eqf_comm (K : KeyType κ) (k l : κ) : K.eqf k l = K.eqf l k := by
  rw [Bool.eq_iff_iff]
  exact ⟨K.symm k l, K.symm l k⟩

theorem KeyType.eqf_congr (K : KeyType κ) {k l : κ} (h : K.eqf k l = true) (m : κ) :
    K.eqf k m = K.eqf l m := by
  rw [Bool.eq_iff_iff]
  exact ⟨K.trans l k m (K.symm k l h), K.trans k l m h⟩

/-! ## Sizes -/

theorem primes_pos : ∀ prime ∈ primes, 0 < prime := by decide

theorem getD_primes {i : Nat} (h : i < primes.length) (d : Nat) : primes.getD i d = primes[i] := by
  rw [List.getD_eq_getElem?_getD, List.getElem?_eq_getElem h, Option.getD_some]

theorem Wf.tablelength_pos {h : SwitchHashtable κ υ} (hw : Wf K h) : 0 < h.tablelength := by
  rw [hw.tablelength, getD_primes hw.primeindex]
  exact primes_pos _ (List.getElem_mem hw.primeindex)

theorem Wf.indexFor_lt {h : SwitchHashtable κ υ} (hw : Wf K h) (hashvalue : UInt32) :
    indexFor h.tablelength hashvalue < h.tablelength := Nat.mod_lt _ hw.tablelength_pos

/-! ## Finding an entry -/

variable {h : SwitchHashtable κ υ}

theorem isEntry_iff {k : κ} {e : Entry κ υ} (he : e.h = hash K e.k) :
    isEntry K k (hash K k) e = K.eqf k e.k := by
  rw [isEntry, he]
  cases heq : K.eqf k e.k with
  | false => exact Bool.and_false _
  | true => rw [hash_congr heq, beq_self_eq_true, Bool.and_true]

theorem Wf.mem_chain {e : Entry κ υ} (hw : Wf K h) (he : e ∈ contents h) :
    e ∈ h.table (indexFor h.tablelength (hash K e.k)) := by
  obtain ⟨i, -, hmem⟩ := mem_entries.mp he
  have hi : indexFor h.tablelength e.h = i := hw.placed i e hmem
  rw [← hw.hashed e he, hi]
  exact hmem

theorem Wf.mem_contents {e : Entry κ υ} {hashvalue : UInt32} (hw : Wf K h)
    (he : e ∈ h.table (indexFor h.tablelength hashvalue)) : e ∈ contents h :=
  mem_entries.mpr ⟨_, hw.indexFor_lt hashvalue, he⟩

/-- Entries with equal keys are the same. -/
theorem Wf.eq_of_eqf {e e' : Entry κ υ} (hw : Wf K h) (he : e ∈ contents h) (he' : e' ∈ contents h)
    (heq : K.eqf e.k e'.k = true) : e = e' := by
  by_contra hne
  have : Std.Symm fun e e' : Entry κ υ => K.eqf e.k e'.k = false :=
    ⟨fun e e' h => (K.eqf_comm e'.k e.k).trans h⟩
  have hfalse := hw.distinct.forall he he' hne
  exact Bool.false_ne_true (hfalse.symm.trans heq)

theorem Wf.search_eq_some_iff (hw : Wf K h) (k : κ) (v : υ) :
    switchHashtableSearch K h k = some v ↔ ∃ e ∈ contents h, K.eqf k e.k = true ∧ e.v = v := by
  rw [switchHashtableSearch, Option.map_eq_some_iff]
  constructor
  · intro ⟨e, hfind, hv⟩
    have he := hw.mem_contents (List.mem_of_find?_eq_some hfind)
    have hentry := List.find?_some hfind
    rw [isEntry_iff (hw.hashed e he)] at hentry
    exact ⟨e, he, hentry, hv⟩
  · intro ⟨e, he, hk, hv⟩
    have hmem := hw.mem_chain he
    rw [← hash_congr hk] at hmem
    -- the walk stops somewhere, and only `e` has an equal key
    cases hfind : (h.table (indexFor h.tablelength (hash K k))).find? (isEntry K k (hash K k)) with
    | none =>
      have hnot := List.find?_eq_none.mp hfind e hmem
      rw [isEntry_iff (hw.hashed e he)] at hnot
      exact absurd hk hnot
    | some e' =>
      have he' := hw.mem_contents (List.mem_of_find?_eq_some hfind)
      have hentry := List.find?_some hfind
      rw [isEntry_iff (hw.hashed e' he')] at hentry
      have heq : e' = e := hw.eq_of_eqf he' he (by rw [← K.eqf_congr hentry]; exact hk)
      exact ⟨e', rfl, heq ▸ hv⟩

/-! ## Removing -/

theorem unlink_spec {p : Entry κ υ → Bool} {chain : List (Entry κ υ)} {k : κ} {hashvalue : UInt32}
    (hp : ∀ e ∈ chain, isEntry K k hashvalue e = p e)
    (hone : chain.Pairwise fun e e' => p e = true → p e' = false) :
    (unlink K k hashvalue chain).1 = chain.filter (fun e => !p e)
    ∧ (unlink K k hashvalue chain).2 = chain.find? p := by
  induction chain with
  | nil => exact ⟨rfl, rfl⟩
  | cons e chain ih =>
    obtain ⟨hhead, htail⟩ := List.pairwise_cons.mp hone
    obtain ⟨hfst, hsnd⟩ := ih (fun e' he' => hp e' (List.mem_cons_of_mem e he')) htail
    rw [unlink, hp e List.mem_cons_self]
    cases hpe : p e with
    | false =>
      rw [if_neg Bool.false_ne_true, List.filter_cons_of_pos (by rw [hpe]; rfl),
        List.find?_cons_of_neg (by rw [hpe]; exact Bool.false_ne_true), ← hfst, ← hsnd]
      exact ⟨rfl, rfl⟩
    | true =>
      rw [if_pos rfl, List.filter_cons_of_neg (by rw [hpe]; exact Bool.false_ne_true),
        List.find?_cons_of_pos hpe]
      -- nothing behind it compares equal
      refine ⟨(List.filter_eq_self.mpr fun e' he' => ?_).symm, rfl⟩
      rw [hhead e' he' hpe]
      rfl

/-- Taking out the one element that has `p` leaves one less. -/
theorem length_filter_one {α : Type} {p : α → Bool} {l : List α}
    (hone : l.Pairwise fun a b => p a = true → p b = false) {a : α} (ha : a ∈ l) (hp : p a = true) :
    l.length = (l.filter fun b => !p b).length + 1 := by
  induction l with
  | nil => cases ha
  | cons b l ih =>
    obtain ⟨hhead, htail⟩ := List.pairwise_cons.mp hone
    cases hpb : p b with
    | false =>
      have hne : a ≠ b := by
        intro heq
        exact Bool.false_ne_true (hpb.symm.trans (heq ▸ hp))
      rw [List.filter_cons_of_pos (by rw [hpb]; rfl), List.length_cons, List.length_cons,
        ih htail (List.mem_of_ne_of_mem hne ha)]
    | true =>
      rw [List.filter_cons_of_neg (by rw [hpb]; exact Bool.false_ne_true), List.length_cons,
        List.filter_eq_self.mpr]
      intro c hc
      rw [hhead c hc hpb]
      rfl

theorem Wf.one_eqf (hw : Wf K h) (k : κ) :
    (contents h).Pairwise fun e e' => K.eqf k e.k = true → K.eqf k e'.k = false := by
  refine hw.distinct.imp fun {e e'} hne hk => ?_
  rw [K.eqf_congr hk]
  exact hne

theorem Wf.of_filter {h' : SwitchHashtable κ υ} {p : Entry κ υ → Bool} (hw : Wf K h)
    (hprime : h'.primeindex = h.primeindex) (hlength : h'.tablelength = h.tablelength)
    (hsub : ∀ i, ∀ e ∈ h'.table i, e ∈ h.table i) (hcontents : contents h' = (contents h).filter p) :
    Wf K h' := by
  refine ⟨hprime ▸ hw.primeindex, ?_, ?_, ?_, ?_⟩
  · rw [hlength, hprime]
    exact hw.tablelength
  · intro i e he
    rw [hlength]
    exact hw.placed i e (hsub i e he)
  · intro e he
    rw [hcontents] at he
    exact hw.hashed e (List.mem_of_mem_filter he)
  · rw [hcontents]
    exact hw.distinct.filter p

/-- A removal takes the entries with an equal key, and counts the one it finds. -/
theorem removeAt_spec (hw : Wf K h) (k : κ) :
    let h' := (removeAt K h k (hash K k) (indexFor h.tablelength (hash K k))).1
    Wf K h' ∧ contents h' = (contents h).filter (fun e => !K.eqf k e.k)
      ∧ (h.entrycount = UInt32.ofNat (contents h).length →
        h'.entrycount = UInt32.ofNat (contents h').length) := by
  have hchain : ∀ e ∈ h.table (indexFor h.tablelength (hash K k)),
      isEntry K k (hash K k) e = K.eqf k e.k :=
        fun e he => isEntry_iff (hw.hashed e (hw.mem_contents he))
  have hone := (hw.one_eqf k).sublist (sublist_entries (hw.indexFor_lt (hash K k)) h.table)
  obtain ⟨hfst, hsnd⟩ := unlink_spec hchain hone
  have hother : ∀ j < h.tablelength, j ≠ indexFor h.tablelength (hash K k) → ∀ e ∈ h.table j,
      (!K.eqf k e.k) = true := by
    intro j hj hne e he
    cases hk : K.eqf k e.k with
    | false => rfl
    | true =>
      have hplaced : indexFor h.tablelength e.h = j := hw.placed j e he
      rw [hw.hashed e (mem_entries.mpr ⟨j, hj, he⟩), ← hash_congr hk] at hplaced
      exact absurd hplaced.symm hne
  have hfiltered := entries_filter (hw.indexFor_lt (hash K k)) h.table (fun e => !K.eqf k e.k) hother
  show let h' := (removeAt K h k (hash K k) (indexFor h.tablelength (hash K k))).1; _
  rw [removeAt]
  generalize hunlink : unlink K k (hash K k) (h.table (indexFor h.tablelength (hash K k)))
    = result at hfst hsnd
  obtain ⟨chain, found⟩ := result
  cases found with
  | none =>
    -- no entry of the chain has an equal key, so none of the table has
    have hnone := List.find?_eq_none.mp hsnd.symm
    have hsame : contents h = (contents h).filter (fun e => !K.eqf k e.k) := by
      refine (List.filter_eq_self.mpr fun e he => ?_).symm
      obtain ⟨i, hi, hmem⟩ := mem_entries.mp he
      by_cases heq : i = indexFor h.tablelength (hash K k)
      · subst heq
        rw [Bool.not_eq_true', Bool.eq_false_iff]
        exact hnone e hmem
      · exact hother i hi heq e hmem
    exact ⟨hw, hsame, id⟩
  | some e =>
    have hmem := hw.mem_contents (List.mem_of_find?_eq_some hsnd.symm)
    have hk : K.eqf k e.k = true := @List.find?_some _ (fun e : Entry κ υ => K.eqf k e.k) _ _ hsnd.symm
    have hcontents : entries h.tablelength
        (Function.update h.table (indexFor h.tablelength (hash K k)) chain)
        = (contents h).filter (fun e => !K.eqf k e.k) := by
      rw [show chain = _ from hfst]
      exact hfiltered
    refine ⟨hw.of_filter rfl rfl ?_ hcontents, hcontents, fun hcount => ?_⟩
    · intro i e' he'
      have he' : e' ∈ Function.update h.table (indexFor h.tablelength (hash K k)) chain i := he'
      by_cases heq : i = indexFor h.tablelength (hash K k)
      · subst heq
        rw [Function.update_self, show chain = _ from hfst] at he'
        exact List.mem_of_mem_filter he'
      · rwa [Function.update_of_ne heq] at he'
    · show h.entrycount - 1 = UInt32.ofNat (entries h.tablelength _).length
      rw [hcontents, hcount, length_filter_one (hw.one_eqf k) hmem hk, UInt32.ofNat_add]
      exact UInt32.add_sub_cancel _ 1

/-! ## Inserting -/

theorem hashtableExpand_spec (hw : Wf K h) :
    Wf K (hashtableExpand h) ∧ (contents (hashtableExpand h)).Perm (contents h)
      ∧ (hashtableExpand h).entrycount = h.entrycount := by
  unfold hashtableExpand
  split
  · exact ⟨hw, List.Perm.refl _, rfl⟩
  · rename_i hlast
    have hlt : h.primeindex + 1 < primes.length := by
      have := hw.primeindex
      omega
    have hpos : 0 < primes.getD (h.primeindex + 1) 0 := by
      rw [getD_primes hlt]
      exact primes_pos _ (List.getElem_mem hlt)
    -- nothing stands in the new table before the move
    have hempty : entries (primes.getD (h.primeindex + 1) 0) (fun _ => ([] : List (Entry κ υ))) = [] :=
      List.flatMap_eq_nil_iff.mpr fun _ _ => rfl
    have hperm :=
      perm_entries_rehash (fun e : Entry κ υ => Nat.mod_lt e.h.toNat hpos) h.tablelength h.table
      (fun _ => [])
    rw [hempty, List.append_nil] at hperm
    refine ⟨⟨hlt, rfl, ?_, ?_, ?_⟩, hperm, rfl⟩
    · exact Placed.rehash _ _ fun _ _ he => absurd he List.not_mem_nil
    · exact fun e he => hw.hashed e (hperm.mem_iff.mp he)
    · refine (hperm.pairwise_iff ?_).mpr hw.distinct
      intro e e' hne
      exact (K.eqf_comm e'.k e.k).trans hne

/-- The entries after an insert: the new one, and those with another key. -/
theorem insert_spec (hw : Wf K h) (k : κ) (v : υ) {flags : Flags} (hdup : flags.dupCheck = true)
    (destructor : Bool) :
    let h' := switchHashtableInsertDestructor K h k v flags destructor
    Wf K h' ∧ (contents h').Perm
        (⟨k, v, hash K k, flags, destructor⟩ :: (contents h).filter fun e => !K.eqf k e.k)
      ∧ (h.entrycount = UInt32.ofNat (contents h).length →
        h'.entrycount = UInt32.ofNat (contents h').length) := by
  obtain ⟨hw₁, hcontents₁, hcount₁⟩ := removeAt_spec hw k
  simp only [switchHashtableInsertDestructor, hdup, if_true]
  generalize (removeAt K h k (hash K k) (indexFor h.tablelength (hash K k))).1
    = h₁ at hw₁ hcontents₁ hcount₁
  -- with the count up, and perhaps a larger table
  have hmore : ∃ h₂, (if h₁.loadlimit < (h₁.entrycount + 1).toNat
        then hashtableExpand { h₁ with entrycount := h₁.entrycount + 1 }
        else { h₁ with entrycount := h₁.entrycount + 1 }) = h₂
      ∧ Wf K h₂ ∧ (contents h₂).Perm (contents h₁) ∧ h₂.entrycount = h₁.entrycount + 1 := by
    have hw' : Wf K { h₁ with entrycount := h₁.entrycount + 1 } :=
      ⟨hw₁.primeindex, hw₁.tablelength, hw₁.placed, hw₁.hashed, hw₁.distinct⟩
    split
    · exact ⟨_, rfl, hashtableExpand_spec hw'⟩
    · exact ⟨_, rfl, hw', List.Perm.refl _, rfl⟩
  obtain ⟨h₂, heq, hw₂, hperm₂, hcount₂⟩ := hmore
  rw [heq]
  have hpush := perm_entries_push (hw₂.indexFor_lt (hash K k)) h₂.table
    (⟨k, v, hash K k, flags, destructor⟩ : Entry κ υ)
  have hother : ∀ e ∈ contents h₂, K.eqf k e.k = false := by
    intro e he
    have he := hperm₂.mem_iff.mp he
    rw [hcontents₁, List.mem_filter, Bool.not_eq_true'] at he
    exact he.2
  refine ⟨⟨hw₂.primeindex, hw₂.tablelength, ?_, ?_, ?_⟩, ?_, fun hcount => ?_⟩
  · exact hw₂.placed.push ⟨k, v, hash K k, flags, destructor⟩
  · intro e he
    rcases List.mem_cons.mp (hpush.mem_iff.mp he) with rfl | he
    · rfl
    · exact hw₂.hashed e he
  · refine (hpush.pairwise_iff ?_).mpr (List.pairwise_cons.mpr ⟨hother, hw₂.distinct⟩)
    intro e e' hne
    exact (K.eqf_comm e'.k e.k).trans hne
  · rw [← hcontents₁]
    exact hpush.trans (hperm₂.cons _)
  · have hlength := (hpush.trans (hperm₂.cons _)).length_eq
    show h₂.entrycount = UInt32.ofNat (entries h₂.tablelength _).length
    rw [hlength, hcount₂, hcount₁ hcount, List.length_cons, UInt32.ofNat_add]
    rfl

/-! ## Traversing -/

/-- `skipEmpty` comes to the end, or to a chain; what it skips holds nothing. -/
theorem skipEmpty_spec (left pos : Nat) :
    (skipEmpty h left pos = pos + left ∨ (skipEmpty h left pos < pos + left
        ∧ h.table (skipEmpty h left pos) ≠ [])) ∧ pos ≤ skipEmpty h left pos
      ∧ ∀ i, pos ≤ i → i < skipEmpty h left pos → h.table i = [] := by
  induction left generalizing pos with
  | zero => exact ⟨.inl rfl, le_rfl, fun i hle hlt => absurd hlt (Nat.not_lt.mpr hle)⟩
  | succ left ih =>
    rw [skipEmpty]
    split
    · rename_i hempty
      obtain ⟨hend, hle, hskip⟩ := ih (pos + 1)
      refine ⟨?_, by omega, fun i hi hlt => ?_⟩
      · rw [show pos + (left + 1) = pos + 1 + left by omega]
        exact hend
      · by_cases heq : i = pos
        · subst heq
          exact List.isEmpty_iff.mp hempty
        · exact hskip i (by omega) hlt
    · rename_i hchain
      refine ⟨.inr ⟨by omega, ?_⟩, le_rfl, fun i hle hlt => absurd hlt (Nat.not_lt.mpr hle)⟩
      intro hnil
      exact hchain (List.isEmpty_iff.mpr hnil)

/-- What the chains from `pos` on hold. -/
def contentsFrom (h : SwitchHashtable κ υ) (pos : Nat) : List (Entry κ υ) :=
  (List.range' pos (h.tablelength - pos)).flatMap h.table

/-- What an iterator has yet to stop at, the entry it is at included. -/
def toVisit (h : SwitchHashtable κ υ) : Option (SwitchHashtableIterator κ υ) → List (Entry κ υ)
  | none => []
  | some i => i.e ++ contentsFrom h (i.pos + 1)

theorem contentsFrom_of_le {pos : Nat} (hle : h.tablelength ≤ pos) : contentsFrom h pos = [] := by
  rw [contentsFrom, Nat.sub_eq_zero_of_le hle]
  rfl

theorem contentsFrom_of_lt {pos : Nat} (hlt : pos < h.tablelength) :
    contentsFrom h pos = h.table pos ++ contentsFrom h (pos + 1) := by
  rw [contentsFrom, show h.tablelength - pos = h.tablelength - (pos + 1) + 1 by omega, List.range'_succ,
    List.flatMap_cons]
  rfl

theorem contentsFrom_skip {pos to' : Nat} (hle : pos ≤ to') (hto : to' ≤ h.tablelength)
    (hskip : ∀ i, pos ≤ i → i < to' → h.table i = []) : contentsFrom h pos = contentsFrom h to' := by
  induction hle using Nat.decreasingInduction with
  | self => rfl
  | of_succ pos hlt ih =>
    rw [contentsFrom_of_lt (by omega), hskip pos le_rfl hlt, List.nil_append]
    exact ih fun i hi => hskip i (by omega)

theorem toVisit_nextChain (pos : Nat) : toVisit h (nextChain h pos) = contentsFrom h pos := by
  obtain ⟨hend, hle, hskip⟩ := skipEmpty_spec (h := h) (h.tablelength - pos) pos
  rw [nextChain]
  by_cases hpos : pos < h.tablelength
  · rcases hend with hend | ⟨hlt, hchain⟩
    · have hat : skipEmpty h (h.tablelength - pos) pos = h.tablelength := by omega
      rw [hat] at hskip ⊢
      rw [if_pos le_rfl, contentsFrom_skip (by omega) le_rfl hskip, contentsFrom_of_le le_rfl]
      rfl
    · rw [if_neg (by omega), if_neg (by rwa [List.isEmpty_iff]), contentsFrom_skip hle (by omega) hskip,
        contentsFrom_of_lt (by omega)]
      rfl
  · rw [if_pos (by omega), contentsFrom_of_le (by omega)]
    rfl

/-- A step of the iterator leaves what is behind the entry it was at. -/
theorem toVisit_next (i : SwitchHashtableIterator κ υ) (hi : i.e ≠ []) :
    toVisit h (switchHashtableNext h i) = (toVisit h (some i)).tail := by
  obtain ⟨pos, e⟩ := i
  match e with
  | [] => exact absurd rfl hi
  | [e] => exact toVisit_nextChain (pos + 1)
  | e :: e' :: rest => rfl

/-- An iterator that is handed out is at an entry. -/
theorem nextChain_ne {pos : Nat} {i : SwitchHashtableIterator κ υ} (hnext : nextChain h pos = some i) :
    i.e ≠ [] := by
  unfold nextChain at hnext
  simp only at hnext
  split at hnext
  · cases hnext
  · split at hnext
    · cases hnext
    · rename_i hchain
      cases hnext
      rwa [List.isEmpty_iff] at hchain

theorem next_ne {i i' : SwitchHashtableIterator κ υ} (hnext : switchHashtableNext h i = some i') :
    i'.e ≠ [] := by
  obtain ⟨pos, e⟩ := i
  match e with
  | [] => exact nextChain_ne hnext
  | [e] => exact nextChain_ne hnext
  | e :: e' :: rest =>
    cases hnext
    exact List.cons_ne_nil e' rest

theorem traverse_eq {fuel : Nat} {i : Option (SwitchHashtableIterator κ υ)}
    (hi : ∀ i', i = some i' → i'.e ≠ []) (hfuel : (toVisit h i).length ≤ fuel) :
    traverse h fuel i = some ((toVisit h i).map fun e => (e.k, e.v)) := by
  induction fuel generalizing i with
  | zero =>
    cases i with
    | none => rfl
    | some i =>
      have hnil := List.append_eq_nil_iff.mp (List.eq_nil_of_length_eq_zero (Nat.le_zero.mp hfuel))
      exact absurd hnil.1 (hi i rfl)
  | succ fuel ih =>
    cases i with
    | none => rfl
    | some i =>
      have hne := hi i rfl
      have hnext := toVisit_next (h := h) i hne
      have hrest : traverse h fuel (switchHashtableNext h i)
          = some ((toVisit h (some i)).tail.map fun e => (e.k, e.v)) := by
        rw [← hnext]
        apply ih
        · exact fun i' hi' => next_ne hi'
        · rw [hnext, List.length_tail]
          omega
      rw [traverse, hrest]
      obtain ⟨pos, e⟩ := i
      cases e with
      | nil => exact absurd rfl hne
      | cons e rest => rfl

theorem toVisit_firstIter (h : SwitchHashtable κ υ) :
    toVisit h (switchHashtableFirstIter h) = contents h := by
  rw [contents, entries, List.range_eq_range']
  exact toVisit_nextChain 0

/-- A traversal stops once at every entry, chain by chain. -/
theorem traverse_firstIter (h : SwitchHashtable κ υ) :
    traverse h (contents h).length (switchHashtableFirstIter h)
      = some ((contents h).map fun e => (e.k, e.v)) := by
  have hfrom := toVisit_firstIter h
  have hne : ∀ i, switchHashtableFirstIter h = some i → i.e ≠ [] := fun i hi => next_ne hi
  rw [traverse_eq hne (by rw [hfrom]), hfrom]

/-! ## The finite map -/

/-- The calls on a table: inserts that check for duplicates, and removals. -/
inductive Op (κ υ : Type) where
  | insert (k : κ) (v : υ) (freeKey freeValue destructor : Bool)
  | remove (k : κ)

def apply (K : KeyType κ) (h : SwitchHashtable κ υ) : Op κ υ → SwitchHashtable κ υ
  | .insert k v freeKey freeValue destructor =>
    switchHashtableInsertDestructor K h k v ⟨freeKey, freeValue, true⟩ destructor
  | .remove k => (switchHashtableRemove K h k).1

/-- The map with the keys equal to `k` taken to `v`. -/
def assign (K : KeyType κ) (m : κ → Option υ) (k : κ) (v : Option υ) : κ → Option υ :=
  fun l => if K.eqf k l then v else m l

def applyMap (K : KeyType κ) (m : κ → Option υ) : Op κ υ → κ → Option υ
  | .insert k v _ _ _ => assign K m k (some v)
  | .remove k => assign K m k none

/-- The value last inserted under a key and not removed. -/
def valueAfter (K : KeyType κ) (ops : List (Op κ υ)) : κ → Option υ :=
  ops.foldl (applyMap K) fun _ => none

/-- The table holds the map, and counts its entries. -/
structure Holds (K : KeyType κ) (h : SwitchHashtable κ υ) (m : κ → Option υ) : Prop where
  wf : Wf K h
  counted : h.entrycount = UInt32.ofNat (contents h).length
  value : ∀ k v, m k = some v ↔ ∃ e ∈ contents h, K.eqf k e.k = true ∧ e.v = v

variable {m : κ → Option υ}

/-- What is left of the entries when those with a key equal to `k` are taken out. -/
theorem Holds.value_filter (hh : Holds K h m) (k l : κ) (v : υ) :
    (∃ e ∈ (contents h).filter (fun e => !K.eqf k e.k), K.eqf l e.k = true ∧ e.v = v)
      ↔ K.eqf k l = false ∧ m l = some v := by
  constructor
  · intro ⟨e, he, hl, hv⟩
    rw [List.mem_filter, Bool.not_eq_true'] at he
    refine ⟨?_, (hh.value l v).mpr ⟨e, he.1, hl, hv⟩⟩
    rw [K.eqf_comm, K.eqf_congr hl, K.eqf_comm]
    exact he.2
  · intro ⟨hkl, hm⟩
    obtain ⟨e, he, hl, hv⟩ := (hh.value l v).mp hm
    refine ⟨e, List.mem_filter.mpr ⟨he, ?_⟩, hl, hv⟩
    rw [K.eqf_comm, ← K.eqf_congr hl, K.eqf_comm, hkl]
    rfl

theorem Holds.remove (hh : Holds K h m) (k : κ) :
    Holds K (switchHashtableRemove K h k).1 (assign K m k none) := by
  obtain ⟨hw, hcontents, hcount⟩ := removeAt_spec hh.wf k
  refine ⟨hw, hcount hh.counted, fun l v => ?_⟩
  show assign K m k none l = some v ↔ ∃ e ∈ contents (removeAt K h k _ _).1, _
  rw [hcontents, hh.value_filter, assign]
  cases K.eqf k l with
  | false => simp only [Bool.false_eq_true, if_false, true_and]
  | true => simp only [if_true, reduceCtorEq, Bool.true_eq_false, false_and]

theorem Holds.insert (hh : Holds K h m) (k : κ) (v : υ) {flags : Flags}
    (hdup : flags.dupCheck = true) (destructor : Bool) :
    Holds K (switchHashtableInsertDestructor K h k v flags destructor) (assign K m k (some v)) := by
  obtain ⟨hw, hcontents, hcount⟩ := insert_spec hh.wf k v hdup destructor
  refine ⟨hw, hcount hh.counted, fun l w => ?_⟩
  -- an entry is the new one or one of the others
  have hmem : (∃ e ∈ contents (switchHashtableInsertDestructor K h k v flags destructor),
      K.eqf l e.k = true ∧ e.v = w)
        ↔ (K.eqf l k = true ∧ v = w) ∨ (K.eqf k l = false ∧ m l = some w) := by
    rw [← hh.value_filter]
    simp only [hcontents.mem_iff, List.mem_cons, or_and_right, exists_or, exists_eq_left]
  rw [hmem, assign, K.eqf_comm l k]
  cases K.eqf k l with
  | false => simp only [Bool.false_eq_true, if_false, false_and, true_and, false_or]
  | true => simp only [if_true, Option.some.injEq, true_and, Bool.true_eq_false, false_and, or_false]

theorem Holds.apply (hh : Holds K h m) (op : Op κ υ) : Holds K (apply K h op) (applyMap K m op) := by
  cases op with
  | insert k v freeKey freeValue destructor => exact hh.insert k v rfl destructor
  | remove k => exact hh.remove k

theorem Holds.foldl (hh : Holds K h m) (ops : List (Op κ υ)) :
    Holds K (ops.foldl (HashTable.apply K) h) (ops.foldl (applyMap K) m) :=
  List.foldl_rel hh fun op _ _ _ hh => hh.apply op

theorem contents_empty (tablelength loadlimit primeindex : Nat) (entrycount : UInt32) :
    contents (⟨tablelength, fun _ => [], entrycount, loadlimit, primeindex⟩ : SwitchHashtable κ υ)
      = [] :=
  List.flatMap_eq_nil_iff.mpr fun _ _ => rfl

/-- A new table is empty; the list of primes has one above every size that is let through. -/
theorem holds_create {minsize : Nat} {h₀ : SwitchHashtable κ υ}
    (hcreate : switchCreateHashtable minsize = some h₀) : Holds K h₀ fun _ => none := by
  unfold switchCreateHashtable at hcreate
  split at hcreate
  · cases hcreate
  · rename_i hsize
    cases hcreate
    have hlt : primes.findIdx (fun prime => decide (minsize < prime)) < primes.length := by
      rw [List.findIdx_lt_length]
      refine ⟨1610612741, by decide, ?_⟩
      rw [decide_eq_true_eq]
      omega
    refine ⟨⟨hlt, ?_, ?_, ?_, ?_⟩, ?_, fun k v => ?_⟩
    · exact (getD_primes hlt 53).trans (getD_primes hlt 0).symm
    · exact fun _ _ he => absurd he List.not_mem_nil
    · intro e he
      rw [contents_empty] at he
      cases he
    · rw [contents_empty]
      exact List.Pairwise.nil
    · rw [contents_empty]
      rfl
    · rw [contents_empty]
      simp only [reduceCtorEq, List.not_mem_nil, false_and, exists_false]

/-- **After any operations the table is the map they make: a search gives the value that was put there
last, and an iteration meets each key once.** -/
theorem hashtable_refines_map (K : KeyType κ) {minsize : Nat} {h₀ : SwitchHashtable κ υ}
    (hcreate : switchCreateHashtable minsize = some h₀) (ops : List (Op κ υ)) :
    let h := ops.foldl (apply K) h₀
    (∀ k, switchHashtableSearch K h k = valueAfter K ops k)
      ∧ ∃ fuel live, traverse h fuel (switchHashtableFirstIter h) = some live
        ∧ live.Pairwise (fun p q => K.eqf p.1 q.1 = false)
        ∧ (∀ k v, valueAfter K ops k = some v ↔ ∃ p ∈ live, K.eqf k p.1 = true ∧ p.2 = v)
        ∧ (switchHashtableCount h).toNat = live.length % 2 ^ 32 := by
  have hh := (holds_create (K := K) hcreate).foldl ops
  refine ⟨fun k => ?_, _, _, traverse_firstIter _, ?_, fun k v => ?_, ?_⟩
  · apply Option.ext
    intro v
    exact (hh.wf.search_eq_some_iff k v).trans (hh.value k v).symm
  · rw [List.pairwise_map]
    exact hh.wf.distinct
  · rw [valueAfter, hh.value k v]
    simp only [List.mem_map, exists_exists_and_eq_and]
  · rw [switchHashtableCount, hh.counted, UInt32.toNat_ofNat', List.length_map]

/-- Numbers as keys. -/
def numberKeys : KeyType Nat where
  hashf k := UInt32.ofNat k
  eqf k l := k == l
  refl k := beq_self_eq_true k
  symm k l h := beq_iff_eq.mpr (beq_iff_eq.mp h).symm
  trans k l m h h' := beq_iff_eq.mpr ((beq_iff_eq.mp h).trans (beq_iff_eq.mp h'))
  agree k l h := by rw [beq_iff_eq.mp h]

/-- A key inserted twice, one removed, and one left alone. -/
theorem hashtable_refines_map_three :
    ∃ h₀ : SwitchHashtable Nat String, switchCreateHashtable 16 = some h₀ ∧
      let h := [Op.insert 7 "a" false false false, .insert 60 "b" false false false,
        .insert 7 "c" false false false, .remove 60].foldl (apply numberKeys) h₀
      switchHashtableSearch numberKeys h 7 = some "c"
      ∧ switchHashtableSearch numberKeys h 60 = none := by
  have hcreate : switchCreateHashtable (κ := Nat) (υ := String) 16
      = some ⟨53, fun _ => [], 0, loadLimit 53, 0⟩ := rfl
  have hsearch := (hashtable_refines_map numberKeys hcreate
    [.insert 7 "a" false false false, .insert 60 "b" false false false, .insert 7 "c" false false false,
      .remove 60]).1
  exact ⟨_, hcreate, (hsearch 7).trans rfl, (hsearch 60).trans rfl⟩

/-! ## The count of very many entries -/

/-- Inserts of the keys below `n`. -/
def fill (n : Nat) : List (Op Nat Unit) := (List.range n).map fun k => .insert k () false false false

theorem valueAfter_fill (n k : Nat) :
    valueAfter numberKeys (fill n) k = if k < n then some () else none := by
  induction n with
  | zero => rfl
  | succ n ih =>
    rw [valueAfter, fill, List.range_succ, List.map_append, List.foldl_append]
    show assign numberKeys (valueAfter numberKeys (fill n)) n (some ()) k = _
    rw [assign, ih]
    show (if (n == k) = true then _ else _) = _
    by_cases heq : n = k
    · subst heq
      rw [if_pos (beq_self_eq_true n), if_pos (Nat.lt_succ_self n)]
    · rw [if_neg (fun h => heq (beq_iff_eq.mp h))]
      congr 1
      exact propext (by omega)

/-- A table that holds the keys below `n` holds `n` entries. -/
theorem length_contents_fill {h : SwitchHashtable Nat Unit} {n : Nat}
    (hh : Holds numberKeys h (valueAfter numberKeys (fill n))) : (contents h).length = n := by
  have hnodup : ((contents h).map Entry.k).Nodup := by
    rw [List.Nodup, List.pairwise_map]
    refine hh.wf.distinct.imp fun {e e'} hne heq => ?_
    rw [heq] at hne
    exact Bool.false_ne_true (hne.symm.trans (numberKeys.refl e'.k))
  have hmem : ∀ k, k ∈ (contents h).map Entry.k ↔ k ∈ List.range n := by
    intro k
    have hvalue := hh.value k ()
    rw [valueAfter_fill] at hvalue
    rw [List.mem_range, List.mem_map]
    constructor
    · intro ⟨e, he, hk⟩
      by_contra hlt
      rw [if_neg hlt] at hvalue
      exact absurd (hvalue.mpr ⟨e, he, beq_iff_eq.mpr hk.symm, rfl⟩) (by simp)
    · intro hlt
      obtain ⟨e, he, hk, -⟩ := hvalue.mp (if_pos hlt)
      exact ⟨e, he, (beq_iff_eq.mp hk).symm⟩
  have hperm := (List.perm_ext_iff_of_nodup hnodup List.nodup_range).mpr hmem
  rw [← List.length_map Entry.k, hperm.length_eq, List.length_range]

/-- `entrycount` is an `unsigned int`: with 2^32 keys in the table the count is 0. -/
theorem hashtable_count_wraps :
    ∃ h₀ : SwitchHashtable Nat Unit, switchCreateHashtable 16 = some h₀
      ∧ (∀ k, k < 2 ^ 32 → valueAfter numberKeys (fill (2 ^ 32)) k = some ())
      ∧ switchHashtableCount ((fill (2 ^ 32)).foldl (apply numberKeys) h₀) = 0 := by
  have hcreate : switchCreateHashtable (κ := Nat) (υ := Unit) 16
      = some ⟨53, fun _ => [], 0, loadLimit 53, 0⟩ := rfl
  refine ⟨_, hcreate, fun k hk => ?_, ?_⟩
  · rw [valueAfter_fill, if_pos hk]
  · have hh := (holds_create (K := numberKeys) hcreate).foldl (fill (2 ^ 32))
    rw [switchHashtableCount, hh.counted, length_contents_fill hh]
    rfl

end FreeSwitch.HashTable
