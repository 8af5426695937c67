import FreeSwitch.HashTable.Refines
import FreeSwitch.Lib.CString

/-!
# Hash tables with strings for keys — `src/switch_core_hash.c`

A `switch_hash_t` is a hash table whose keys are strings, copied at the insert. `Maps h m` says that
a table holds the map `m`; the operations act on the map.

* **`Maps.find`**, **`Maps.insert`**, **`Maps.delete`** — the operations.
* **`Maps.drain`** — the loop that deletes the first entry until there is none.
* **`Intact`** — the map that a table holds is what is found in it; the operations in these terms.
-/

namespace FreeSwitch.HashTable

open CString Buckets

/-! ## The tables -/

def switchHashDefault (s : Str) : UInt32 :=
  s.foldl (fun hash c => c.toUInt32 + (hash <<< 6) + (hash <<< 16) - hash) 0

/-- Strings, with case. -/
def stringKeys : KeyType Str where
  hashf := switchHashDefault
  eqf k l := k == l
  refl k := beq_self_eq_true k
  symm k l h := beq_iff_eq.mpr (beq_iff_eq.mp h).symm
  trans k l m h h' := beq_iff_eq.mpr ((beq_iff_eq.mp h).trans (beq_iff_eq.mp h'))
  agree k l h := by rw [beq_iff_eq.mp h]

abbrev SwitchHash (υ : Type) : Type := SwitchHashtable Str υ

variable {υ : Type}

def switchCoreHashInit : SwitchHash υ := (switchCreateHashtable 16).get rfl

def switchCoreHashInsert (h : SwitchHash υ) (key : Str) (data : υ) : SwitchHash υ :=
  switchHashtableInsertDestructor stringKeys h key data ⟨true, false, true⟩ false

def switchCoreHashFind (h : SwitchHash υ) (key : Str) : Option υ :=
  switchHashtableSearch stringKeys h key

def switchCoreHashDelete (h : SwitchHash υ) (key : Str) : SwitchHash υ :=
  (switchHashtableRemove stringKeys h key).1

/-- `while ((hi = switch_core_hash_first_iter(hash, hi)))`: the first entry is deleted, again and
again. The number of rounds is counted as well. -/
def drain : Nat → SwitchHash υ → SwitchHash υ × Nat
  | 0, h => (h, 0)
  | fuel + 1, h =>
    match switchHashtableFirstIter h with
    | none => (h, 0)
    | some hi =>
      match hi.e with
      | [] => (h, 0)
      | e :: _ =>
        let (h, r) := drain fuel (switchCoreHashDelete h e.k)
        (h, r + 1)

/-! ## Maps -/

/-- The table holds the map. -/
def Maps (h : SwitchHash υ) (m : Str → Option υ) : Prop := Holds stringKeys h m

variable {h : SwitchHash υ} {m : Str → Option υ}

theorem assign_stringKeys (m : Str → Option υ) (k : Str) (v : Option υ) :
    assign stringKeys m k v = Function.update m k v := by
  funext l
  show (if (k == l) = true then v else m l) = _
  rw [Function.update_apply]
  exact if_congr (beq_iff_eq.trans eq_comm) rfl rfl

theorem maps_init : Maps (switchCoreHashInit : SwitchHash υ) fun _ => none :=
  holds_create (rfl : switchCreateHashtable 16 = some switchCoreHashInit)

theorem Maps.find (hm : Maps h m) (k : Str) : switchCoreHashFind h k = m k := by
  apply Option.ext
  intro v
  exact (hm.wf.search_eq_some_iff k v).trans (hm.value k v).symm

theorem Maps.insert (hm : Maps h m) (k : Str) (v : υ) :
    Maps (switchCoreHashInsert h k v) (Function.update m k (some v)) := by
  rw [← assign_stringKeys]
  exact Holds.insert hm k v rfl false

theorem Maps.delete (hm : Maps h m) (k : Str) :
    Maps (switchCoreHashDelete h k) (Function.update m k none) := by
  rw [← assign_stringKeys]
  exact Holds.remove hm k

/-! ## Deleting everything -/

theorem firstIter_eq_none (h : SwitchHash υ) : switchHashtableFirstIter h = none ↔ contents h = [] := by
  rw [← toVisit_firstIter]
  cases hfirst : switchHashtableFirstIter h with
  | none => exact ⟨fun _ => rfl, fun _ => rfl⟩
  | some hi => exact ⟨fun h => (nomatch h),
      fun h => absurd (List.append_eq_nil_iff.mp h).1 (next_ne hfirst)⟩

theorem Maps.of_contents_eq_nil (hm : Maps h m) (hc : contents h = []) : Maps h fun _ => none := by
  refine ⟨hm.wf, hm.counted, fun k v => ⟨fun h => (nomatch h), fun ⟨e, he, _⟩ => ?_⟩⟩
  rw [hc] at he
  exact nomatch he

theorem length_contents_delete (hm : Maps h m) {e : Entry Str υ} (he : e ∈ contents h) :
    (contents (switchCoreHashDelete h e.k)).length < (contents h).length := by
  have hcontents := (removeAt_spec hm.wf e.k).2.1
  show (contents (removeAt stringKeys h e.k _ _).1).length < _
  rw [hcontents]
  refine List.length_filter_lt_length_iff_exists.mpr ⟨e, he, ?_⟩
  rw [stringKeys.refl]
  decide

/-- As many rounds as there are entries are enough: the loop then ends by itself. -/
theorem Maps.drain {fuel : Nat} (hm : Maps h m) (hfuel : (contents h).length ≤ fuel) :
    Maps (drain fuel h).1 (fun _ => none) ∧
    switchHashtableFirstIter (HashTable.drain fuel h).1 = none := by
  induction fuel generalizing h m with
  | zero =>
    have hc : contents h = [] := List.length_eq_zero_iff.mp (Nat.le_zero.mp hfuel)
    exact ⟨hm.of_contents_eq_nil hc, (firstIter_eq_none h).mpr hc⟩
  | succ fuel ih =>
    rw [HashTable.drain]
    split
    · rename_i hfirst
      exact ⟨hm.of_contents_eq_nil ((firstIter_eq_none h).mp hfirst), hfirst⟩
    · rename_i hi hfirst
      split
      · rename_i hchain
        exact absurd hchain (next_ne hfirst)
      · rename_i e rest hchain
        have he : e ∈ contents h := by
          rw [← toVisit_firstIter, hfirst]
          exact List.mem_append_left _ (hchain ▸ List.mem_cons_self)
        have hlt := length_contents_delete hm he
        exact ih (hm.delete e.k) (by omega)

/-! ## Tables by what is found in them -/

/-- The table holds a map, which is then what is found. -/
def Intact (h : SwitchHash υ) : Prop := Maps h (switchCoreHashFind h)

theorem Maps.intact (hm : Maps h m) : Intact h := by
  rw [Intact, show switchCoreHashFind h = m from funext hm.find]
  exact hm

theorem intact_init : Intact (switchCoreHashInit : SwitchHash υ) := maps_init.intact

theorem find_init (k : Str) : switchCoreHashFind (switchCoreHashInit : SwitchHash υ) k = none :=
  maps_init.find k

namespace Intact

theorem insert (hi : Intact h) (k : Str) (v : υ) : Intact (switchCoreHashInsert h k v) :=
  (Maps.insert hi k v).intact

theorem delete (hi : Intact h) (k : Str) :
    Intact (switchCoreHashDelete h k) := (Maps.delete hi k).intact

theorem find_insert (hi : Intact h) (k : Str) (v : υ) :
    switchCoreHashFind (switchCoreHashInsert h k v) =
      Function.update (switchCoreHashFind h) k (some v) :=
  funext (Maps.insert hi k v).find

theorem find_delete (hi : Intact h) (k : Str) :
    switchCoreHashFind (switchCoreHashDelete h k) = Function.update (switchCoreHashFind h) k none :=
  funext (Maps.delete hi k).find

theorem drain (hi : Intact h) :
    Intact (drain (contents h).length h).1 := (Maps.drain hi le_rfl).1.intact

theorem find_drain (hi : Intact h) (k : Str) :
    switchCoreHashFind (HashTable.drain (contents h).length h).1 k = none :=
  (Maps.drain hi le_rfl).1.find k

end Intact

end FreeSwitch.HashTable
