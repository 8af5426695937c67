import FreeSwitch.Lib.Run
import FreeSwitch.Port.Allocator

/-!
# Port allocator — what runs of requests and frees hand out

A slot's port is computed by halving `start`, a port's slot by halving the distance to
`start`. Whether the two agree, and whether the ports of the table stay inside the range,
is a matter of the flags and of the range alone (`Exact`); the rest holds for every table.

* **`walk_spec`** / **`walk_full`** — the walk up the table keeps what is used, and one that
  finds nothing has passed every slot.
* **`requestLoop_cases`** / **`requestLoop_returns`** — a request takes one unused slot, and it
  returns.
* **`exact_new_iff`** — for which flags and ranges the table is exact.
* **`port_allocator_sound_iff`** — over whole runs.
-/

namespace FreeSwitch.Port

open Runs

/-! ## The walk -/

theorem bump_pos_iff (v : Int) : 0 < bump v ↔ 0 < v := by
  unfold bump
  split <;> omega

theorem le_bump {v : Int} (h : -4 ≤ v) : -4 ≤ bump v := by
  unfold bump
  split <;> omega

/-- The table `t'` has the same slots in use as `t`, and counts no lower than -4. -/
structure SameUse (t t' : Nat → Int) : Prop where
  used : ∀ i, 0 < t' i ↔ 0 < t i
  low : (∀ i, -4 ≤ t i) → ∀ i, -4 ≤ t' i

theorem SameUse.refl (t : Nat → Int) : SameUse t t := ⟨fun _ => Iff.rfl, fun h => h⟩

theorem SameUse.trans {t t' t'' : Nat → Int} (h : SameUse t t') (h' : SameUse t' t'') : SameUse t t'' :=
  ⟨fun i => (h'.used i).trans (h.used i), fun hlow => h'.low (h.low hlow)⟩

theorem sameUse_update_bump (t : Nat → Int) (index : Nat) :
    SameUse t (Function.update t index (bump (t index))) := by
  constructor
  · intro i
    by_cases hi : i = index
    · subst hi
      rw [Function.update_self]
      exact bump_pos_iff _
    · rw [Function.update_of_ne hi]
  · intro hlow i
    by_cases hi : i = index
    · subst hi
      rw [Function.update_self]
      exact le_bump (hlow i)
    · rw [Function.update_of_ne hi]
      exact hlow i

variable {trackLen : Nat}

theorem next_index_lt {index : Nat} (h : index < trackLen) :
    (if index + 1 ≥ trackLen then 0 else index + 1) < trackLen := by
  split <;> omega

structure WalkSpec (trackLen : Nat) (t : Nat → Int) (w : Walk) : Prop where
  sameUse : SameUse t w.track
  index_lt : w.index < trackLen
  free : 0 < w.left → w.track w.index = 0

theorem walk_spec : ∀ (left : Nat) {index : Nat} (t : Nat → Int), index < trackLen →
      WalkSpec trackLen t (walk trackLen left index t) := by
  intro left
  induction left with
  | zero => intro index t hindex; exact ⟨SameUse.refl t, hindex, fun h => absurd h (by simp [walk])⟩
  | succ left ih =>
    intro index t hindex
    unfold walk
    split
    case isTrue h0 => exact ⟨SameUse.refl t, hindex, fun _ => h0⟩
    case isFalse =>
      have hrest := ih (Function.update t index (bump (t index))) (next_index_lt hindex)
      exact ⟨(sameUse_update_bump t index).trans hrest.sameUse, hrest.index_lt, hrest.free⟩

theorem next_index_eq {index : Nat} (h : index < trackLen) :
    (if index + 1 ≥ trackLen then 0 else index + 1) = (index + 1) % trackLen := by
  split
  case isTrue hge => rw [show index + 1 = trackLen by omega, Nat.mod_self]
  case isFalse hlt => rw [Nat.mod_eq_of_lt (by omega)]

/-- A walk does not touch a slot it does not come to. -/
theorem walk_other {j : Nat} : ∀ (left : Nat) {index : Nat} (t : Nat → Int), index < trackLen →
      (∀ d, d < left → (index + d) % trackLen ≠ j) → (walk trackLen left index t).track j = t j := by
  intro left
  induction left with
  | zero => intro index t _ _; rfl
  | succ left ih =>
    intro index t hindex hne
    unfold walk
    split
    case isTrue => rfl
    case isFalse =>
      have hj : j ≠ index := fun h => hne 0 (by omega) (by rw [h]; exact Nat.mod_eq_of_lt hindex)
      rw [ih _ (next_index_lt hindex), Function.update_of_ne hj]
      intro d hd
      rw [next_index_eq hindex, Nat.mod_add_mod, Nat.add_right_comm, Nat.add_assoc]
      exact hne (d + 1) (by omega)

/-- A walk that used up its tries found every slot it came to taken, and counted it up. -/
theorem walk_passed : ∀ (left : Nat) {index : Nat} (t : Nat → Int), index < trackLen → left ≤ trackLen →
      (walk trackLen left index t).left = 0 → ∀ d, d < left → t ((index + d) % trackLen) ≠ 0
          ∧ (walk trackLen left index t).track ((index + d) % trackLen)
            = bump (t ((index + d) % trackLen)) := by
  intro left
  induction left with
  | zero => intro index t _ _ _ d hd; omega
  | succ left ih =>
    intro index t hindex hle hleft d hd
    unfold walk at hleft ⊢
    split at hleft
    case isTrue => exact absurd hleft (by simp)
    case isFalse h0 =>
      rw [if_neg h0]
      have hnext := next_index_eq hindex
      -- the slots still to come are other ones than `index`
      have hfar : ∀ e, e < left →
          ((if index + 1 ≥ trackLen then 0 else index + 1) + e) % trackLen ≠ index := by
        intro e he
        rw [hnext, Nat.mod_add_mod]
        rcases Nat.lt_or_ge (index + 1 + e) trackLen with hlt | hge
        · rw [Nat.mod_eq_of_lt hlt]; omega
        · rw [Nat.mod_eq_sub_mod hge, Nat.mod_eq_of_lt (by omega)]; omega
      cases d with
      | zero =>
        rw [Nat.add_zero, Nat.mod_eq_of_lt hindex]
        refine ⟨h0, ?_⟩
        rw [walk_other left _ (next_index_lt hindex) hfar, Function.update_self]
      | succ d =>
        have hstep := ih _ (next_index_lt hindex) (by omega) hleft d (by omega)
        have hsame : ((if index + 1 ≥ trackLen then 0 else index + 1) + d) % trackLen
            = (index + (d + 1)) % trackLen := by
          rw [hnext, Nat.mod_add_mod, Nat.add_right_comm, Nat.add_assoc]
        have hne := hfar d (by omega)
        rw [Function.update_of_ne hne] at hstep
        rwa [hsame] at hstep

/-- A walk over the whole table that finds nothing has counted up every slot. -/
theorem walk_full {index : Nat} {t : Nat → Int} (hindex : index < trackLen)
    (hleft : (walk trackLen trackLen index t).left = 0) {j : Nat} (hj : j < trackLen) :
    t j ≠ 0 ∧ (walk trackLen trackLen index t).track j = bump (t j) := by
  have hpassed := walk_passed trackLen t hindex le_rfl hleft
    ((j + trackLen - index) % trackLen) (Nat.mod_lt _ (by omega))
  rwa [Nat.add_mod_mod, show index + (j + trackLen - index) = j + trackLen by omega,
    Nat.add_mod_right, Nat.mod_eq_of_lt hj] at hpassed

/-! ## Requests -/

/-- Everything but the table and its count. -/
structure SameConfig (a a' : PortAllocator) : Prop where
  start : a'.start = a.start
  end_ : a'.end_ = a.end_
  trackLen : a'.trackLen = a.trackLen
  flags : a'.flags = a.flags

theorem SameConfig.refl (a : PortAllocator) : SameConfig a a := ⟨rfl, rfl, rfl, rfl⟩

variable {a a' : PortAllocator}

theorem SameConfig.trans {a'' : PortAllocator} (h : SameConfig a a') (h' : SameConfig a' a'') :
    SameConfig a a'' :=
  ⟨h'.start.trans h.start, h'.end_.trans h.end_, h'.trackLen.trans h.trackLen,
    h'.flags.trans h.flags⟩

def RobustOff (a : PortAllocator) : Prop := a.flags.robustTcp = false ∧ a.flags.robustUdp = false

theorem robust_of_robustOff (h : RobustOff a) (draws : Draws) (k : Nat) :
    robust a draws k = true := by
  simp [robust, h.1, h.2]

/-- The slot `i` goes into use, and nothing else does. -/
structure Taken (a : PortAllocator) (i : Nat) (a' : PortAllocator) : Prop where
  config : SameConfig a a'
  index_lt : i < a.trackLen
  unused : ¬ 0 < a.track i
  used : ∀ j, 0 < a'.track j ↔ j = i ∨ 0 < a.track j
  low : (∀ j, -4 ≤ a.track j) → ∀ j, -4 ≤ a'.track j
  trackUsed : a'.trackUsed = a.trackUsed + 1

/-- Putting 1 into the slot a walk stopped at. -/
theorem taken_of_walk {w : Walk} (hw : WalkSpec a.trackLen a.track w) (hleft : 0 < w.left) :
    Taken a w.index
      { a with track := Function.update w.track w.index 1, trackUsed := a.trackUsed + 1 } where
  config := ⟨rfl, rfl, rfl, rfl⟩
  index_lt := hw.index_lt
  unused := by
    rw [← hw.sameUse.used, hw.free hleft]
    omega
  used j := by
    by_cases hj : j = w.index
    · subst hj
      simp
    · simp [hj, hw.sameUse.used]
  low hlow j := by
    by_cases hj : j = w.index
    · subst hj
      simp
    · simpa [Function.update_of_ne hj] using hw.sameUse.low hlow j
  trackUsed := rfl

theorem Taken.of_sameUse {t : Nat → Int} {i : Nat}
    (h : Taken { a with track := t } i a') (ht : SameUse a.track t) : Taken a i a' where
  config := ⟨h.config.start, h.config.end_, h.config.trackLen, h.config.flags⟩
  index_lt := h.index_lt
  unused := fun hused => h.unused ((ht.used i).mpr hused)
  used j := (h.used j).trans (or_congr_right (ht.used j))
  low hlow := h.low (ht.low hlow)
  trackUsed := h.trackUsed

theorem requestLoop_of_room (draws : Draws) {fuel k : Nat}
    (hoff : RobustOff a) (hroom : a.trackUsed < a.trackLen) : requestLoop draws (fuel + 1) k a =
      let w := walk a.trackLen a.trackLen (draws.rand k % a.trackLen) a.track
      if 0 < w.left then
        some ((.success, portOf a w.index),
          { a with track := Function.update w.track w.index 1, trackUsed := a.trackUsed + 1 })
      else requestLoop draws fuel (k + 1) { a with track := w.track } := by
  simp only [requestLoop, if_pos hroom, robust_of_robustOff hoff, if_true]

/-- A slot that fails its check is left with -4, and is not in use. -/
theorem WalkSpec.sameUse_failed {t : Nat → Int} {w : Walk} (hw : WalkSpec trackLen t w)
    (hleft : 0 < w.left) : SameUse t (Function.update w.track w.index (-4)) where
  used i := by
    rw [← hw.sameUse.used]
    by_cases hi : i = w.index
    · subst hi
      rw [Function.update_self, hw.free hleft]
      decide
    · rw [Function.update_of_ne hi]
  low hlow i := by
    by_cases hi : i = w.index
    · subst hi
      rw [Function.update_self]
    · rw [Function.update_of_ne hi]
      exact hw.sameUse.low hlow i

/-- A request either finds the table full, or hands out the port of a slot not in use. -/
theorem requestLoop_cases (draws : Draws) :
    ∀ (fuel k : Nat) {a a' : PortAllocator} {st : Status} {port : UInt16},
      requestLoop draws fuel k a = some ((st, port), a') →
      (st = .failure ∧ a.trackLen ≤ a.trackUsed ∧ a' = a)
          ∨ (st = .success ∧ ∃ i, port = portOf a i ∧ Taken a i a') := by
  intro fuel
  induction fuel with
  | zero => intro k a a' st port h; cases h
  | succ fuel ih =>
    intro k a a' st port h
    rcases Nat.lt_or_ge a.trackUsed a.trackLen with hroom | hfull
    case inr =>
      rw [requestLoop, if_neg (Nat.not_lt.mpr hfull)] at h
      cases h
      exact .inl ⟨rfl, hfull, rfl⟩
    case inl =>
      have hw := walk_spec a.trackLen a.track
        (Nat.mod_lt (draws.rand k) (Nat.lt_of_le_of_lt (Nat.zero_le _) hroom))
      -- a pass that hands nothing out leaves the same slots in use
      have hagain : ∀ {t : Nat → Int}, SameUse a.track t →
          requestLoop draws fuel (k + 1) { a with track := t } = some ((st, port), a') →
            (st = .failure ∧ a.trackLen ≤ a.trackUsed ∧ a' = a)
              ∨ (st = .success ∧ ∃ i, port = portOf a i ∧ Taken a i a') := by
        intro t ht hrest
        rcases ih (k + 1) hrest with ⟨_, hfull, _⟩ | ⟨hst, i, hport, htaken⟩
        · exact absurd hroom (Nat.not_lt.mpr hfull)
        · exact .inr ⟨hst, i, hport, htaken.of_sameUse ht⟩
      rw [requestLoop, if_pos hroom] at h
      dsimp only at h
      split at h
      case isTrue hleft =>
        split at h
        case isTrue =>
          cases h
          exact .inr ⟨rfl, _, rfl, taken_of_walk hw hleft⟩
        case isFalse => exact hagain (hw.sameUse_failed hleft) h
      case isFalse => exact hagain hw.sameUse h

/-- While a slot is not in use, at most five passes find one: a freed slot counts up from -4. -/
theorem requestLoop_returns (draws : Draws) (passes k : Nat) {j : Nat} (hoff : RobustOff a)
    (hroom : a.trackUsed < a.trackLen) (hj : j < a.trackLen) (hlow : -(passes : Int) < a.track j)
    (hunused : a.track j ≤ 0) : ∃ result, requestLoop draws passes k a = some result := by
  induction passes generalizing k a with
  | zero => omega
  | succ passes ih =>
    have hindex := Nat.mod_lt (draws.rand k) (show 0 < a.trackLen by omega)
    rw [requestLoop_of_room draws hoff hroom]
    dsimp only
    split
    case isTrue => exact ⟨_, rfl⟩
    case isFalse hleft =>
      obtain ⟨hne, hbump⟩ := walk_full hindex (Nat.eq_zero_of_not_pos hleft) hj
      rw [bump, if_pos (by omega)] at hbump
      exact ih (k + 1) hoff hroom hj (by simp only [hbump]; omega) (by simp only [hbump]; omega)

/-! ## Tables whose ports and slots agree -/

/-- The requested parity, when exactly one of the flags is set. -/
def HasParity (flags : PortFlags) (port : UInt16) : Prop :=
  (flags.even = true → flags.odd = false → port % 2 = 0)
    ∧ (flags.odd = true → flags.even = false → port % 2 = 1)

structure InRange (a : PortAllocator) (port : UInt16) : Prop where
  lo : a.start ≤ port
  hi : port ≤ a.end_
  parity : HasParity a.flags port

/-- The port of every slot lies in the range, and is freed through that slot. -/
def Exact (a : PortAllocator) : Prop :=
  ∀ i, i < a.trackLen → InRange a (portOf a i) ∧ slotOf a (portOf a i) = some i

theorem SameConfig.portOf_eq (h : SameConfig a a') (i : Nat) : portOf a' i = portOf a i := by
  rw [portOf, portOf, h.flags, h.start]

theorem SameConfig.slotOf_eq (h : SameConfig a a') (port : UInt16) :
    slotOf a' port = slotOf a port := by
  rw [slotOf, slotOf, h.flags, h.start]

theorem Exact.of_sameConfig (hexact : Exact a) (h : SameConfig a a') : Exact a' := by
  intro i hi
  obtain ⟨hin, hslot⟩ := hexact i (h.trackLen ▸ hi)
  rw [h.portOf_eq, h.slotOf_eq]
  exact ⟨⟨h.start ▸ hin.lo, h.end_ ▸ hin.hi, h.flags ▸ hin.parity⟩, hslot⟩

/-! ## Runs -/

/-- The allocator, and the ports handed out and not yet freed. -/
structure State where
  alloc : PortAllocator
  owned : List UInt16

inductive Call where
  | request (draws : Draws)
  | free (port : UInt16)

/-- Only ports that are currently allocated are freed. -/
inductive Step : State → Call → State → Prop where
  | granted {s : State} {draws : Draws} {fuel : Nat} {port : UInt16} {alloc : PortAllocator}
      (h : switchCorePortAllocatorRequestPort draws fuel s.alloc
        = some ((.success, port), alloc)) :
      Step s (.request draws) ⟨alloc, port :: s.owned⟩
  | refused {s : State} {draws : Draws} {fuel : Nat} {st : Status} {port : UInt16}
      {alloc : PortAllocator} (hst : st ≠ .success)
      (h : switchCorePortAllocatorRequestPort draws fuel s.alloc = some ((st, port), alloc)) :
      Step s (.request draws) ⟨alloc, s.owned⟩
  | freed {s : State} {port : UInt16} {st : Status} {alloc : PortAllocator}
      (hport : port ∈ s.owned)
      (h : switchCorePortAllocatorFreePort s.alloc port = some (st, alloc)) :
      Step s (.free port) ⟨alloc, s.owned.erase port⟩

/-- What a state has to show: the ports handed out are in range and no two of them are the
same, each can be freed, the count is right, and the next request will return. -/
structure Sound (s : State) : Prop where
  inRange : ∀ port ∈ s.owned, InRange s.alloc port
  nodup : s.owned.Nodup
  canFree : ∀ port ∈ s.owned, ∃ alloc,
    switchCorePortAllocatorFreePort s.alloc port = some (.success, alloc)
  trackUsed : s.alloc.trackUsed = s.owned.length
  returns : ∀ draws, ∃ fuel result,
    switchCorePortAllocatorRequestPort draws fuel s.alloc = some result

/-- The slots in use are those of the ports handed out. -/
structure Inv (s : State) : Prop where
  exact : Exact s.alloc
  off : RobustOff s.alloc
  inTable : ∀ i, 0 < s.alloc.track i → i < s.alloc.trackLen
  owned : ∀ port, port ∈ s.owned ↔ ∃ i, 0 < s.alloc.track i ∧ portOf s.alloc i = port
  nodup : s.owned.Nodup
  trackUsed : s.alloc.trackUsed = s.owned.length
  low : ∀ i, -4 ≤ s.alloc.track i

variable {s : State}

theorem Inv.portOf_inj (h : Inv s) {i j : Nat} (hi : i < s.alloc.trackLen)
    (hj : j < s.alloc.trackLen) (heq : portOf s.alloc i = portOf s.alloc j) : i = j := by
  have hslot := (h.exact i hi).2
  rw [heq, (h.exact j hj).2] at hslot
  exact (Option.some.inj hslot).symm

/-- While fewer ports are handed out than the table has slots, some slot is not in use. -/
theorem Inv.exists_unused (h : Inv s) (hroom : s.alloc.trackUsed < s.alloc.trackLen) :
    ∃ j, j < s.alloc.trackLen ∧ s.alloc.track j ≤ 0 := by
  by_contra hall
  have hused : ∀ j, j < s.alloc.trackLen → 0 < s.alloc.track j := fun j hj =>
    not_le.mp fun hle => hall ⟨j, hj, hle⟩
  have hnodup : ((List.range s.alloc.trackLen).map (portOf s.alloc)).Nodup := by
    refine List.Nodup.map_on (fun i hi j hj heq => ?_) List.nodup_range
    exact h.portOf_inj (List.mem_range.mp hi) (List.mem_range.mp hj) heq
  have hsub : (List.range s.alloc.trackLen).map (portOf s.alloc) ⊆ s.owned := by
    intro port hport
    obtain ⟨i, hi, rfl⟩ := List.mem_map.mp hport
    exact (h.owned _).mpr ⟨i, hused i (List.mem_range.mp hi), rfl⟩
  have hle := (hnodup.subperm hsub).length_le
  rw [List.length_map, List.length_range, ← h.trackUsed] at hle
  omega

theorem Inv.returns (h : Inv s) (draws : Draws) :
    ∃ fuel result, switchCorePortAllocatorRequestPort draws fuel s.alloc = some result := by
  rcases Nat.lt_or_ge s.alloc.trackUsed s.alloc.trackLen with hroom | hfull
  · obtain ⟨j, hj, hle⟩ := h.exists_unused hroom
    exact ⟨5, requestLoop_returns draws 5 0 h.off hroom hj (by have := h.low j; omega) hle⟩
  · refine ⟨1, ((.failure, 0), s.alloc), ?_⟩
    rw [switchCorePortAllocatorRequestPort, requestLoop, if_neg (Nat.not_lt.mpr hfull)]

/-- A port that is handed out is freed through its slot. -/
theorem Inv.free_eq (h : Inv s) {i : Nat} (hused : 0 < s.alloc.track i) :
    switchCorePortAllocatorFreePort s.alloc (portOf s.alloc i) =
      some (.success, { s.alloc with
        track := Function.update s.alloc.track i (-4)
        trackUsed := s.alloc.trackUsed - 1 }) := by
  have hi := h.inTable i hused
  simp only [switchCorePortAllocatorFreePort, (h.exact i hi).2]
  rw [if_neg (by omega), if_pos hused]

theorem Inv.sound (h : Inv s) : Sound s where
  inRange port hport := by
    obtain ⟨i, hused, rfl⟩ := (h.owned port).mp hport
    exact (h.exact i (h.inTable i hused)).1
  nodup := h.nodup
  canFree port hport := by
    obtain ⟨i, hused, rfl⟩ := (h.owned port).mp hport
    exact ⟨_, h.free_eq hused⟩
  trackUsed := h.trackUsed
  returns := h.returns

theorem Inv.granted {i : Nat} {alloc : PortAllocator} (h : Inv s)
    (htaken : Taken s.alloc i alloc) : Inv ⟨alloc, portOf s.alloc i :: s.owned⟩ where
  exact := h.exact.of_sameConfig htaken.config
  off := by
    unfold RobustOff
    rw [htaken.config.flags]
    exact h.off
  inTable j hj := by
    show j < alloc.trackLen
    rw [htaken.config.trackLen]
    rcases (htaken.used j).mp hj with rfl | hused
    · exact htaken.index_lt
    · exact h.inTable j hused
  owned port := by
    simp only [List.mem_cons, htaken.used, htaken.config.portOf_eq, h.owned port]
    constructor
    · rintro (rfl | ⟨j, hj, rfl⟩)
      · exact ⟨i, .inl rfl, rfl⟩
      · exact ⟨j, .inr hj, rfl⟩
    · rintro ⟨j, rfl | hj, rfl⟩
      · exact .inl rfl
      · exact .inr ⟨j, hj, rfl⟩
  nodup := by
    refine List.nodup_cons.mpr ⟨fun hmem => ?_, h.nodup⟩
    obtain ⟨j, hused, heq⟩ := (h.owned _).mp hmem
    -- the port of an unused slot is nobody's
    have hji := h.portOf_inj (h.inTable j hused) htaken.index_lt heq
    exact htaken.unused (hji ▸ hused)
  trackUsed := by
    rw [htaken.trackUsed, h.trackUsed]
    rfl
  low := htaken.low h.low

theorem Inv.freed {i : Nat} (h : Inv s) (hused : 0 < s.alloc.track i) :
    Inv ⟨{ s.alloc with
        track := Function.update s.alloc.track i (-4)
        trackUsed := s.alloc.trackUsed - 1 }, s.owned.erase (portOf s.alloc i)⟩ where
  exact := h.exact.of_sameConfig ⟨rfl, rfl, rfl, rfl⟩
  off := h.off
  inTable j hj := by
    by_cases hji : j = i
    · subst hji
      exact h.inTable j hused
    · exact h.inTable j (by simpa [Function.update_of_ne hji] using hj)
  owned port := by
    rw [h.nodup.mem_erase_iff, h.owned port]
    constructor
    · rintro ⟨hne, j, hj, rfl⟩
      have hji : j ≠ i := fun heq => hne (heq ▸ rfl)
      exact ⟨j, by simpa [Function.update_of_ne hji] using hj, rfl⟩
    · rintro ⟨j, hj, rfl⟩
      by_cases hji : j = i
      · subst hji
        simp at hj
      · have hj' : 0 < s.alloc.track j := by simpa [Function.update_of_ne hji] using hj
        refine ⟨fun heq => hji ?_, j, hj', rfl⟩
        exact h.portOf_inj (h.inTable j hj') (h.inTable i hused) heq
  nodup := h.nodup.erase _
  trackUsed := by
    have hmem := (h.owned _).mpr ⟨i, hused, rfl⟩
    rw [List.length_erase_of_mem hmem, ← h.trackUsed]
  low j := by
    by_cases hji : j = i
    · subst hji
      simp
    · simpa [Function.update_of_ne hji] using h.low j

theorem step_preserves_inv {s' : State} {call : Call} (h : Inv s)
    (hstep : Step s call s') : Inv s' := by
  cases hstep with
  | granted hreq =>
    rcases requestLoop_cases _ _ 0 hreq with ⟨hst, _⟩ | ⟨_, i, rfl, htaken⟩
    · cases hst
    · exact h.granted htaken
  | refused hst hreq =>
    rcases requestLoop_cases _ _ 0 hreq with ⟨_, _, rfl⟩ | ⟨hsuccess, _⟩
    · exact h
    · exact absurd hsuccess hst
  | freed hport hfree =>
    obtain ⟨i, hused, rfl⟩ := (h.owned _).mp hport
    rw [h.free_eq hused] at hfree
    cases hfree
    exact h.freed hused

/-! ## Sound runs need an exact table -/

theorem inv_new (hexact : Exact a) (hoff : RobustOff a)
    (htrack : a.track = fun _ => 0) (hused : a.trackUsed = 0) : Inv ⟨a, []⟩ where
  exact := hexact
  off := hoff
  inTable i hi := by simp [htrack] at hi
  owned port := by simp [htrack]
  nodup := List.nodup_nil
  trackUsed := hused
  low i := by simp [htrack]

/-- The first request can hand out the port of any slot. -/
theorem first_request (htrack : a.track = fun _ => 0) (hused : a.trackUsed = 0)
    {i : Nat} (hi : i < a.trackLen) :
    switchCorePortAllocatorRequestPort ⟨fun _ => i, fun _ => true, fun _ => true⟩ 1 a =
      some ((.success, portOf a i),
        { a with track := Function.update a.track i 1, trackUsed := 1 }) := by
  have hwalk : walk a.trackLen a.trackLen i a.track = ⟨i, a.trackLen, a.track⟩ := by
    obtain ⟨n, hn⟩ := Nat.exists_eq_succ_of_ne_zero (show a.trackLen ≠ 0 by omega)
    rw [hn, walk, htrack, if_pos rfl]
  have hrobust : robust a ⟨fun _ => i, fun _ => true, fun _ => true⟩ 0 = true := by
    unfold robust
    cases a.flags.robustTcp <;> cases a.flags.robustUdp <;> rfl
  rw [switchCorePortAllocatorRequestPort, requestLoop, if_pos (show a.trackUsed < a.trackLen by omega)]
  simp only [Nat.mod_eq_of_lt hi, hwalk]
  rw [if_pos (show 0 < a.trackLen by omega), hrobust, if_pos rfl, hused]

theorem sound_runs_iff_exact (hoff : RobustOff a)
    (htrack : a.track = fun _ => 0) (hused : a.trackUsed = 0) :
    (∀ calls s, Run Step ⟨a, []⟩ calls s → Sound s) ↔ Exact a := by
  constructor
  · intro h i hi
    have hrun := h [.request _] _ (.cons (.granted (first_request htrack hused hi)) (.nil _))
    refine ⟨?_, ?_⟩
    · obtain ⟨hlo, hhi, hparity⟩ := hrun.inRange (portOf a i) (by simp)
      exact ⟨hlo, hhi, hparity⟩
    · obtain ⟨alloc, hfree⟩ := hrun.canFree (portOf a i) (by simp)
      -- only slot `i` is in use, so a free that succeeds has looked there
      unfold switchCorePortAllocatorFreePort at hfree
      split at hfree
      case h_1 => cases hfree
      case h_2 j hslot =>
        split at hfree
        case isTrue => cases hfree
        case isFalse =>
          split at hfree
          case isFalse => cases hfree
          case isTrue hpos =>
            have hji : j = i := by
              by_contra hne
              simp [Function.update_of_ne hne, htrack] at hpos
            rw [← hji]
            exact hji ▸ hslot
  · intro hexact calls s hrun
    have hinv : Inv s := hrun.invariant (I := Inv) (fun _ _ _ h hs => step_preserves_inv h hs)
      (inv_new hexact hoff htrack hused)
    exact hinv.sound

/-! ## Which tables are exact -/

/-- The flags and ranges whose table is exact: even ports only; no flag and an even start; or
odd ports only from a range that holds no odd port. -/
def Good (start end_ : UInt16) (even odd : Bool) : Prop :=
  (even = true ∧ odd = false)
    ∨ (even = false ∧ odd = false ∧ start.toNat % 2 = 0)
    ∨ (even = false ∧ odd = true ∧ start = end_ ∧ start.toNat % 2 = 0 ∧ start ≠ 0)

theorem toNat_portOf (a : PortAllocator) (i : Nat) : (portOf a i).toNat =
      if a.flags.even && a.flags.odd then (i + a.start.toNat) % 65536
      else (i + a.start.toNat / 2) % 65536 * 2 % 65536 := by
  unfold portOf
  split
  · exact UInt16.toNat_ofNat'
  · rw [UInt16.toNat_mul, UInt16.toNat_ofNat']
    rfl

theorem slotOf_eq_some_iff {port : UInt16} {i : Nat} :
    slotOf a port = some i ↔ a.start.toNat ≤ port.toNat
    ∧ (if a.flags.even && a.flags.odd then port.toNat - a.start.toNat
          else (port.toNat - a.start.toNat) / 2) = i := by
  unfold slotOf
  split
  case isTrue hlt =>
    rw [UInt16.lt_iff_toNat_lt] at hlt
    constructor
    · intro h; cases h
    · intro h; omega
  case isFalse hge =>
    rw [UInt16.lt_iff_toNat_lt] at hge
    simp only [Option.some.injEq]
    constructor
    · intro h; exact ⟨by omega, h⟩
    · intro h; exact h.2

/-- `Exact`, with everything read as a number. -/
theorem exact_iff_slots : Exact a ↔ ∀ i, i < a.trackLen →
      a.start.toNat ≤ (portOf a i).toNat ∧ (portOf a i).toNat ≤ a.end_.toNat
        ∧ (a.flags.even = true → a.flags.odd = false → (portOf a i).toNat % 2 = 0)
        ∧ (a.flags.odd = true → a.flags.even = false → (portOf a i).toNat % 2 = 1)
        ∧ (if a.flags.even && a.flags.odd then (portOf a i).toNat - a.start.toNat
            else ((portOf a i).toNat - a.start.toNat) / 2) = i := by
  have hmod : ∀ (x y : UInt16), x % 2 = y ↔ x.toNat % 2 = y.toNat := fun x y => by
    rw [← UInt16.toNat_inj, UInt16.toNat_mod]
    rfl
  refine forall_congr' fun i => forall_congr' fun _ => ?_
  rw [slotOf_eq_some_iff]
  constructor
  · rintro ⟨⟨hlo, hhi, heven, hodd⟩, -, hslot⟩
    rw [UInt16.le_iff_toNat_le] at hlo hhi
    exact ⟨hlo, hhi, fun h h' => (hmod _ 0).mp (heven h h'), fun h h' => (hmod _ 1).mp (hodd h h'),
      hslot⟩
  · rintro ⟨hlo, hhi, heven, hodd, hslot⟩
    refine ⟨⟨UInt16.le_iff_toNat_le.mpr hlo, UInt16.le_iff_toNat_le.mpr hhi, fun h h' => ?_,
      fun h h' => ?_⟩, hlo, hslot⟩
    · exact (hmod _ 0).mpr (heven h h')
    · exact (hmod _ 1).mpr (hodd h h')

/-- Halving is harmless from an even start. -/
theorem exact_of_even_start (hflags : (a.flags.even && a.flags.odd) = false)
    (hodd : a.flags.odd = false) (hstart : a.start.toNat % 2 = 0)
    (hlen : a.start.toNat + 2 * a.trackLen ≤ a.end_.toNat + 2) : Exact a := by
  rw [exact_iff_slots]
  intro i hi
  have hend := a.end_.toNat_lt
  have hport : (portOf a i).toNat = a.start.toNat + 2 * i := by
    rw [toNat_portOf, hflags, if_neg (by simp), Nat.mod_eq_of_lt (by omega),
      Nat.mod_eq_of_lt (by omega)]
    omega
  rw [hport, hflags, if_neg (by simp)]
  refine ⟨by omega, by omega, fun _ _ => by omega, fun h _ => ?_, by omega⟩
  rw [hodd] at h
  cases h

/-- Halving hands out even ports only. -/
theorem portOf_even (hflags : (a.flags.even && a.flags.odd) = false) (i : Nat) :
    (portOf a i).toNat % 2 = 0 := by
  rw [toNat_portOf, hflags, if_neg (by simp)]
  omega

theorem mod_two_eq_zero_iff (x : UInt16) : x % 2 = 0 ↔ x.toNat % 2 = 0 := by
  rw [← UInt16.toNat_inj, UInt16.toNat_mod]
  rfl

theorem toNat_add_one (x : UInt16) : (x + 1).toNat = (x.toNat + 1) % 65536 := UInt16.toNat_add x 1

theorem toNat_sub_one {x : UInt16} (h : x.toNat ≠ 0) : (x - 1).toNat = x.toNat - 1 :=
  UInt16.toNat_sub_of_le x 1 (UInt16.le_iff_toNat_le.mpr (Nat.one_le_iff_ne_zero.mpr h))

variable {start end_ : UInt16}

/-- `start` and `end` rounded to even ports; 65535 has no even port above it and wraps to 0. -/
theorem adjust_even : (adjustStart ⟨false, true, false, false⟩ start).toNat % 2 = 0
      ∧ (adjustStart ⟨false, true, false, false⟩ start).toNat ≤ start.toNat + start.toNat % 2
      ∧ (adjustEnd ⟨false, true, false, false⟩ end_).toNat = end_.toNat - end_.toNat % 2 := by
  simp only [adjustStart, adjustEnd, Bool.and_false, Bool.false_eq_true, if_false, if_true, ne_eq,
    mod_two_eq_zero_iff]
  refine ⟨?_, ?_, ?_⟩
  · split
    · rw [toNat_add_one]; omega
    · omega
  · split
    · rw [toNat_add_one]; omega
    · omega
  · split
    · rw [toNat_sub_one] <;> omega
    · omega

theorem adjust_odd :
    (adjustStart ⟨true, false, false, false⟩ start).toNat = start.toNat + (1 - start.toNat % 2)
    ∧ (end_.toNat ≠ 0 →
        (adjustEnd ⟨true, false, false, false⟩ end_).toNat = end_.toNat - (1 - end_.toNat % 2))
      ∧ adjustEnd ⟨true, false, false, false⟩ 0 = 65535 := by
  have hstart := start.toNat_lt
  simp only [adjustStart, adjustEnd, Bool.false_and, Bool.false_eq_true, if_false, if_true,
    mod_two_eq_zero_iff]
  refine ⟨?_, fun hne => ?_, rfl⟩
  · split
    · rw [toNat_add_one]; omega
    · omega
  · split
    · rw [toNat_sub_one] <;> omega
    · omega

theorem trackLen_new (start end_ : UInt16) (flags : PortFlags) :
    (switchCorePortAllocatorNew false start end_ flags).trackLen =
      let n := (((adjustEnd flags end_).toNat : Int) - (adjustStart flags start).toNat + 2) % 2 ^ 32
      if flags.even && flags.odd then n.toNat else n.toNat / 2 := rfl

/-- The table of even ports. A range without an even port leaves it empty. -/
theorem exact_new_even (h : start ≤ end_) :
    Exact (switchCorePortAllocatorNew false start end_ ⟨false, true, false, false⟩) := by
  have hle : start.toNat ≤ end_.toNat := UInt16.le_iff_toNat_le.mp h
  have hend := end_.toNat_lt
  obtain ⟨heven, hup, hdown⟩ := @adjust_even start end_
  refine exact_of_even_start rfl rfl heven ?_
  rw [trackLen_new]
  show (adjustStart _ start).toNat + _ ≤ (adjustEnd _ end_).toNat + 2
  simp only [Bool.and_false, if_neg Bool.false_ne_true]
  omega

theorem exact_new_plain_iff (h : start ≤ end_) :
    Exact (switchCorePortAllocatorNew false start end_ ⟨false, false, false, false⟩)
      ↔ start.toNat % 2 = 0 := by
  have hle : start.toNat ≤ end_.toNat := UInt16.le_iff_toNat_le.mp h
  have hend := end_.toNat_lt
  have hlen : (switchCorePortAllocatorNew false start end_ ⟨false, false, false, false⟩).trackLen
      = (end_.toNat - start.toNat + 2) / 2 := by
    show (((end_.toNat : Int) - start.toNat + 2) % 2 ^ 32).toNat / 2 = _
    omega
  constructor
  · intro hexact
    -- slot 0 gets the even port at or below `start`
    obtain ⟨hlo, -⟩ := exact_iff_slots.mp hexact 0 (by rw [hlen]; omega)
    rw [toNat_portOf] at hlo
    replace hlo : start.toNat ≤ (0 + start.toNat / 2) % 65536 * 2 % 65536 := hlo
    omega
  · intro heven
    refine exact_of_even_start rfl rfl heven ?_
    rw [hlen]
    show start.toNat + 2 * _ ≤ end_.toNat + 2
    omega

theorem not_exact_new_both (h : start ≤ end_) :
    ¬ Exact (switchCorePortAllocatorNew false start end_ ⟨true, true, false, false⟩) := by
  have hle : start.toNat ≤ end_.toNat := UInt16.le_iff_toNat_le.mp h
  have hend := end_.toNat_lt
  have hlen : (switchCorePortAllocatorNew false start end_ ⟨true, true, false, false⟩).trackLen
      = end_.toNat - start.toNat + 2 := by
    show (((end_.toNat : Int) - start.toNat + 2) % 2 ^ 32).toNat = _
    omega
  intro hexact
  -- the last slot is the one behind `end`
  obtain ⟨-, hhi, -, -, hslot⟩ := exact_iff_slots.mp hexact (end_.toNat - start.toNat + 1)
    (by rw [hlen]; omega)
  rw [toNat_portOf] at hhi hslot
  replace hhi : (end_.toNat - start.toNat + 1 + start.toNat) % 65536 ≤ end_.toNat := hhi
  replace hslot : (end_.toNat - start.toNat + 1 + start.toNat) % 65536 - start.toNat
    = end_.toNat - start.toNat + 1 := hslot
  omega

/-- The table of odd ports hands out even ones, so only an empty table is exact. -/
theorem exact_new_odd_iff (h : start ≤ end_) :
    Exact (switchCorePortAllocatorNew false start end_ ⟨true, false, false, false⟩)
      ↔ start = end_ ∧ start.toNat % 2 = 0 ∧ start ≠ 0 := by
  have hle : start.toNat ≤ end_.toNat := UInt16.le_iff_toNat_le.mp h
  have hend := end_.toNat_lt
  have hempty : Exact (switchCorePortAllocatorNew false start end_ ⟨true, false, false, false⟩)
      ↔ (switchCorePortAllocatorNew false start end_ ⟨true, false, false, false⟩).trackLen = 0 := by
    constructor
    · intro hexact
      by_contra hne
      obtain ⟨-, -, -, hodd, -⟩ := exact_iff_slots.mp hexact 0 (Nat.pos_of_ne_zero hne)
      have heven := portOf_even (a := switchCorePortAllocatorNew false start end_
        ⟨true, false, false, false⟩) rfl 0
      have hodd' := hodd rfl rfl
      omega
    · intro hzero i hi
      omega
  obtain ⟨hup, hdown, hwrap⟩ := @adjust_odd start end_
  rw [hempty, trackLen_new, ← UInt16.toNat_inj, ne_eq, ← UInt16.toNat_inj]
  simp only [Bool.false_and, if_neg Bool.false_ne_true]
  by_cases hzero : end_.toNat = 0
  · -- rounding 0 down to an odd port wraps to 65535
    have hend0 : end_ = 0 := UInt16.toNat_inj.mp hzero
    subst hend0
    rw [hwrap, hup]
    have h0 : start.toNat = 0 := Nat.le_zero.mp hle
    rw [h0]
    decide
  · rw [hdown hzero, hup, show (0 : UInt16).toNat = 0 from rfl]
    omega

theorem exact_new_iff (h : start ≤ end_) (even odd : Bool) :
    Exact (switchCorePortAllocatorNew false start end_ ⟨odd, even, false, false⟩)
      ↔ Good start end_ even odd := by
  cases even with
  | true =>
    cases odd with
    | true => simp [Good, not_exact_new_both h]
    | false => simp [Good, exact_new_even h]
  | false =>
    cases odd with
    | true => simp [Good, exact_new_odd_iff h]
    | false => simp [Good, exact_new_plain_iff h]

/-- Whatever `rand` returns: all runs hand out ports of the range and of the parity asked for,
never one that is still allocated, free them and count them, exactly for these flags and
ranges. -/
theorem port_allocator_sound_iff (start end_ : UInt16) (even odd : Bool) (h : start ≤ end_) :
    (∀ calls s,
        Run Step ⟨switchCorePortAllocatorNew false start end_ ⟨odd, even, false, false⟩, []⟩ calls s →
          Sound s)
      ↔ Good start end_ even odd :=
  (sound_runs_iff_exact ⟨rfl, rfl⟩ rfl rfl).trans (exact_new_iff h even odd)

/-- The range and the flag the RTP stack uses. -/
theorem port_allocator_sound_rtp :
    (16384 : UInt16) ≤ 32768 ∧ ∀ calls s,
      Run Step ⟨switchCorePortAllocatorNew false 16384 32768 ⟨false, true, false, false⟩, []⟩ calls s →
        Sound s :=
  ⟨by decide, (port_allocator_sound_iff 16384 32768 true false (by decide)).mpr (.inl ⟨rfl, rfl⟩)⟩

/-- Odd ports only from 5 to 9: the first port handed out can be 4. -/
theorem port_allocator_odd_hands_out_even :
    ∃ s, Run Step ⟨switchCorePortAllocatorNew false 5 9 ⟨true, false, false, false⟩, []⟩
        [.request ⟨fun _ => 0, fun _ => true, fun _ => true⟩] s
      ∧ s.owned = [4] ∧ ¬ Sound s := by
  refine ⟨_, .cons (.granted (first_request rfl rfl (show 0 < 3 by decide))) (.nil _),
    rfl, fun h => ?_⟩
  exact absurd (h.inRange 4 (by decide)).lo (by decide)

end FreeSwitch.Port
