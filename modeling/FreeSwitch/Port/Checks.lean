import FreeSwitch.Port.Sound

/-!
# Port allocator — requests with robustness checks

Calls come in any order, and a port may be freed that was never handed out. A port that fails its check
is left aside for four passes, and then it is its turn again. A request goes on as long as there is a
slot that is not in use, so it never returns if no check succeeds.

* **`AnyStep`** — the calls; **`Consistent`** is what they keep of the table.
* **`requestLoop_none`** — a request whose checks fail.
* **`request_returns_iff`** — when every request returns.
-/

namespace FreeSwitch.Port

open Runs

/-! ## Calls in any order -/

/-- The ports that are owned are those handed out and not freed since. -/
inductive AnyStep : State → Call → State → Prop where
  | granted {s : State} {draws : Draws} {fuel : Nat} {port : UInt16} {alloc : PortAllocator}
      (h : switchCorePortAllocatorRequestPort draws fuel s.alloc = some ((.success, port), alloc)) :
      AnyStep s (.request draws) ⟨alloc, port :: s.owned⟩
  | refused {s : State} {draws : Draws} {fuel : Nat} {st : Status} {port : UInt16}
      {alloc : PortAllocator}
      (hst : st ≠ .success) (h : switchCorePortAllocatorRequestPort draws fuel s.alloc =
        some ((st, port), alloc)) :
      AnyStep s (.request draws) ⟨alloc, s.owned⟩
  | freed {s : State} {port : UInt16} {alloc : PortAllocator}
      (h : switchCorePortAllocatorFreePort s.alloc port = some (.success, alloc)) :
      AnyStep s (.free port) ⟨alloc, s.owned.filter (· ≠ port)⟩
  | notFreed {s : State} {port : UInt16} {st : Status} {alloc : PortAllocator} (hst : st ≠ .success)
      (h : switchCorePortAllocatorFreePort s.alloc port = some (st, alloc)) :
      AnyStep s (.free port) ⟨alloc, s.owned⟩

/-- The slots in use. -/
def inUse (a : PortAllocator) : Finset Nat := (Finset.range a.trackLen).filter fun i => 0 < a.track i

theorem mem_inUse {a : PortAllocator} {i : Nat} : i ∈ inUse a ↔ i < a.trackLen ∧ 0 < a.track i := by
  rw [inUse, Finset.mem_filter, Finset.mem_range]

structure Consistent (a : PortAllocator) : Prop where
  counted : a.trackUsed = (inUse a).card
  inTable : ∀ i, 0 < a.track i → i < a.trackLen
  low : ∀ i, -4 ≤ a.track i

section

variable {a a' : PortAllocator} {s s' : State}

theorem Consistent.taken {i : Nat} (h : Consistent a) (htaken : Taken a i a') : Consistent a' := by
  have hinsert : inUse a' = insert i (inUse a) := by
    ext j
    rw [mem_inUse, Finset.mem_insert, mem_inUse, htaken.config.trackLen, htaken.used]
    constructor
    · rintro ⟨hj, rfl | hused⟩
      · exact .inl rfl
      · exact .inr ⟨hj, hused⟩
    · rintro (rfl | ⟨hj, hused⟩)
      · exact ⟨htaken.index_lt, .inl rfl⟩
      · exact ⟨hj, .inr hused⟩
  refine ⟨?_, fun j hj => ?_, htaken.low h.low⟩
  · rw [htaken.trackUsed, h.counted, hinsert, Finset.card_insert_of_notMem]
    exact fun hmem => htaken.unused (mem_inUse.mp hmem).2
  · rw [htaken.config.trackLen]
    rcases (htaken.used j).mp hj with rfl | hused
    · exact htaken.index_lt
    · exact h.inTable j hused

/-- A free that succeeds has found the slot in use, and leaves it with -4. -/
theorem freePort_success {port : UInt16}
    (h : switchCorePortAllocatorFreePort a port = some (.success, a')) :
    ∃ i, slotOf a port = some i ∧ 0 < a.track i ∧
      a' = { a with track := Function.update a.track i (-4), trackUsed := a.trackUsed - 1 } := by
  unfold switchCorePortAllocatorFreePort at h
  split at h
  · cases h
  · rename_i i hslot
    split at h
    · cases h
    · split at h
      · rename_i hused
        cases h
        exact ⟨i, hslot, hused, rfl⟩
      · cases h

/-- One that does not succeed changes nothing. -/
theorem freePort_failure {port : UInt16} {st : Status} (hst : st ≠ .success)
    (h : switchCorePortAllocatorFreePort a port = some (st, a')) : a' = a := by
  unfold switchCorePortAllocatorFreePort at h
  split at h
  · cases h
    rfl
  · split at h
    · cases h
    · split at h
      · cases h
        exact absurd rfl hst
      · cases h
        rfl

theorem Consistent.freed {i : Nat} (h : Consistent a) (hused : 0 < a.track i) :
    Consistent { a with track := Function.update a.track i (-4), trackUsed := a.trackUsed - 1 } := by
  have herase : inUse { a with track := Function.update a.track i (-4), trackUsed := a.trackUsed - 1 } =
    (inUse a).erase i := by
    ext j
    rw [mem_inUse, Finset.mem_erase, mem_inUse]
    by_cases hj : j = i
    · subst hj
      simp
    · simp [hj]
  refine ⟨?_, fun j hj => ?_, fun j => ?_⟩
  · rw [herase, Finset.card_erase_of_mem (mem_inUse.mpr ⟨h.inTable i hused, hused⟩), ← h.counted]
  · by_cases hji : j = i
    · subst hji
      exact h.inTable j hused
    · exact h.inTable j (by simpa [Function.update_of_ne hji] using hj)
  · by_cases hji : j = i
    · subst hji
      simp
    · simpa [Function.update_of_ne hji] using h.low j

/-- The allocator has the parameters it was made with, and a table in order; and what stands in the slot
of a port was handed out under that port. -/
structure Kept (a₀ : PortAllocator) (s : State) : Prop where
  config : SameConfig a₀ s.alloc
  consistent : Consistent s.alloc
  owned : ∀ port i, slotOf a₀ port = some i → portOf a₀ i = port → 0 < s.alloc.track i → port ∈ s.owned

theorem anyStep_kept {a₀ : PortAllocator} {call : Call} (h : Kept a₀ s) (hstep : AnyStep s call s') :
    Kept a₀ s' := by
  cases hstep with
  | granted hreq =>
    rcases requestLoop_cases _ _ 0 hreq with ⟨hst, _⟩ | ⟨_, i, rfl, htaken⟩
    · cases hst
    · refine ⟨h.config.trans htaken.config, h.consistent.taken htaken,
        fun port j hslot hport hused => ?_⟩
      rcases (htaken.used j).mp hused with rfl | hused
      · rw [h.config.portOf_eq, hport]
        exact List.mem_cons_self
      · exact List.mem_cons_of_mem _ (h.owned port j hslot hport hused)
  | refused hst hreq =>
    rcases requestLoop_cases _ _ 0 hreq with ⟨_, _, rfl⟩ | ⟨hsuccess, _⟩
    · exact h
    · exact absurd hsuccess hst
  | @freed port alloc hfree =>
    obtain ⟨i, hslot, hused, rfl⟩ := freePort_success hfree
    rw [h.config.slotOf_eq] at hslot
    refine ⟨h.config.trans ⟨rfl, rfl, rfl, rfl⟩, h.consistent.freed hused,
      fun other j hslot' hport hused' => ?_⟩
    have hji : j ≠ i := by
      rintro rfl
      simp at hused'
    have hother : other ≠ port := by
      rintro rfl
      exact hji (Option.some.inj (hslot'.symm.trans hslot))
    have hheld := h.owned other j hslot' hport (by simpa [Function.update_of_ne hji] using hused')
    exact List.mem_filter.mpr ⟨hheld, by simpa using hother⟩
  | notFreed hst hfree =>
    rw [freePort_failure hst hfree]
    exact ⟨h.config, h.consistent, h.owned⟩

/-- A new table has no slot in use. -/
theorem kept_new (htrack : a.track = fun _ => 0) (hused : a.trackUsed = 0) : Kept a ⟨a, []⟩ where
  config := SameConfig.refl a
  consistent := by
    refine ⟨?_, fun i hi => ?_, fun i => ?_⟩
    · rw [hused, inUse, htrack]
      simp
    · simp [htrack] at hi
    · simp [htrack]
  owned port i _ _ hi := by simp [htrack] at hi

theorem Run.kept {calls : List Call} (htrack : a.track = fun _ => 0) (hused : a.trackUsed = 0)
    (hrun : Run AnyStep ⟨a, []⟩ calls s) : Kept a s :=
  hrun.invariant (I := Kept a) (fun _ _ _ h hstep => anyStep_kept h hstep) (kept_new htrack hused)

/-! ## Requests -/

/-- As long as a slot is not in use, a request whose checks fail has another pass. -/
theorem requestLoop_none {draws : Draws} (hroom : a.trackUsed < a.trackLen)
    (hfail : ∀ k, robust a draws k = false) (fuel k : Nat) :
    requestLoop draws fuel k a = none := by
  induction fuel generalizing k a with
  | zero => rfl
  | succ fuel ih =>
    rw [requestLoop, if_pos hroom]
    dsimp only
    split
    · rw [hfail k, if_neg Bool.false_ne_true]
      apply ih
      · exact hroom
      · exact hfail
    · apply ih
      · exact hroom
      · exact hfail

/-- No slot is left. -/
def AllInUse (a : PortAllocator) : Prop := ∀ i < a.trackLen, 0 < a.track i

theorem Consistent.allInUse_iff (h : Consistent a) : AllInUse a ↔ a.trackLen ≤ a.trackUsed := by
  rw [h.counted]
  constructor
  · intro hall
    have heq : inUse a = Finset.range a.trackLen :=
      Finset.filter_true_of_mem fun i hi => hall i (Finset.mem_range.mp hi)
    rw [heq, Finset.card_range]
  · intro hle i hi
    have heq : inUse a = Finset.range a.trackLen :=
      Finset.eq_of_subset_of_card_le (Finset.filter_subset _ _) (by rwa [Finset.card_range])
    exact (mem_inUse.mp (heq ▸ Finset.mem_range.mpr hi)).2

/-- The request returns, and with a failure if there is no port to hand out. -/
def Returns (draws : Draws) (a : PortAllocator) : Prop :=
  ∃ fuel st port a', switchCorePortAllocatorRequestPort draws fuel a = some ((st, port), a') ∧
    (AllInUse a → st = .failure)

theorem Consistent.returns_of_full (h : Consistent a) (hall : AllInUse a) (draws : Draws) :
    Returns draws a := by
  refine ⟨1, .failure, 0, a, ?_, fun _ => rfl⟩
  rw [switchCorePortAllocatorRequestPort, requestLoop, if_neg (Nat.not_lt.mpr (h.allInUse_iff.mp hall))]

theorem Consistent.returns_of_off (h : Consistent a) (hoff : RobustOff a) (draws : Draws) :
    Returns draws a := by
  by_cases hall : AllInUse a
  · exact h.returns_of_full hall draws
  · have hroom : a.trackUsed < a.trackLen := Nat.lt_of_not_le fun hle => hall (h.allInUse_iff.mpr hle)
    obtain ⟨j, hj, hunused⟩ : ∃ j, j < a.trackLen ∧ a.track j ≤ 0 := by
      by_contra hnone
      exact hall fun j hj => not_le.mp fun hle => hnone ⟨j, hj, hle⟩
    obtain ⟨⟨⟨st, port⟩, a'⟩, hreq⟩ :=
      requestLoop_returns draws 5 0 hoff hroom hj (by have := h.low j; omega) hunused
    exact ⟨5, st, port, a', hreq, fun hall' => absurd hall' hall⟩

/-- Checks that all fail. -/
def failingChecks : Draws := ⟨fun _ => 0, fun _ => false, fun _ => false⟩

theorem robust_failingChecks (hon : ¬RobustOff a) (k : Nat) : robust a failingChecks k = false := by
  unfold RobustOff at hon
  unfold robust failingChecks
  cases htcp : a.flags.robustTcp with
  | true => rfl
  | false =>
    cases hudp : a.flags.robustUdp with
    | true => rfl
    | false => exact absurd ⟨htcp, hudp⟩ hon

theorem Consistent.always_returns_iff (h : Consistent a) :
    (∀ draws, Returns draws a) ↔ AllInUse a ∨ RobustOff a := by
  constructor
  · intro hreturns
    by_contra hneither
    rw [not_or] at hneither
    have hroom : a.trackUsed < a.trackLen :=
      Nat.lt_of_not_le fun hle => hneither.1 (h.allInUse_iff.mpr hle)
    obtain ⟨fuel, st, port, a', hreq, -⟩ := hreturns failingChecks
    rw [switchCorePortAllocatorRequestPort,
      requestLoop_none hroom (robust_failingChecks hneither.2)] at hreq
    cases hreq
  · rintro (hall | hoff) draws
    · exact h.returns_of_full hall draws
    · exact h.returns_of_off hoff draws

end

/-- In every state that calls can lead to: every request returns, whatever `rand` and the checks give,
exactly if there is no port to hand out or no check is asked for. -/
theorem request_returns_iff (runtimeRobustUdp : Bool) (start end_ : UInt16) (flags : PortFlags)
    {calls : List Call} {s : State}
    (hrun : Run AnyStep ⟨switchCorePortAllocatorNew runtimeRobustUdp start end_ flags, []⟩ calls s) :
    (∀ draws, Returns draws s.alloc) ↔ AllInUse s.alloc ∨ RobustOff s.alloc :=
  (Run.kept rfl rfl hrun).consistent.always_returns_iff

/-- A new allocator for even ports. -/
theorem request_returns_iff_new :
    Returns failingChecks (switchCorePortAllocatorNew false 16384 32768 ⟨false, true, false, false⟩) :=
  (request_returns_iff false 16384 32768 ⟨false, true, false, false⟩ (.nil _)).mpr
    (.inr ⟨rfl, rfl⟩) failingChecks

/-- The same with a check on UDP, when no port can be bound. -/
theorem request_never_returns :
    ¬∃ fuel result, switchCorePortAllocatorRequestPort failingChecks fuel
      (switchCorePortAllocatorNew true 16384 32768 ⟨false, true, false, false⟩) = some result := by
  rintro ⟨fuel, result, hreq⟩
  have hroom : (switchCorePortAllocatorNew true 16384 32768 ⟨false, true, false, false⟩).trackUsed <
      (switchCorePortAllocatorNew true 16384 32768 ⟨false, true, false, false⟩).trackLen := by decide
  rw [switchCorePortAllocatorRequestPort, requestLoop_none hroom (fun k => rfl)] at hreq
  cases hreq

end FreeSwitch.Port
