import FreeSwitch.Port.Checks

/-!
# Port allocator — freeing any port

`switch_core_port_allocator_free_port` looks a port up by its distance to the first one and only checks
that it is not below that. So a port behind the range leads behind the table, and a port between two
ports that are handed out is taken for the lower one.

* **`ownSlot_iff`** — the ports whose slot is in the table and theirs.
* **`free_port_sound_iff`** — these are the ones that can safely be freed, over all runs.
-/

namespace FreeSwitch.Port

open Runs

/-- The slot looked at is in the table, and a free that succeeds is of a port that was handed out and
not freed since. -/
def FreeSound (s : State) (port : UInt16) : Prop :=
  (∀ i, slotOf s.alloc port = some i → i < s.alloc.trackLen) ∧
    ∀ alloc, switchCorePortAllocatorFreePort s.alloc port = some (.success, alloc) → port ∈ s.owned

/-- With both flags, the ports as far as the table goes. Otherwise every other port, if the first one is
even. -/
def OwnSlot (a : PortAllocator) (port : UInt16) : Prop :=
  if a.flags.even && a.flags.odd then port.toNat < a.start.toNat + a.trackLen
  else a.start.toNat % 2 = 0 ∧ port.toNat % 2 = 0 ∧ port.toNat < a.start.toNat + 2 * a.trackLen

section

variable {a : PortAllocator} {port : UInt16} {i : Nat}

theorem ownSlot_iff (hslot : slotOf a port = some i) : OwnSlot a port ↔ i < a.trackLen ∧
      portOf a i = port := by
  obtain ⟨hstart, hi⟩ := slotOf_eq_some_iff.mp hslot
  have hlt := port.toNat_lt
  rw [← UInt16.toNat_inj, toNat_portOf]
  unfold OwnSlot
  split at hi
  · rename_i hflags
    rw [if_pos hflags, if_pos hflags]
    omega
  · rename_i hflags
    rw [if_neg hflags, if_neg hflags]
    omega

theorem slotOf_eq_none (hlow : port < a.start) : slotOf a port = none := if_pos hlow

theorem exists_slotOf (hlow : ¬port < a.start) : ∃ i, slotOf a port = some i := ⟨_, if_neg hlow⟩

/-- The first request of a new allocator can hand out the port of any slot. -/
theorem first_granted (htrack : a.track = fun _ => 0) (hused : a.trackUsed = 0) (hi : i < a.trackLen) :
    AnyStep ⟨a, []⟩ (.request ⟨fun _ => i, fun _ => true, fun _ => true⟩)
      ⟨{ a with track := Function.update a.track i 1, trackUsed := 1 }, [portOf a i]⟩ :=
  @AnyStep.granted ⟨a, []⟩ _ 1 _ _ (first_request htrack hused hi)

theorem free_sound_runs_iff (htrack : a.track = fun _ => 0) (hused : a.trackUsed = 0) :
    (∀ calls s, Run AnyStep ⟨a, []⟩ calls s → FreeSound s port) ↔ port < a.start ∨ OwnSlot a port := by
  constructor
  · intro hsound
    by_cases hlow : port < a.start
    · exact .inl hlow
    · obtain ⟨i, hslot⟩ := exists_slotOf hlow
      have hi : i < a.trackLen := (hsound [] _ (.nil _)).1 i hslot
      refine .inr ((ownSlot_iff hslot).mpr ⟨hi, ?_⟩)
      -- with only that slot in use, a free of `port` succeeds
      have hafter := hsound [_] _ (.cons (first_granted htrack hused hi) (.nil _))
      have hsame : slotOf { a with track := Function.update a.track i 1, trackUsed := 1 } port =
        some i := hslot
      have hfree : switchCorePortAllocatorFreePort
          { a with track := Function.update a.track i 1, trackUsed := 1 } port =
          some (.success, { a with
            track := Function.update (Function.update a.track i 1) i (-4)
            trackUsed := 1 - 1 }) := by
        unfold switchCorePortAllocatorFreePort
        simp only [hsame]
        rw [if_neg (show ¬a.trackLen + 2 ≤ i by omega), if_pos (by rw [Function.update_self]; decide)]
      exact (List.mem_singleton.mp (hafter.2 _ hfree)).symm
  · intro hown calls s hrun
    have hkept := Run.kept htrack hused hrun
    have hconfig := hkept.config
    refine ⟨fun i hslot => ?_, fun alloc hfree => ?_⟩
    · rw [hconfig.slotOf_eq] at hslot
      rw [hconfig.trackLen]
      rcases hown with hlow | hown
      · rw [slotOf_eq_none hlow] at hslot
        cases hslot
      · exact ((ownSlot_iff hslot).mp hown).1
    · obtain ⟨i, hslot, hinUse, -⟩ := freePort_success hfree
      rw [hconfig.slotOf_eq] at hslot
      rcases hown with hlow | hown
      · rw [slotOf_eq_none hlow] at hslot
        cases hslot
      · exact hkept.owned port i hslot ((ownSlot_iff hslot).mp hown).2 hinUse

end

/-- For which ports a free looks only into the table and succeeds only if the port was handed out, after
any calls on a new allocator. -/
theorem free_port_sound_iff (runtimeRobustUdp : Bool) (start end_ : UInt16) (flags : PortFlags)
    (port : UInt16) :
    let a := switchCorePortAllocatorNew runtimeRobustUdp start end_ flags
    (∀ calls s, Run AnyStep ⟨a, []⟩ calls s → FreeSound s port) ↔ port < a.start ∨ OwnSlot a port :=
  free_sound_runs_iff rfl rfl

/-- An allocator for the even ports from 16384 to 32768: port 16385 frees port 16384, and port 65534 is
looked up behind the table. -/
theorem free_port_unsound :
    (∃ calls s,
      Run AnyStep ⟨switchCorePortAllocatorNew false 16384 32768 ⟨false, true, false, false⟩,
        []⟩ calls s ∧
        s.owned = [16384] ∧ ∃ alloc,
        switchCorePortAllocatorFreePort s.alloc 16385 = some (.success, alloc)) ∧
      switchCorePortAllocatorFreePort
        (switchCorePortAllocatorNew false 16384 32768 ⟨false, true, false, false⟩) 65534 = none := by
  refine ⟨⟨[_], _, .cons (first_granted (i := 0) rfl rfl (by decide)) (.nil _), by decide, _, rfl⟩, rfl⟩

end FreeSwitch.Port
