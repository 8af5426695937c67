import FreeSwitch.Lib.DoublyLinked
import FreeSwitch.Lib.Run

/-!
# The pool of frames — `find_free_frame`, `switch_frame_buffer_free`

A frame buffer keeps the frames that were given back in a doubly linked list and hands them out again. A
frame with a packet is only handed out for one with a packet, so a node is taken out of the list at any
place.

* **`Sound`** — the list holds the frames that were given back and not handed out again, and no others.
* **`Sound.dup`**, **`Sound.free`** — what the two calls do.
* **`frame_pool_sound`** — so it is in every state that a sequence of calls reaches.
-/

namespace FreeSwitch.FramePool

open DoublyLinked Runs

/-- A frame is its node: `extra_data` leads from the one to the other. Nodes are numbered as they are
allocated, and `used` is the number of the next one. Of a frame's data only `packet` matters here. -/
structure FrameBuffer extends Chain Nat where
  total : UInt32
  inuse : Nat → Bool
  packet : Nat → Bool
  used : Nat

def switchFrameBufferCreate : FrameBuffer :=
  ⟨⟨none, fun _ => none, fun _ => none⟩, 0, fun _ => false, fun _ => false, 0⟩

/-- The frame for a copy of one with or without a packet; `none` when the fuel does not suffice for the
walk. -/
def findFreeFrame (fuel : Nat) (fb : FrameBuffer) (packet : Bool) : Option (Nat × FrameBuffer) :=
  (Chain.walk fb.next (fun np => !fb.inuse np && fb.packet np == packet) fuel fb.head).map fun
    | some np =>
      (np, { fb with
        toChain := fb.toChain.unlink np
        total := fb.total - 1
        inuse := Function.update fb.inuse np true })
    | none =>
      (fb.used, { fb with
        next := Function.update fb.next fb.used none
        prev := Function.update fb.prev fb.used none
        inuse := Function.update fb.inuse fb.used true
        packet := Function.update fb.packet fb.used packet
        used := fb.used + 1 })

/-- A frame is given back; `none` if one of the assertions fails. -/
def switchFrameBufferFree (fb : FrameBuffer) (node : Nat) : Option FrameBuffer :=
  let fb := { fb with
    toChain := fb.toChain.push node
    inuse := Function.update fb.inuse node false
    total := fb.total + 1 }
  if fb.next node ≠ some node ∧ fb.prev node ≠ some node then some fb else none

/-! ## Calls -/

inductive Call where
  | dup (packet : Bool)
  | free (frame : Nat)

/-- The buffer, the frames that are handed out, and those that were given back and not handed out again,
the latest first. -/
structure State where
  fb : FrameBuffer
  out : List Nat
  freed : List Nat

/-- Only a frame that is handed out is given back. -/
inductive Step : State → Call → State → Prop where
  | dup {s : State} {packet : Bool} {fuel np : Nat} {fb : FrameBuffer}
      (h : findFreeFrame fuel s.fb packet = some (np, fb)) :
      Step s (.dup packet) ⟨fb, np :: s.out, s.freed.erase np⟩
  | free {s : State} {frame : Nat} {fb : FrameBuffer} (hout : frame ∈ s.out)
      (h : switchFrameBufferFree s.fb frame = some fb) :
      Step s (.free frame) ⟨fb, s.out.erase frame, frame :: s.freed⟩

structure Sound (s : State) : Prop where
  lists : s.fb.Lists s.freed
  total : s.fb.total = UInt32.ofNat s.freed.length
  nodup : s.out.Nodup
  disjoint : ∀ a ∈ s.out, a ∉ s.freed
  inuse : ∀ a, s.fb.inuse a = true ↔ a ∈ s.out
  used : ∀ a, a ∈ s.out ∨ a ∈ s.freed → a < s.fb.used

variable {s : State}

theorem update_inuse (h : Sound s) (np a : Nat) :
    Function.update s.fb.inuse np true a = true ↔ a ∈ np :: s.out := by
  rw [Function.update_apply, List.mem_cons]
  split <;> simp_all [h.inuse]

theorem Sound.dup (h : Sound s) {packet : Bool} {fuel np : Nat} {fb : FrameBuffer}
    (hfind : findFreeFrame fuel s.fb packet = some (np, fb)) :
    np ∉ s.out ∧ Sound ⟨fb, np :: s.out, s.freed.erase np⟩ := by
  obtain ⟨found, hwalk, hfb⟩ := Option.map_eq_some_iff.mp hfind
  have hfound := Chain.walk_eq fuel s.fb.head [] s.freed h.lists h.lists.head hwalk
  cases found with
  | some np =>
    obtain ⟨rfl, rfl⟩ := Prod.mk.inj hfb
    have hmem : np ∈ s.freed := List.mem_of_find?_eq_some hfound.symm
    have hout : np ∉ s.out := fun hout => h.disjoint np hout hmem
    refine ⟨hout, h.lists.unlink hmem, ?_, List.nodup_cons.mpr ⟨hout, h.nodup⟩, fun a ha hfreed => ?_,
      update_inuse h np,
      fun a ha => ?_⟩
    · show s.fb.total - 1 = UInt32.ofNat (s.freed.erase np).length
      obtain ⟨n, hn⟩ := Nat.exists_eq_add_one_of_ne_zero (List.length_pos_of_mem hmem).ne'
      rw [h.total, List.length_erase_of_mem hmem, hn]
      simp
    · obtain ⟨hne, hfreed⟩ := h.lists.nodup.mem_erase_iff.mp hfreed
      exact h.disjoint a ((List.mem_cons.mp ha).resolve_left hne) hfreed
    · rcases ha with ha | ha
      · rcases List.mem_cons.mp ha with rfl | ha
        · exact h.used a (.inr hmem)
        · exact h.used a (.inl ha)
      · exact h.used a (.inr (List.mem_of_mem_erase ha))
  | none =>
    obtain ⟨rfl, rfl⟩ := Prod.mk.inj hfb
    have hout : s.fb.used ∉ s.out := fun hmem => Nat.lt_irrefl _ (h.used _ (.inl hmem))
    have hfreed : s.fb.used ∉ s.freed := fun hmem => Nat.lt_irrefl _ (h.used _ (.inr hmem))
    refine ⟨hout, ?_⟩
    rw [List.erase_of_not_mem hfreed]
    refine ⟨⟨h.lists.head, h.lists.nodup, fun as a bs hl => ?_⟩, h.total,
      List.nodup_cons.mpr ⟨hout, h.nodup⟩, fun a ha hmem => ?_,
      update_inuse h s.fb.used, fun a ha => ?_⟩
    · -- the new node is not in the list
      have hne : a ≠ s.fb.used := fun heq => hfreed (heq ▸ hl ▸ by simp)
      obtain ⟨hnext, hprev⟩ := h.lists.links as a bs hl
      exact ⟨(Function.update_of_ne hne ..).trans hnext, (Function.update_of_ne hne ..).trans hprev⟩
    · rcases List.mem_cons.mp ha with rfl | ha
      · exact hfreed hmem
      · exact h.disjoint a ha hmem
    · show a < s.fb.used + 1
      rcases ha with ha | ha
      · rcases List.mem_cons.mp ha with rfl | ha
        · exact Nat.lt_succ_self _
        · exact Nat.lt_succ_of_lt (h.used a (.inl ha))
      · exact Nat.lt_succ_of_lt (h.used a (.inr ha))

theorem Sound.free (h : Sound s) {frame : Nat} (hout : frame ∈ s.out) :
    ∃ fb, switchFrameBufferFree s.fb frame = some fb
      ∧ Sound ⟨fb, s.out.erase frame, frame :: s.freed⟩ := by
  have hfreed := h.disjoint frame hout
  have hpush := h.lists.push hfreed
  -- the assertions: the node is neither behind itself nor before itself
  have hself : (s.fb.push frame).next frame ≠ some frame
      ∧ (s.fb.push frame).prev frame ≠ some frame := by
    obtain ⟨hnext, hprev⟩ := hpush.links [] frame s.freed rfl
    rw [hnext, hprev]
    exact ⟨fun hhead => hfreed (List.mem_of_head? hhead), nofun⟩
  refine ⟨_, if_pos hself, hpush, ?_, h.nodup.erase frame, fun a ha hmem => ?_, fun a => ?_,
    fun a ha => ?_⟩
  · show s.fb.total + 1 = UInt32.ofNat (s.freed.length + 1)
    rw [h.total]
    simp
  · obtain ⟨hne, ha⟩ := h.nodup.mem_erase_iff.mp ha
    exact h.disjoint a ha ((List.mem_cons.mp hmem).resolve_left hne)
  · show Function.update s.fb.inuse frame false a = true ↔ a ∈ s.out.erase frame
    rw [Function.update_apply, h.nodup.mem_erase_iff]
    split <;> simp_all [h.inuse]
  · rcases ha with ha | ha
    · exact h.used a (.inl (List.mem_of_mem_erase ha))
    · rcases List.mem_cons.mp ha with rfl | ha
      · exact h.used a (.inl hout)
      · exact h.used a (.inr ha)

/-- **In every state of the pool, its list is that of the frames which were given back and not handed
out again.** -/
theorem frame_pool_sound {calls : List Call} {s : State}
    (hrun : Run Step ⟨switchFrameBufferCreate, [], []⟩ calls s) :
    s.fb.Lists s.freed ∧ (∀ a ∈ s.freed, ∀ b ∈ s.freed, s.fb.next a = some b ↔ s.fb.prev b = some a)
      ∧ (∀ a, s.fb.head = some a → s.fb.prev a = none) ∧ s.freed.Nodup
      ∧ s.fb.total = UInt32.ofNat s.freed.length
      ∧ (s.freed.length < 2 ^ 32 → s.fb.total.toNat = s.freed.length)
      ∧ (∀ packet, (∃ fuel np fb, findFreeFrame fuel s.fb packet = some (np, fb))
        ∧ ∀ fuel np fb, findFreeFrame fuel s.fb packet = some (np, fb) → np ∉ s.out)
      ∧ ∀ frame ∈ s.out, ∃ fb, switchFrameBufferFree s.fb frame = some fb := by
  have h : Sound s := by
    refine hrun.invariant (fun s call s' h hstep => ?_) ⟨⟨rfl, .nil, by simp⟩, rfl, .nil, by simp,
      by simp [switchFrameBufferCreate], by simp⟩
    cases hstep with
    | dup hfind => exact (h.dup hfind).2
    | free hout hfree =>
      obtain ⟨fb, hfb, hsound⟩ := h.free hout
      obtain rfl := Option.some.inj (hfb.symm.trans hfree)
      exact hsound
  refine ⟨h.lists, fun a ha b hb => h.lists.inverse ha hb, fun a ha => h.lists.prev_head ha,
    h.lists.nodup, h.total,
    fun hlen => by rw [h.total, UInt32.toNat_ofNat', Nat.mod_eq_of_lt hlen],
    fun packet => ⟨?_, fun fuel np fb hfind => (h.dup hfind).1⟩,
    fun frame hout => (h.free hout).imp fun _ hfb => hfb.1⟩
  obtain ⟨np, hwalk⟩ :=
    Option.isSome_iff_exists.mp (Chain.walk_isSome s.freed.length [] s.freed h.lists le_rfl)
  rw [← h.lists.head] at hwalk
  refine ⟨s.freed.length, ?_⟩
  rw [findFreeFrame, hwalk]
  exact ⟨_, _, rfl⟩

/-- Two frames of different kinds are handed out, both are given back, and the first one is handed out
again. -/
theorem frame_pool_sound_again : ∃ s, Run Step ⟨switchFrameBufferCreate, [], []⟩
      [.dup true, .dup false, .free 0, .free 1, .dup true] s ∧
    s.out = [0] ∧ s.freed = [1] ∧ s.fb.Lists s.freed ∧ s.fb.total.toNat = 1 := by
  have hrun : Run Step ⟨switchFrameBufferCreate, [], []⟩ [.dup true, .dup false, .free 0, .free 1,
      .dup true] _ :=
    .cons (@Step.dup _ true 0 _ _ rfl) (.cons (@Step.dup _ false 0 _ _ rfl)
      (.cons
        (.free (by decide) rfl) (.cons
          (.free (by decide) rfl) (.cons (@Step.dup _ true 2 _ _ rfl) (.nil _)))))
  have hsound := frame_pool_sound hrun
  exact ⟨_, hrun, rfl, rfl, hsound.1, hsound.2.2.2.2.2.1 (by decide)⟩

end FreeSwitch.FramePool
