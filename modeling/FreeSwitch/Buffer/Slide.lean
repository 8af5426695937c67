import FreeSwitch.Buffer.Limit

/-!
# `switch_buffer` — sliding writes into a buffer of fixed size

`switch_buffer_slide_write` first tries to write. If there is no room, it tosses as many bytes as it has
to write, or all there are, and then there is room for any slice that the buffer could hold at all.

* **`write_fixed`** — a write into a buffer of fixed size goes by the free space alone, wherever the
  content stands.
* **`slideWrite_fixed`** — a sliding write.
* **`slide_write_keeps_suffix`** — the same, after any calls on a new buffer.
-/

namespace FreeSwitch.Buffer

open Runs

/-- A buffer that `switch_buffer_create` made. -/
structure Fixed (capacity : Nat) (b : SwitchBuffer) : Prop where
  wf : Wf b
  dynamic : b.dynamic = false
  datalen : b.datalen = capacity

section

variable {capacity : Nat} {b b' : SwitchBuffer}

theorem grow_fixed (mem : Allocator) (hfixed : b.dynamic = false) (n : Nat) :
    grow mem b n = some b := by
  have hmust : mustGrow b n = false := by rw [mustGrow, hfixed, Bool.false_and, Bool.false_and]
  rw [grow, hmust, if_neg Bool.false_ne_true]

/-- Refused for lack of room, or appended. -/
theorem write_fixed (h : Fixed capacity b) (mem : Allocator) (src : Object) :
    (capacity < (contents b).length + src.bytes.length ∧ ∃ b',
      switchBufferWrite mem b src = some (b', 0)
        ∧ Fixed capacity b' ∧ contents b' = contents b)
      ∨ ((contents b).length + src.bytes.length ≤ capacity ∧ ∃ b',
        switchBufferWrite mem b src = some (b', b'.used)
        ∧ Fixed capacity b' ∧ contents b' = contents b ++ src.bytes) := by
  have hwf := h.wf
  have htally := hwf.tally
  have hbound := hwf.bound
  rw [hwf.contents_length, ← h.datalen]
  unfold switchBufferWrite
  rw [hwf.nonPartition, hwf.nonNull]
  simp only [Bool.false_eq_true, if_false, Option.isNone_some]
  by_cases hempty : src.bytes.length = 0
  · rw [if_pos hempty]
    refine .inr ⟨by omega, b, rfl, ⟨hwf, h.dynamic, rfl⟩, ?_⟩
    rw [List.length_eq_zero_iff.mp hempty, List.append_nil]
  · rw [if_neg hempty]
    obtain ⟨hwf₁, hq₁, hp₁, hused₁, hdatalen₁, hroom₁⟩ := reclaim_spec hwf src.bytes.length
    have hdynamic₁ : (reclaim b src.bytes.length).dynamic = false := hp₁.dynamic.trans h.dynamic
    rw [← hdatalen₁] at hroom₁
    simp only [grow_fixed mem hdynamic₁]
    rcases append_spec hwf₁ hroom₁ with ⟨hshort, happ⟩ | ⟨hfit, b₂, happ, hwf₂, hq₂, hp₂, -, hd₂⟩
    · rw [happ]
      exact .inl ⟨by omega, _, rfl, ⟨hwf₁, hdynamic₁, hdatalen₁⟩, hq₁⟩
    · rw [happ]
      refine .inr ⟨by omega, b₂, rfl, ⟨hwf₂, hp₂.dynamic.trans hdynamic₁, hd₂.trans hdatalen₁⟩, ?_⟩
      rw [hq₂, hq₁]

theorem Fixed.toss (h : Fixed capacity b) (n : Nat) : Fixed capacity (switchBufferToss b n).1 := by
  obtain ⟨hwf, -, hp, -, -, hdatalen⟩ := toss_spec h.wf n
  exact ⟨hwf, hp.dynamic.trans h.dynamic, hdatalen.trans h.datalen⟩

/-- All of the slice is written, behind what is left of the content. Nothing is tossed if there is room
for both. -/
theorem slideWrite_fixed (h : Fixed capacity b) (mem₁ mem₂ : Allocator) {src : Object}
    (hpos : 0 < src.bytes.length) (hfit : src.bytes.length ≤ capacity) :
    ∃ b', switchBufferSlideWrite mem₁ mem₂ b src = some (b', b'.used) ∧ Fixed capacity b' ∧
      ∃ old, old <:+ contents b ∧ contents b' = old ++ src.bytes ∧
        ((contents b).length + src.bytes.length ≤ capacity → old = contents b) := by
  simp only [switchBufferSlideWrite, h.wf.nonPartition, Bool.false_eq_true, if_false,
    Option.bind_eq_bind]
  rcases write_fixed h mem₁ src with ⟨hshort, b₁, hw₁, h₁, hq₁⟩ | ⟨hroom, b₁, hw₁, h₁, hq₁⟩
  · have hq₂ := (toss_spec h₁.wf src.bytes.length).2.1
    rw [hq₁] at hq₂
    rw [hw₁, Option.bind_some, if_pos rfl]
    -- what is left and the slice are no longer than the content was, or than the slice
    rcases write_fixed (h₁.toss src.bytes.length) mem₂ src with ⟨hshort₂, -⟩ | ⟨-, b₃, hw₃, h₃, hq₃⟩
    · have hlength : (contents b).length ≤ capacity := by
        have htally := h.wf.tally
        have hbound := h.wf.bound
        rw [h.wf.contents_length, ← h.datalen]
        omega
      rw [hq₂, List.length_drop] at hshort₂
      omega
    · refine ⟨b₃, hw₃, h₃, (contents b).drop src.bytes.length, List.drop_suffix _ _, ?_,
        fun hroom => ?_⟩
      · rw [hq₃, hq₂]
      · omega
  · have hused : b₁.used ≠ 0 := by
      rw [← h₁.wf.contents_length, hq₁, List.length_append]
      omega
    rw [hw₁, Option.bind_some, if_neg hused]
    exact ⟨b₁, rfl, h₁, contents b, List.suffix_rfl, hq₁, fun _ => rfl⟩

/-! ## Runs -/

theorem step_fixed {label : Call × Reply} (h : Fixed capacity b) (hstep : Step b label b') :
    Fixed capacity b' := by
  refine step_preserves (P := Fixed capacity) (fun _ h => h) (fun _ h => h.wf.nonPartition) ?_
    (fun _ n h => h.toss n) ?_ h hstep
  · intro b mem src b' w h hw
    have hfixed : Fixed capacity b' := by
      rcases write_fixed h mem src with ⟨-, b₁, hw₁, h₁, -⟩ | ⟨-, b₁, hw₁, h₁, -⟩
      · cases hw.symm.trans hw₁
        exact h₁
      · cases hw.symm.trans hw₁
        exact h₁
    exact ⟨hfixed, fun _ => hfixed⟩
  · intro b b' h hz
    obtain ⟨b₁, hz₁, hwf, -, hp, -, hdatalen⟩ := zero_spec h.wf
    cases hz.symm.trans hz₁
    exact ⟨hwf, hp.dynamic.trans h.dynamic, hdatalen.trans h.datalen⟩

theorem fixed_create {maxLen : UInt64} (hcreate : switchBufferCreate maxLen = some b) :
    Fixed maxLen.toNat b := by
  refine ⟨(NewBuffer.wf (.inl ⟨maxLen, hcreate⟩)).1, ?_, ?_⟩
  all_goals
    unfold switchBufferCreate at hcreate
    split at hcreate
    · cases hcreate
      rfl
    · cases hcreate

end

/-- **A sliding write keeps the end of the content.** Whatever calls were made on a buffer of fixed
size, a slice that the buffer can hold is written, behind the whole content if there is room for both
and behind a suffix of it otherwise. -/
theorem slide_write_keeps_suffix {maxLen : UInt64} {b₀ b : SwitchBuffer} {labels : List (Call × Reply)}
    (hcreate : switchBufferCreate maxLen = some b₀) (hrun : Run Step b₀ labels b)
    (mem₁ mem₂ : Allocator) (src : Object)
    (hpos : 0 < src.bytes.length) (hfit : src.bytes.length ≤ maxLen.toNat) :
    ∃ b' w, switchBufferSlideWrite mem₁ mem₂ b src = some (b', w) ∧ w = (contents b').length ∧ 0 < w ∧
      ∃ old, old <:+ contents b ∧ contents b' = old ++ src.bytes ∧
        ((contents b).length + src.bytes.length ≤ maxLen.toNat → old = contents b) := by
  have hfixed : Fixed maxLen.toNat b :=
    hrun.invariant (I := Fixed maxLen.toNat) (fun _ _ _ h hstep => step_fixed h hstep)
      (fixed_create hcreate)
  obtain ⟨b', hslide, hfixed', old, hsuffix, hcontents, hall⟩ :=
    slideWrite_fixed hfixed mem₁ mem₂ hpos hfit
  refine ⟨b', b'.used, hslide, hfixed'.wf.contents_length.symm, ?_, old, hsuffix, hcontents, hall⟩
  rw [← hfixed'.wf.contents_length, hcontents, List.length_append]
  omega

/-- Two bytes into a buffer of three that holds two: the first two go. -/
theorem slide_write_keeps_suffix_full :
    ∃ b₀ b, switchBufferCreate 3 = some b₀ ∧
      Run Step b₀ [(.write ⟨[1, 2], by decide⟩, { ret := 2 })] b ∧
      ∃ b' w, switchBufferSlideWrite (fun _ => none) (fun _ => none) b ⟨[3, 4],
        by decide⟩ = some (b', w) ∧
        w = (contents b').length ∧ 0 < w ∧ ∃ old, old <:+ contents b ∧ contents b' = old ++ [3, 4] ∧
          ((contents b).length + 2 ≤ 3 → old = contents b) := by
  let b : SwitchBuffer :=
    { data := some [1, 2, 0], head := 0, used := 2, actuallyUsed := 2, datalen := 3, maxLen := 0,
      blocksize := 0,
      dynamic := false, partition := false }
  have hrun : Run Step ((switchBufferCreate 3).get rfl)
      [(.write ⟨[1, 2], by decide⟩, { ret := 2 })] b :=
    .cons ⟨fun _ => none, fun _ => none, by decide +kernel⟩ (.nil b)
  have hcreate : switchBufferCreate 3 = some ((switchBufferCreate 3).get rfl) := rfl
  exact ⟨_, b, hcreate, hrun,
    slide_write_keeps_suffix hcreate hrun _ _ ⟨[3, 4], by decide⟩ (by decide) (by decide)⟩

end FreeSwitch.Buffer
