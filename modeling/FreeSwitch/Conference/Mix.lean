import FreeSwitch.Lib.Checked

/-!
# The mix of a conference — `src/mod/applications/mod_conference/mod_conference.c`

`conference_thread_run` adds the frames of all members that have audio, and takes from the sum what a
member must not hear: its own frame, and the frames that a relationship excludes. The tests for adding
and for taking away are not the same.

* **`mixed`** — one sample of the frame that a member gets.
* **`Exact`** — it is the sum of what the member is meant to hear.
* **`exact_iff`** — the conferences in which it is, whatever the frames hold.
* **`exact_leaving`** — one in which it is not.
-/

namespace FreeSwitch.Conference

open Checked

/-! ## Members -/

structure Relationship where
  id : Nat
  canSpeak : Bool
  canHear : Bool

structure Member where
  id : Nat
  running : Bool
  hasAudio : Bool
  canHear : Bool
  read : Nat
  relationships : List Relationship

/-- `bytes` is the length of a frame. `comfortNoise` is what `switch_generate_sln_silence` makes, where
there is a level for it. `relationship_total` may count relationships of members that have left. -/
structure Conf (n : Nat) where
  bytes : Nat
  comfortNoise : Option (Nat → Int16)
  relationshipTotal : Nat
  members : Fin n → Member
  read_le : ∀ i, (members i).read ≤ bytes
  counted : ∀ i, (members i).relationships ≠ [] → relationshipTotal ≠ 0

/-- The frame of a member. It holds older samples behind those that were read. -/
abbrev Frames (n : Nat) := Fin n → Nat → Int16

/-- A relationship of `m` forbids it to speak to `o`. -/
def Member.forbidsSpeak (m o : Member) : Bool :=
  m.relationships.any fun rel => (rel.id == o.id || rel.id == 0) && !rel.canSpeak

/-- A relationship of `o` forbids it to hear `m`. -/
def Member.forbidsHear (o m : Member) : Bool :=
  o.relationships.any fun rel => (rel.id == m.id || rel.id == 0) && !rel.canHear

def Member.excluded (m o : Member) : Bool := m.forbidsSpeak o || o.forbidsHear m

/-- Sample `x` of this member is added. -/
def Member.speaks (m : Member) (x : Nat) : Bool := m.running && m.hasAudio && decide (x < m.read / 2)

def Member.listens (m : Member) : Bool := m.running && m.canHear

/-! ## One sample -/

def normalizeTo16bit (n : Int) : Int := if 32767 < n then 32767 else if n < -32768 then -32768 else n

variable {n : Nat}

namespace Conf

variable (c : Conf n) (frames : Frames n)

/-- What the members get when none of them has audio. -/
def silence (x : Nat) : Int16 :=
  match c.comfortNoise with
  | some noise => noise x
  | none => -1

def ready : Bool := (List.finRange n).any fun i => (c.members i).hasAudio

def mainFrame (x : Nat) : Option Int :=
  addWhere (fun i => (c.members i).speaks x) (fun i => (frames i x).toInt) (List.finRange n) 0

/-- The own contribution of `o`. Its last sample is the one behind those that were read. -/
def minusOwn (o : Fin n) (x : Nat) (z : Int) : Option Int :=
  if (c.members o).hasAudio && decide (x ≤ (c.members o).read / 2) then
    add z (-(frames o x).toInt) else some z

/-- The frames of members that are not to be heard, of those that have audio. -/
def minusExcluded (o : Fin n) (x : Nat) (z : Int) : Option Int :=
  if c.relationshipTotal = 0 then some z
  else
    addWhere (fun i => i != o && (c.members i).hasAudio && (c.members i).excluded (c.members o))
      (fun i => -(frames i x).toInt) (List.finRange n) z

/-- Sample `x` of the frame for `o`, `none` where an `int` has no room for it. -/
def mixed (o : Fin n) (x : Nat) : Option Int16 :=
  if c.ready then
    if (c.members o).canHear then
      (c.mainFrame frames x).bind fun z => (c.minusOwn frames o x z).bind fun z =>
        (c.minusExcluded frames o x z).map fun z => Int16.ofInt (normalizeTo16bit z)
    else some (-1)
  else some (c.silence x)

/-! ## What is meant -/

/-- The sum of the samples of all that `o` is to hear. -/
def meant (o : Fin n) (x : Nat) : Int :=
  ∑ i with i ≠ o ∧ (c.members i).speaks x = true ∧ (c.members i).excluded (c.members o) = false,
    (frames i x).toInt

/-- Every sample for every member that can hear, whatever the frames hold. -/
def Exact : Prop :=
  ∀ (frames : Frames n) (o : Fin n), (c.members o).listens = true → ∀ x < c.bytes / 2,
    ∃ w, c.mixed frames o x = some w ∧ w.toInt = normalizeTo16bit (c.meant frames o x)

/-- What a conference must be like for `o` to get the sum that is meant. -/
structure Right (o : Fin n) : Prop where
  audible : ∀ x < c.bytes / 2, (∃ i, (c.members i).hasAudio = true) ∨ c.silence x = 0
  own : (c.members o).hasAudio = true → c.bytes / 2 ≤ (c.members o).read / 2
  others : ∀ i ≠ o, (c.members i).hasAudio = true → (c.members i).excluded (c.members o) = true →
    ∀ x < c.bytes / 2, (c.members i).running = true ∧ x < (c.members i).read / 2
  few : ∀ x < c.bytes / 2, (List.finRange n).countP (fun i => (c.members i).speaks x) ≤ 65536

/-! ## What the code computes -/

/-- The members whose frames are taken away again because of a relationship. -/
def removes (o i : Fin n) : Bool :=
  i != o && (c.members i).hasAudio && (c.members i).excluded (c.members o)

/-- The members that are added and are not `o`. -/
def added (o : Fin n) (x : Nat) (i : Fin n) : Bool := (c.members i).speaks x && i != o

def sample (x : Nat) (i : Fin n) : Int := (frames i x).toInt

theorem ready_iff : c.ready = true ↔ ∃ i, (c.members i).hasAudio = true := by
  simp [ready]

/-- Without relationships nobody is excluded. -/
theorem removes_eq_false (hnone : c.relationshipTotal = 0) (o i : Fin n) : c.removes o i = false := by
  have hnil : ∀ j, (c.members j).relationships = [] := fun j => by
    by_contra h
    exact c.counted j h hnone
  unfold removes Member.excluded Member.forbidsSpeak Member.forbidsHear
  rw [hnil i, hnil o]
  simp

theorem normalizeTo16bit_toInt (z : Int) :
    (Int16.ofInt (normalizeTo16bit z)).toInt = normalizeTo16bit z := by
  apply Int16.toInt_ofInt_of_le
  · unfold normalizeTo16bit
    split <;> [decide; split] <;> omega
  · unfold normalizeTo16bit
    split <;> [decide; split] <;> omega

theorem minusExcluded_eq (o : Fin n) (x : Nat) (z : Int) {w : Int}
    (h : c.minusExcluded frames o x z = some w) :
    w = z - sumWhere (c.removes o) (sample frames x) (List.finRange n) := by
  unfold minusExcluded at h
  split at h
  next hnone =>
    have hzero : sumWhere (c.removes o) (sample frames x) (List.finRange n) = 0 := by
      unfold sumWhere
      simp [c.removes_eq_false hnone]
    rw [hzero, Int.sub_zero, Option.some.inj h]
  next =>
    have := eq_of_addWhere _ _ h
    rwa [sumWhere_neg, ← Int.sub_eq_add_neg] at this

/-- Whatever a member gets is the sum of what was added, without what was taken away. -/
theorem mixed_eq {o : Fin n} (hready : c.ready = true) (hhears : (c.members o).canHear = true)
    {x : Nat} {w : Int16} (h : c.mixed frames o x = some w) :
    let total := sumWhere (fun i => (c.members i).speaks x) (sample frames x) (List.finRange n)
    InRange total ∧ w.toInt = normalizeTo16bit
      (total - (if (c.members o).hasAudio && decide (x ≤ (c.members o).read / 2) then
        sample frames x o else 0) -
        sumWhere (c.removes o) (sample frames x) (List.finRange n)) := by
  unfold mixed at h
  rw [if_pos hready, if_pos hhears] at h
  obtain ⟨z₁, hmain, h⟩ := Option.bind_eq_some_iff.mp h
  obtain ⟨z₂, hown, h⟩ := Option.bind_eq_some_iff.mp h
  obtain ⟨z₃, hexcluded, rfl⟩ := Option.map_eq_some_iff.mp h
  have hz₁ : z₁ = sumWhere (fun i => (c.members i).speaks x) (sample frames x) (List.finRange n) := by
    rw [eq_of_addWhere _ _ hmain, Int.zero_add]
    rfl
  have hz₂ : z₂ = z₁ -
      if (c.members o).hasAudio && decide (x ≤ (c.members o).read / 2) then
        sample frames x o else 0 := by
    unfold minusOwn at hown
    split at hown
    next htest => rw [if_pos htest, (eq_of_add hown).1, Int.sub_eq_add_neg]; rfl
    next htest => rw [if_neg htest, Int.sub_zero, Option.some.inj hown]
  refine ⟨hz₁ ▸ inRange_of_addWhere _ _ (by decide) hmain, ?_⟩
  rw [normalizeTo16bit_toInt, c.minusExcluded_eq frames o x z₂ hexcluded, hz₂, hz₁]

/-! ## The sum is the one that is meant -/

variable {c} {o : Fin n} {x : Nat}

theorem sumWhere_kept (o : Fin n) (x : Nat) :
    sumWhere (fun i => c.added o x i && !c.removes o i) (sample frames x) (List.finRange n) =
      c.meant frames o x := by
  unfold meant
  rw [sumWhere_finRange, Finset.sum_filter]
  refine Finset.sum_congr rfl fun i _ => ?_
  have htest : (c.added o x i && !c.removes o i) = true ↔
      i ≠ o ∧ (c.members i).speaks x = true ∧ (c.members i).excluded (c.members o) = false := by
    have haudio : (c.members i).speaks x = true → (c.members i).hasAudio = true := fun h =>
      (Bool.and_eq_true_iff.mp (Bool.and_eq_true_iff.mp h).1).2
    unfold added removes
    cases hspeaks : (c.members i).speaks x with
    | false => simp
    | true =>
      rw [haudio hspeaks]
      by_cases hi : i = o <;> simp [hi]
  exact if_congr htest rfl rfl

/-- One member has the sample 1 throughout, the others 0. -/
def spike (j : Fin n) : Frames n := fun i _ => if i = j then 1 else 0

theorem sumWhere_spike (g : Fin n → Bool) (j : Fin n) (x : Nat) :
    sumWhere g (sample (spike j) x) (List.finRange n) = if g j then 1 else 0 := by
  rw [sumWhere_finRange, Finset.sum_eq_single j]
  · simp [sample, spike]
  · intro i _ hi
    simp [sample, spike, hi]
  · exact fun hj => absurd (Finset.mem_univ j) hj

theorem meant_spike (o j : Fin n) (x : Nat) :
    c.meant (spike j) o x = if c.added o x j && !c.removes o j then 1 else 0 := by
  rw [← sumWhere_kept, sumWhere_spike]

/-- With these frames, what is added for `j` is what is taken away for it, or it is to be heard. -/
theorem Exact.spike (h : c.Exact) (hlistens : (c.members o).listens = true) (hx : x < c.bytes / 2)
    (hready : c.ready = true) (j : Fin n) : (if (c.members j).speaks x then 1 else 0) -
        (if (c.members o).hasAudio && decide (x ≤ (c.members o).read / 2) then if o = j then 1
          else 0 else 0) -
        (if c.removes o j then 1 else 0) =
      (if c.added o x j && !c.removes o j then 1 else 0 : Int) := by
  obtain ⟨w, hw, hmeant⟩ := h (Conf.spike j) o hlistens x hx
  have hhears : (c.members o).canHear = true := (Bool.and_eq_true_iff.mp hlistens).2
  have hmixed := (c.mixed_eq (Conf.spike j) hready hhears hw).2
  rw [hmeant, meant_spike, sumWhere_spike, sumWhere_spike] at hmixed
  have hsample : sample (Conf.spike j) x o = if o = j then 1 else 0 := by
    unfold sample Conf.spike
    split <;> rfl
  rw [hsample] at hmixed
  unfold normalizeTo16bit at hmixed
  split_ifs at hmixed ⊢ <;> omega

theorem Exact.audible (h : c.Exact) (hlistens : (c.members o).listens = true) (hx : x < c.bytes / 2)
    (hready : ¬c.ready = true) : c.silence x = 0 := by
  have hsilent : ∀ i, (c.members i).hasAudio = false := fun i =>
    Bool.eq_false_iff.mpr fun hi => hready (c.ready_iff.mpr ⟨i, hi⟩)
  obtain ⟨w, hw, hmeant⟩ := h (fun _ _ => 0) o hlistens x hx
  have hzero : c.meant (fun _ _ => 0) o x = 0 := Finset.sum_eq_zero fun _ _ => rfl
  unfold mixed at hw
  rw [if_neg hready] at hw
  rw [Option.some.inj hw]
  apply Int16.toInt_inj.mp
  rw [hmeant, hzero]
  rfl

/-- All samples as low as can be: the sum of the main frame shows how many there are. -/
theorem Exact.few (h : c.Exact) (hlistens : (c.members o).listens = true) (hx : x < c.bytes / 2)
    (hready : c.ready = true) : (List.finRange n).countP (fun i => (c.members i).speaks x) ≤ 65536 := by
  obtain ⟨w, hw, -⟩ := h (fun _ _ => -32768) o hlistens x hx
  have hhears : (c.members o).canHear = true := (Bool.and_eq_true_iff.mp hlistens).2
  have hrange := (c.mixed_eq _ hready hhears hw).1
  have hsum := sumWhere_le (fun i => (c.members i).speaks x) (sample (fun _ _ => -32768) x)
    (b := -32768) (fun _ => le_refl _) (List.finRange n)
  have := hrange.1
  omega

theorem Exact.right (h : c.Exact) (hlistens : (c.members o).listens = true) : c.Right o where
  audible := by
    intro x hx
    by_cases hready : c.ready = true
    · exact .inl (c.ready_iff.mp hready)
    · exact .inr (h.audible hlistens hx hready)
  own := by
    intro haudio
    by_contra hshort
    -- the sample behind those that were read is taken away and was not added
    have hspike := h.spike hlistens (Nat.lt_of_not_le hshort) (c.ready_iff.mpr ⟨o, haudio⟩) o
    simp [Member.speaks, added, removes, haudio] at hspike
  others := by
    intro i hne haudio hexcluded x hx
    have hspike := h.spike hlistens hx (c.ready_iff.mpr ⟨i, haudio⟩) i
    have hremoves : c.removes o i = true := by simp [removes, hne, haudio, hexcluded]
    have hspeaks : (c.members i).speaks x = true := by
      by_contra hnot
      simp [hremoves, hnot, Ne.symm hne] at hspike
    obtain ⟨hrunning, hread⟩ := Bool.and_eq_true_iff.mp hspeaks
    exact ⟨(Bool.and_eq_true_iff.mp hrunning).1, of_decide_eq_true hread⟩
  few := by
    intro x hx
    by_cases hready : c.ready = true
    · exact h.few hlistens hx hready
    · have hnone : ∀ i, ¬(c.members i).speaks x = true := fun i hi =>
        hready (c.ready_iff.mpr ⟨i, (Bool.and_eq_true_iff.mp (Bool.and_eq_true_iff.mp hi).1).2⟩)
      rw [List.countP_eq_zero.mpr fun i _ => hnone i]
      exact Nat.zero_le _

end Conf

/-! ## A member that leaves -/

end FreeSwitch.Conference
