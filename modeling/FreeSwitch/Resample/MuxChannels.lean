import Mathlib.Tactic

/-!
# `switch_mux_channels` — `src/switch_resample.c`

To have more channels than before, the samples are copied behind themselves in the same buffer, and then
written out from the copy, each one several times. The copy begins at `samples` and is read one sample
at a time, while the writing begins at 0 and goes on `channels` samples at a time: for more than two
channels it comes to the copy before the copy is read.

* **`expand_eq`** — the two loops as one sequence of writes, `expanded`.
* **`Unread.step`** — what a write keeps as long as it does not overtake.
* **`Blank.step`** — what the writes are after it has.
* **`mux_mono_iff`** — the sizes for which every sample comes out `n` times; **`mux_three`** — one for
  which not.
-/

namespace FreeSwitch.Resample

abbrev Samples := Nat → Int16

/-! ## The code -/

/-- `switch_normalize_to_16bit`, and the conversion behind it. -/
def normalized (z : Int) : Int16 :=
  Int16.ofInt (if z > 32767 then 32767 else if z < -32768 then -32768 else z)

/-- The sum over the channels of sample `i` that `use` picks. -/
def channelSum (data : Samples) (origChannels i : Nat) (use : Nat → Bool) : Int :=
  (List.range origChannels).foldl
    (fun z j => if use j then z + (data (i * origChannels + j)).toInt else z) 0

def mixMono (data : Samples) (samples origChannels : Nat) : Samples :=
  (List.range samples).foldl
    (fun data i => Function.update data i (normalized (channelSum data origChannels i fun _ => true)))
      data

/-- `mark_buf` is `2 * i`. -/
def mixStereo (data : Samples) (samples origChannels : Nat) : Samples :=
  (List.range samples).foldl (fun data i =>
    let zLeft := channelSum data origChannels i fun j => j % 2 ≠ 0
    let zRight := channelSum data origChannels i fun j => j % 2 = 0
    Function.update (Function.update data (2 * i) (normalized zLeft)) (2 * i + 1) (normalized zRight))
      data

/-- `data[i+len] = data[i]`. -/
def copyBehind (data : Samples) (len : Nat) : Samples :=
  (List.range len).foldl (fun data i => Function.update data (i + len) (data i)) data

/-- `data[k++] = data[i + samples]`, with a `k` of 32 bits. -/
def expand (data : Samples) (samples channels : Nat) : Samples :=
  ((List.range samples).foldl (fun s i =>
    (List.range channels).foldl (fun (s : Samples × Nat) _ =>
      (Function.update s.1 s.2 (s.1 (i + samples)), (s.2 + 1) % 2 ^ 32)) s) (data, 0)).1

/-- The assertion is `channels < 11`; `len` has 32 bits. -/
def switchMuxChannels (data : Samples) (samples origChannels channels : Nat) : Samples :=
  if origChannels > channels then
    if channels = 1 then mixMono data samples origChannels
    else if channels = 2 then mixStereo data samples origChannels
    else data
  else if origChannels < channels then
    expand (copyBehind data (samples * origChannels % 2 ^ 32)) samples channels
  else data

/-! ## The copy -/

theorem copyBehind_apply (data : Samples) (len q : Nat) :
    copyBehind data len q = if len ≤ q ∧ q < 2 * len then data (q - len) else data q := by
  have hfirst : ∀ m ≤ len, ∀ q,
      (List.range m).foldl (fun data i => Function.update data (i + len) (data i)) data q
      = if len ≤ q ∧ q < len + m then data (q - len) else data q := by
    intro m
    induction m with
    | zero =>
      intro _ q
      rw [if_neg (by omega)]
      rfl
    | succ m ih =>
      intro hm q
      rw [List.range_succ, List.foldl_append]
      show Function.update _ (m + len) _ q = _
      by_cases hq : q = m + len
      · rw [hq, Function.update_self, ih (by omega) m, if_neg (by omega), if_pos (by omega),
          Nat.add_sub_cancel]
      · rw [Function.update_of_ne hq, ih (by omega) q]
        exact if_congr (by omega) rfl rfl
  rw [copyBehind, hfirst len le_rfl]
  exact if_congr (by omega) rfl rfl

/-! ## One write after the other -/

/-- The buffer after `t` writes. -/
def expanded (data : Samples) (samples channels : Nat) : Nat → Samples
  | 0 => data
  | t + 1 => Function.update (expanded data samples channels t) (t % 2 ^ 32)
      (expanded data samples channels t (t / channels + samples))

theorem expand_eq (data : Samples) (samples : Nat) {channels : Nat} (h : 0 < channels) :
    expand data samples channels = expanded data samples channels (samples * channels) := by
  have hinner : ∀ i m, m ≤ channels → (List.range m).foldl (fun (s : Samples × Nat) _ =>
      (Function.update s.1 s.2 (s.1 (i + samples)), (s.2 + 1) % 2 ^ 32))
        (expanded data samples channels (i * channels), i * channels % 2 ^ 32)
      = (expanded data samples channels (i * channels + m), (i * channels + m) % 2 ^ 32) := by
    intro i m
    induction m with
    | zero => exact fun _ => rfl
    | succ m ih =>
      intro hm
      have hround : (i * channels + m) / channels = i := by
        rw [Nat.mul_comm, Nat.mul_add_div h, Nat.div_eq_of_lt (by omega), Nat.add_zero]
      rw [List.range_succ, List.foldl_append, ih (by omega)]
      show (Function.update _ _ _, _) = _
      rw [← Nat.add_assoc, expanded, hround, Nat.mod_add_mod]
  have houter : ∀ m,
      (List.range m).foldl (fun s i => (List.range channels).foldl (fun (s : Samples × Nat) _ =>
      (Function.update s.1 s.2 (s.1 (i + samples)), (s.2 + 1) % 2 ^ 32)) s) (data, 0)
      = (expanded data samples channels (m * channels), m * channels % 2 ^ 32) := by
    intro m
    induction m with
    | zero => rw [Nat.zero_mul]; rfl
    | succ m ih =>
      rw [List.range_succ, List.foldl_append, ih]
      show (List.range channels).foldl _ _ = _
      rw [hinner m channels le_rfl, Nat.add_mul, Nat.one_mul]
  rw [expand, houter]

theorem mux_mono (data : Samples) (samples : Nat) {n : Nat} (h : 1 < n) :
    switchMuxChannels data samples 1 n
      = expanded (copyBehind data (samples % 2 ^ 32)) samples n (samples * n) := by
  rw [switchMuxChannels, if_neg (by omega), if_pos h, Nat.mul_one, expand_eq _ _ (by omega)]

section Writes

variable {data mem : Samples} {samples n : Nat}

/-! ## Writing that does not overtake -/

/-- After `t` writes of `n` for each sample: what is written is right, and so is what is still to be
read. -/
structure Unread (data mem : Samples) (samples n t : Nat) : Prop where
  written : ∀ q < t, mem q = data (q / n)
  unread : ∀ i < samples, t / n ≤ i → mem (i + samples) = data i

/-- A write comes no further than the place that is read in the same round. -/
theorem Unread.step {t : Nat} (h : Unread data mem samples n t) (hn : 0 < n)
    (hahead : ∀ i < samples, i * n ≤ i + samples) (ht : t < samples * n) :
    Unread data (Function.update mem t (mem (t / n + samples))) samples n (t + 1) := by
  have hround : t / n < samples := Nat.div_lt_of_lt_mul (by rwa [Nat.mul_comm])
  rw [h.unread (t / n) hround le_rfl]
  constructor
  · intro q hq
    rw [Function.update_apply]
    split
    · next heq => rw [heq]
    · exact h.written q (by omega)
  · intro i hi hle
    have hle' : t / n ≤ i := (Nat.div_le_div_right (Nat.le_succ t)).trans hle
    rw [Function.update_apply]
    split
    · next heq =>
      -- the place of sample `i` is written in the round of sample `i`
      have hi' := hahead i hi
      have hge : i ≤ t / n := (Nat.le_div_iff_mul_le hn).mpr (by omega)
      rw [le_antisymm hle' hge]
    · exact h.unread i hi hle'

theorem expanded_right (hn : 0 < n) (hahead : ∀ i < samples, i * n ≤ i + samples)
    (hsize : samples * n ≤ 2 ^ 32) (hcopy : ∀ i < samples, mem (i + samples) = data i) :
    ∀ t ≤ samples * n, Unread data (expanded mem samples n t) samples n t := by
  intro t
  induction t with
  | zero => exact fun _ => ⟨fun q hq => absurd hq (Nat.not_lt_zero q), fun i hi _ => hcopy i hi⟩
  | succ t ih =>
    intro ht
    rw [expanded, Nat.mod_eq_of_lt (by omega)]
    exact (ih (by omega)).step hn hahead (by omega)

/-! ## Writing that overtakes -/

/-- Behind the samples there are zeros only, but for the place of the copy of the last one, before it is
written. -/
def Blank (mem : Samples) (samples t : Nat) : Prop :=
  ∀ q, samples ≤ q → q ≠ 2 * samples - 1 ∨ q < t → mem q = 0

theorem Blank.step {t : Nat} (h : Blank mem samples t) (hn : 0 < n)
    (hlast : 2 * samples - 1 < (samples - 1) * n) (hsmall : 2 * samples - 1 < 2 ^ 32) :
    Blank (Function.update mem (t % 2 ^ 32) (mem (t / n + samples))) samples (t + 1) := by
  -- the place is not that of the last sample, or was written before
  have hzero : mem (t / n + samples) = 0 := by
    refine h _ (Nat.le_add_left _ _) ?_
    by_cases hround : t / n + samples = 2 * samples - 1
    · have hge : (samples - 1) * n ≤ t := (Nat.le_div_iff_mul_le hn).mp (by omega)
      exact Or.inr (by omega)
    · exact Or.inl hround
  intro q hq hor
  rw [hzero, Function.update_apply]
  split
  · rfl
  · next hne =>
    refine h q hq ?_
    by_cases hqlast : q = 2 * samples - 1
    · have hne' : q ≠ t := fun heq => hne (by rw [← heq, Nat.mod_eq_of_lt (by omega)])
      exact Or.inr (by omega)
    · exact Or.inl hqlast

theorem expanded_blank (h : Blank mem samples 0) (hn : 0 < n)
    (hlast : 2 * samples - 1 < (samples - 1) * n)
    (hsmall : 2 * samples - 1 < 2 ^ 32) (t : Nat) : Blank (expanded mem samples n t) samples t := by
  induction t with
  | zero => exact h
  | succ t ih => exact ih.step hn hlast hsmall

/-- A counter of 32 bits does not come to the places behind. -/
theorem expanded_of_ge {q : Nat} (hq : 2 ^ 32 ≤ q) (t : Nat) : expanded mem samples n t q = mem q := by
  induction t with
  | zero => rfl
  | succ t ih =>
    have hlt : t % 2 ^ 32 < 2 ^ 32 := Nat.mod_lt _ (by decide)
    rw [expanded, Function.update_of_ne (by omega), ih]

end Writes

/-- A buffer in which the last sample alone is not 0. -/
def lastOne (samples : Nat) : Samples := fun q => if q = samples - 1 then 1 else 0

theorem blank_copyBehind {samples : Nat} (h : 2 ≤ samples) :
    Blank (copyBehind (lastOne samples) (samples % 2 ^ 32)) samples 0 := by
  intro q hq hor
  rw [copyBehind_apply, lastOne, lastOne]
  split
  · exact if_neg (by omega)
  · exact if_neg (by omega)

/-- Mono samples come out as `n` equal channels exactly if there are two channels and the counter of 32
bits is enough for them, or if there is at most one sample, or for two samples and three channels. -/
theorem mux_mono_iff {n : Nat} (hn : 1 < n) (hn' : n ≤ 10) (samples : Nat) :
    (∀ data : Samples, ∀ q < samples * n, switchMuxChannels data samples 1 n q = data (q / n))
      ↔ n = 2 ∧ samples ≤ 2 ^ 31 ∨ samples ≤ 1 ∨ n = 3 ∧ samples = 2 := by
  constructor
  · intro hall
    by_contra hnot
    have htwo : 2 ≤ samples := by omega
    have hsplit : samples * n = (samples - 1) * n + n := by
      conv_lhs => rw [← Nat.sub_add_cancel (show 1 ≤ samples by omega), Nat.add_mul, Nat.one_mul]
    have hplace : 2 * samples ≤ samples * n := by rw [Nat.mul_comm]; exact Nat.mul_le_mul_left _ hn
    -- of a frame that is silent but for its last sample, that sample is lost
    have hgoal := hall (lastOne samples) (samples * n - 2) (by omega)
    have hblank := blank_copyBehind htwo
    have hone : lastOne samples ((samples * n - 2) / n) = 1 := by
      have hround : (samples * n - 2) / n = samples - 1 := by
        rw [hsplit, Nat.add_sub_assoc hn, Nat.mul_comm, Nat.mul_add_div (by omega),
          Nat.div_eq_of_lt (by omega), Nat.add_zero]
      rw [hround]
      exact if_pos rfl
    have hzero : switchMuxChannels (lastOne samples) samples 1 n (samples * n - 2) = 0 := by
      rw [mux_mono _ _ hn]
      by_cases hsmall : 2 * samples - 1 < 2 ^ 32
      · have hthree : (samples - 1) * 3 ≤ (samples - 1) * n := Nat.mul_le_mul_left _ (by omega)
        have hfour : 4 ≤ n → (samples - 1) * 4 ≤ (samples - 1) * n := fun h => Nat.mul_le_mul_left _ h
        have hlast : 2 * samples - 1 < (samples - 1) * n := by omega
        exact expanded_blank hblank (by omega) hlast hsmall _ _ (by omega) (Or.inr (by omega))
      · have hthree : 3 ≤ n → samples * 3 ≤ samples * n := fun h => Nat.mul_le_mul_left _ h
        have hapart : samples * n - 2 ≠ 2 * samples - 1 := by
          by_cases htwo : n = 2
          · subst htwo
            omega
          · omega
        rw [expanded_of_ge (by omega)]
        exact hblank _ (by omega) (Or.inl hapart)
    rw [hone, hzero] at hgoal
    exact absurd hgoal (by decide)
  · intro hcond data q hq
    -- what is written never overtakes what is still to be read
    have hahead : ∀ i < samples, i * n ≤ i + samples := by
      intro i hi
      rcases hcond with ⟨rfl, -⟩ | hle | ⟨rfl, rfl⟩ <;> nlinarith
    have hsize : samples * n ≤ 2 ^ 32 := by
      rcases hcond with ⟨rfl, hle⟩ | hle | ⟨rfl, rfl⟩ <;> nlinarith
    have hlen : samples % 2 ^ 32 = samples := Nat.mod_eq_of_lt (by nlinarith)
    rw [mux_mono data samples hn, hlen]
    refine (expanded_right (by omega) hahead hsize (fun i hi => ?_) _ le_rfl).written q hq
    rw [copyBehind_apply, if_pos (by omega), Nat.add_sub_cancel]

/-- Three samples for three channels: the last one is lost. -/
theorem mux_three : ¬∀ q < 3 * 3, switchMuxChannels (lastOne 3) 3 1 3 q = lastOne 3 (q / 3) := by
  decide +kernel

theorem mux_mono_iff_stereo :
    160 ≤ 2 ^ 31 ∧ ∀ data : Samples, ∀ q < 160 * 2, switchMuxChannels data 160 1 2 q = data (q / 2) :=
  ⟨by decide, (mux_mono_iff (by decide) (by decide) 160).mpr (by decide)⟩

end FreeSwitch.Resample
