import FreeSwitch.Buffer.Fifo

/-!
# `switch_buffer` — the limit of a dynamic buffer

`switch_buffer_write` tests `max_len` only where it grows the block, and it grows by at
least `blocksize`, and always by the whole length of the write although part of the block
may be free. So the block can end up larger than `max_len`, and later writes that fit into
it are never tested.

* **`used_le_of_datalen_le`** — as long as the block has not outgrown the limit, the content
  has not either.
* **`dynamic_limit_kept_iff`** — for which creation parameters no sequence of calls can pass
  the limit.
-/

namespace FreeSwitch.Buffer

open Runs

/-! ## What the limit promises of one state -/

/-- The content is within the limit, and the free space is the plain difference. -/
def UsedWithin (b : SwitchBuffer) : Prop :=
  b.used ≤ b.maxLen ∧ switchBufferFreespace b = b.maxLen - b.used

/-- A write that succeeds in this state was promised its space. -/
def WritesWithin (b : SwitchBuffer) : Prop :=
  ∀ mem src b' w, switchBufferWrite mem b src = some (b', w) → w ≠ 0 →
    src.bytes.length ≤ switchBufferFreespace b

variable {b : SwitchBuffer}

theorem freespace_eq (hdyn : b.dynamic = true) (hpos : b.maxLen ≠ 0)
    (hlt : b.maxLen < 2 ^ 64) (hused : b.used ≤ b.maxLen) :
    switchBufferFreespace b = b.maxLen - b.used := by
  unfold switchBufferFreespace
  rw [if_pos hdyn, if_pos hpos, sizeSub_eq hused hlt]

/-! ## Calls as sequences of elementary ones

`zwrite` and `slide_write` write a second time only when the first write returned 0, so a
property of the state before an elementary call (`P`) has to come back only then. -/

section Elementary

variable {P Q : SwitchBuffer → Prop}
  (hweak : ∀ b, P b → Q b)
  (hpart : ∀ b, P b → b.partition = false)
  (hwrite : ∀ b mem src b' w, P b → switchBufferWrite mem b src = some (b', w) →
    Q b' ∧ (w = 0 → P b'))
  (htoss : ∀ b n, P b → P (switchBufferToss b n).1)
  (hzero : ∀ b b', P b → switchBufferZero b = some b' → P b')

include hpart hwrite hzero in
theorem zwrite_preserves {b' : SwitchBuffer} {mem₁ mem₂ : Allocator} {src : Object} {w : Nat}
    (hb : P b) (h : switchBufferZwrite mem₁ mem₂ b src = some (b', w)) : Q b' := by
  simp only [switchBufferZwrite, hpart b hb, Bool.false_eq_true, if_false,
    Option.bind_eq_bind, Option.bind_eq_some_iff] at h
  obtain ⟨⟨b₁, w₁⟩, hw₁, h⟩ := h
  obtain ⟨hpost₁, hpre₁⟩ := hwrite b mem₁ src b₁ w₁ hb hw₁
  by_cases hzero₁ : w₁ = 0
  · rw [if_pos hzero₁] at h
    obtain ⟨b₂, hb₂, h⟩ := Option.bind_eq_some_iff.mp h
    exact (hwrite b₂ mem₂ src b' w (hzero b₁ b₂ (hpre₁ hzero₁) hb₂) h).1
  · rw [if_neg hzero₁] at h
    cases h
    exact hpost₁

include hpart hwrite htoss in
theorem slideWrite_preserves {b' : SwitchBuffer} {mem₁ mem₂ : Allocator} {src : Object}
    {w : Nat} (hb : P b) (h : switchBufferSlideWrite mem₁ mem₂ b src = some (b', w)) : Q b' := by
  simp only [switchBufferSlideWrite, hpart b hb, Bool.false_eq_true, if_false,
    Option.bind_eq_bind, Option.bind_eq_some_iff] at h
  obtain ⟨⟨b₁, w₁⟩, hw₁, h⟩ := h
  obtain ⟨hpost₁, hpre₁⟩ := hwrite b mem₁ src b₁ w₁ hb hw₁
  by_cases hzero₁ : w₁ = 0
  · rw [if_pos hzero₁] at h
    exact (hwrite _ mem₂ src b' w (htoss b₁ _ (hpre₁ hzero₁)) h).1
  · rw [if_neg hzero₁] at h
    cases h
    exact hpost₁

theorem peek_fst (b : SwitchBuffer) (n : Nat) : (switchBufferPeek b n).1 = b := by
  unfold switchBufferPeek
  split
  · exact set_used_zero (by assumption)
  · rfl

include hweak hpart hwrite htoss hzero in
theorem step_preserves {b' : SwitchBuffer} {label : Call × Reply} (hb : P b)
    (hstep : Step b label b') : Q b' := by
  obtain ⟨mem₁, mem₂, h⟩ := hstep
  obtain ⟨c, reply⟩ := label
  cases c with
  | write src =>
    obtain ⟨⟨b₁, w⟩, hw, heq⟩ := Option.map_eq_some_iff.mp h
    cases heq
    exact (hwrite b mem₁ src b' w hb hw).1
  | zwrite src =>
    obtain ⟨⟨b₁, w⟩, hw, heq⟩ := Option.map_eq_some_iff.mp h
    cases heq
    exact zwrite_preserves hpart hwrite hzero hb hw
  | slideWrite src =>
    obtain ⟨⟨b₁, w⟩, hw, heq⟩ := Option.map_eq_some_iff.mp h
    cases heq
    exact slideWrite_preserves hpart hwrite htoss hb hw
  | read n =>
    cases h
    rw [read_fst]
    exact hweak _ (htoss b n hb)
  | peek n =>
    cases h
    rw [peek_fst]
    exact hweak _ hb
  | toss n =>
    cases h
    exact hweak _ (htoss b n hb)
  | zero =>
    obtain ⟨b₁, hz, heq⟩ := Option.map_eq_some_iff.mp h
    cases heq
    exact hweak _ (hzero b b' hb hz)

end Elementary

/-! ## Within the limit as long as the block is -/

/-- A well-formed dynamic buffer with limit `limit` and block size `block`. -/
structure Limited (limit block : Nat) (b : SwitchBuffer) : Prop where
  wf : Wf b
  dynamic : b.dynamic = true
  maxLen : b.maxLen = limit
  blocksize : b.blocksize = block

variable {b' : SwitchBuffer} {limit block : Nat}

theorem Limited.of_sameParams (h : Limited limit block b)
    (hwf : Wf b') (hp : SameParams b b') : Limited limit block b' :=
  ⟨hwf, hp.dynamic.trans h.dynamic, hp.maxLen.trans h.maxLen, hp.blocksize.trans h.blocksize⟩

theorem Limited.toss (h : Limited limit block b) (n : Nat) :
    Limited limit block (switchBufferToss b n).1 := by
  obtain ⟨hwf, -, hp, -⟩ := toss_spec h.wf n
  exact h.of_sameParams hwf hp

theorem Limited.zero (h : Limited limit block b)
    (hz : switchBufferZero b = some b') :
    Limited limit block b' ∧ b'.used = 0 ∧ b'.datalen = b.datalen := by
  obtain ⟨b₁, hz₁, hwf, -, hp, hused, hdatalen⟩ := zero_spec h.wf
  obtain rfl : b₁ = b' := Option.some.inj (hz₁.symm.trans hz)
  exact ⟨h.of_sameParams hwf hp, hused, hdatalen⟩

theorem Limited.write {mem : Allocator} {src : Object}
    {w : Nat} (h : Limited limit block b) (hw : switchBufferWrite mem b src = some (b', w)) :
    Limited limit block b' ∧ WriteResult mem b src.bytes b' w := by
  obtain ⟨b₁, w₁, hw₁, hwf, hp, hres⟩ := write_cases h.wf mem src
  obtain ⟨rfl, rfl⟩ : b₁ = b' ∧ w₁ = w := by
    rw [hw] at hw₁
    simpa [eq_comm] using hw₁
  exact ⟨h.of_sameParams hwf hp, hres⟩

/-- What a write adds lies in the block as it was, or within the limit. -/
theorem WriteResult.used_le {mem : Allocator}
    {src : List UInt8} {w : Nat} (hpos : 0 < limit) (h : Limited limit block b)
    (hdatalen : b.datalen ≤ limit) (hres : WriteResult mem b src b' w) : b'.used ≤ limit := by
  have := h.wf.tally; have := h.wf.bound; have := h.maxLen
  cases hres with
  | refused _ _ hused _ _ _ => omega
  | fitted _ _ hused _ hfit => omega
  | grown _ _ hused _ hlimit _ => omega

theorem Limited.writesWithin (hpos : 0 < limit)
    (hlt : limit < 2 ^ 64) (h : Limited limit block b) (hdatalen : b.datalen ≤ limit) :
    WritesWithin b := by
  intro mem src b' w hw hw0
  obtain ⟨-, hres⟩ := h.write hw
  have := h.wf.tally; have := h.wf.bound; have hmax := h.maxLen
  rw [freespace_eq h.dynamic (by omega) (by omega) (by omega)]
  cases hres with
  | refused hw' _ _ _ _ _ => exact absurd hw' hw0
  | fitted _ _ _ _ hfit => omega
  | grown _ _ _ _ hlimit _ => omega

theorem step_used_le (hpos : 0 < limit)
    {label : Call × Reply} (h : Limited limit block b) (hdatalen : b.datalen ≤ limit)
    (hstep : Step b label b') : Limited limit block b' ∧ b'.used ≤ limit := by
  refine step_preserves
    (P := fun b => Limited limit block b ∧ b.datalen ≤ limit)
    (Q := fun b => Limited limit block b ∧ b.used ≤ limit) ?_ ?_ ?_ ?_ ?_ ⟨h, hdatalen⟩ hstep
  · rintro b ⟨h, hd⟩
    have := h.wf.tally; have := h.wf.bound
    exact ⟨h, by omega⟩
  · rintro b ⟨h, -⟩
    exact h.wf.nonPartition
  · rintro b mem src b' w ⟨h, hd⟩ hw
    obtain ⟨h', hres⟩ := h.write hw
    refine ⟨⟨h', hres.used_le hpos h hd⟩, fun hw0 => ⟨h', ?_⟩⟩
    cases hres with
    | refused _ _ _ hdatalen _ _ => omega
    | fitted _ _ _ hdatalen _ => omega
    | grown hw' _ hused _ _ hshort =>
      -- a grown block received at least one byte, so the write did not return 0
      have := h.wf.tally; have := h.wf.bound
      omega
  · rintro b n ⟨h, hd⟩
    obtain ⟨-, -, -, -, -, hdatalen⟩ := toss_spec h.wf n
    exact ⟨h.toss n, by omega⟩
  · rintro b b' ⟨h, hd⟩ hz
    obtain ⟨h', -, hdatalen⟩ := h.zero hz
    exact ⟨h', by omega⟩

/-- In a run whose calls all find the block within the limit, the content is within the
limit in every state, the last one included. -/
theorem used_le_of_datalen_le (hpos : 0 < limit) {b₀ : SwitchBuffer}
    {labels : List (Call × Reply)} (h₀ : Limited limit block b₀) (hused₀ : b₀.used ≤ limit)
    (hrun : Run (Guarded (fun b _ => b.datalen ≤ b.maxLen) Step) b₀ labels b) :
    Limited limit block b ∧ b.used ≤ limit := by
  refine hrun.invariant (I := fun b => Limited limit block b ∧ b.used ≤ limit) ?_ ⟨h₀, hused₀⟩
  rintro b label b' ⟨h, -⟩ ⟨hdatalen, hstep⟩
  exact step_used_le hpos h (h.maxLen ▸ hdatalen) hstep

/-! ## Parameters under which the block never grows -/

/-- The block keeps the length it was created with. -/
structure Unsized (limit block start : Nat) (b : SwitchBuffer) : Prop where
  limited : Limited limit block b
  datalen : b.datalen = start

/-- If no write can grow a block of length `start`, no call changes the length. -/
theorem step_unsized {start : Nat}
    (hstuck : ∀ mem b src b' w, Unsized limit block start b → Limited limit block b' →
      WriteResult mem b src b' w → b'.datalen = start)
    {label : Call × Reply} (h : Unsized limit block start b)
    (hstep : Step b label b') : Unsized limit block start b' := by
  refine step_preserves (P := Unsized limit block start) (Q := Unsized limit block start)
    (fun _ h => h) (fun _ h => h.limited.wf.nonPartition) ?_ ?_ ?_ h hstep
  · intro b mem src b' w h hw
    obtain ⟨h', hres⟩ := h.limited.write hw
    have hd : Unsized limit block start b' := ⟨h', hstuck mem b src.bytes b' w h h' hres⟩
    exact ⟨hd, fun _ => hd⟩
  · intro b n h
    obtain ⟨-, -, -, -, -, hdatalen⟩ := toss_spec h.limited.wf n
    exact ⟨h.limited.toss n, hdatalen.trans h.datalen⟩
  · intro b b' h hz
    obtain ⟨h', -, hdatalen⟩ := h.limited.zero hz
    exact ⟨h', hdatalen.trans h.datalen⟩

/-- A block as long as the limit: what does not fit is over the limit. -/
theorem stuck_of_full (hpos : 0 < limit) (mem : Allocator) (b : SwitchBuffer)
    (src : List UInt8) (b' : SwitchBuffer) (w : Nat) (h : Unsized limit block limit b)
    (hres : WriteResult mem b src b' w) : b'.datalen = limit := by
  have hd := h.datalen; have hmax := h.limited.maxLen
  cases hres with
  | refused _ _ _ hdatalen _ _ => omega
  | fitted _ _ _ hdatalen _ => omega
  | grown _ _ _ _ hlimit hshort => omega

/-- A block size no object can have: every `realloc` is refused. -/
theorem stuck_of_huge_block {start : Nat} (mem : Allocator) (b : SwitchBuffer)
    (src : List UInt8) (b' : SwitchBuffer) (w : Nat) (h : Unsized limit block start b)
    (hhuge : ptrdiffMax < start + block) (hlt : start + block < 2 ^ 64)
    (h' : Limited limit block b') (hres : WriteResult mem b src b' w) : b'.datalen = start := by
  have hd := h.datalen; have hbs := h.limited.blocksize
  cases hres with
  | refused _ _ _ hdatalen _ _ => omega
  | fitted _ _ _ hdatalen _ => omega
  | grown _ _ _ hdatalen _ _ =>
    have hfits := h'.wf.fits
    have hnew : start + block ≤ newSize b src.length := by
      unfold newSize
      rw [sizeAdd_eq (a := b.datalen) (b := b.blocksize) (by omega)]
      split <;> omega
    omega

/-! ## A buffer without a block -/

/-- `start_len = 0`: `data` is `NULL`, and the first write or zero ends the process. -/
structure NullBuffer (limit : Nat) (b : SwitchBuffer) : Prop where
  null : b.data = none
  nonPartition : b.partition = false
  used : b.used = 0
  dynamic : b.dynamic = true
  maxLen : b.maxLen = limit

theorem NullBuffer.write_eq_none (h : NullBuffer limit b)
    (mem : Allocator) (src : Object) : switchBufferWrite mem b src = none := by
  unfold switchBufferWrite
  rw [h.nonPartition, h.null]
  rfl

theorem step_null {label : Call × Reply}
    (h : NullBuffer limit b) (hstep : Step b label b') : NullBuffer limit b' := by
  refine step_preserves (P := NullBuffer limit) (Q := NullBuffer limit)
    (fun _ h => h) (fun _ h => h.nonPartition) ?_ ?_ ?_ h hstep
  · intro b mem src b' w h hw
    rw [h.write_eq_none] at hw
    cases hw
  · intro b n h
    unfold switchBufferToss
    rw [if_pos (by rw [h.used]; omega), set_used_zero (by rw [h.used]; omega)]
    exact h
  · intro b b' h hz
    unfold switchBufferZero at hz
    rw [h.null] at hz
    cases hz

/-! ## Passing the limit -/

/-- `n` zero bytes. -/
def zeros (n : Nat) (h : n ≤ ptrdiffMax) : Object :=
  ⟨List.replicate n 0, by rw [List.length_replicate]; exact h⟩

theorem zeros_length (n : Nat) (h : n ≤ ptrdiffMax) : (zeros n h).bytes.length = n :=
  List.length_replicate

/-- An allocator that grants every request it may grant. -/
def granting : Allocator := fun _ => some fun _ => 0

theorem Limited.step_write (h : Limited limit block b) (src : Object) :
    ∃ b' w, Step b (.write src, { ret := w }) b' ∧ Limited limit block b'
      ∧ WriteResult granting b src.bytes b' w := by
  obtain ⟨b', w, hw, hwf, hp, hres⟩ := write_cases h.wf granting src
  exact ⟨b', w, ⟨granting, granting, by simp [perform, hw]⟩, h.of_sameParams hwf hp, hres⟩

/-- From a block of `start < limit` bytes, three writes pass the limit: one that leaves a
byte free, one that fills up to the limit but grows the block by its whole length, and one
more byte. -/
theorem exists_run_past_limit {start : Nat} {b₀ : SwitchBuffer} (h₀ : Limited limit block b₀)
    (hused : b₀.used = 0) (hdatalen : b₀.datalen = start) (hpos : 0 < start)
    (hlt : start < limit) (hobj : limit < ptrdiffMax) (hblock : block < 2 ^ 64)
    (hgrow : start + block ≤ ptrdiffMax ∨ 2 ^ 64 ≤ start + block) :
    ∃ labels b, Run Step b₀ labels b ∧ b.maxLen = limit ∧ limit < b.used := by
  have hptr : ptrdiffMax = 2 ^ 63 - 1 := rfl
  obtain ⟨b₁, w₁, hs₁, h₁, hres₁⟩ := h₀.step_write (zeros (start - 1) (by omega))
  have hb₁ : b₁.used = start - 1 ∧ b₁.datalen = start := by
    cases hres₁ with
    | refused _ _ _ _ hshort _ => rw [zeros_length] at hshort; omega
    | fitted _ _ hu hd _ => rw [zeros_length] at hu; exact ⟨by omega, by omega⟩
    | grown _ _ _ _ _ hshort => rw [zeros_length] at hshort; omega
  obtain ⟨hu₁, hd₁⟩ := hb₁
  have hbs₁ := h₁.blocksize
  obtain ⟨b₂, w₂, hs₂, h₂, hres₂⟩ := h₁.step_write (zeros (limit - start + 1) (by omega))
  have hmax₁ := h₁.maxLen
  have hnew : newSize b₁ (limit - start + 1) ≤ ptrdiffMax := by
    unfold newSize
    rw [sizeAdd_eq (a := b₁.datalen) (b := limit - start + 1) (by omega)]
    rcases hgrow with hle | hwrap
    · rw [sizeAdd_eq (by omega)]
      split <;> omega
    · -- the sum with `blocksize` wraps to less than the block has
      have hsmall : sizeAdd b₁.datalen b₁.blocksize < b₁.datalen := by
        unfold sizeAdd
        omega
      split <;> omega
  have hb₂ : b₂.used = limit ∧ limit < b₂.datalen := by
    cases hres₂ with
    | refused _ _ _ _ _ hwhy =>
      rw [zeros_length] at hwhy
      exact absurd (hwhy h₁.dynamic (by omega) hnew) (by simp [granting])
    | fitted _ _ _ _ hfit => rw [zeros_length] at hfit; omega
    | grown _ _ hu hd _ _ =>
      rw [zeros_length] at hu hd
      have := add_le_newSize h₁.wf (show limit - start + 1 ≤ ptrdiffMax by omega)
      exact ⟨by omega, by omega⟩
  obtain ⟨hu₂, hd₂⟩ := hb₂
  obtain ⟨b₃, w₃, hs₃, h₃, hres₃⟩ := h₂.step_write (zeros 1 (by omega))
  refine ⟨_, b₃, .cons hs₁ (.cons hs₂ (.cons hs₃ (.nil b₃))), h₃.maxLen, ?_⟩
  cases hres₃ with
  | refused _ _ _ _ hshort _ => rw [zeros_length] at hshort; omega
  | fitted _ _ hu _ _ => rw [zeros_length] at hu; omega
  | grown _ _ hu _ _ _ => rw [zeros_length] at hu; omega

/-! ## The limit over all sequences of calls -/

/-- No sequence of calls on a buffer created with these parameters breaks the limit. -/
def LimitKept (blocksize startLen maxLen : UInt64) : Prop :=
  ∀ b₀ labels b, switchBufferCreateDynamic blocksize startLen maxLen = some b₀ →
    Run Step b₀ labels b → UsedWithin b ∧ WritesWithin b

theorem Limited.usedWithin (hpos : 0 < limit)
    (hlt : limit < 2 ^ 64) (h : Limited limit block b) (hused : b.used ≤ limit) : UsedWithin b := by
  have hmax := h.maxLen
  exact ⟨by omega, freespace_eq h.dynamic (by omega) (by omega) (by omega)⟩

section Parameters

variable {blocksize startLen maxLen : UInt64} (hmax : 0 < maxLen.toNat)

theorem limited_of_create {b₀ : SwitchBuffer} (hstart : 0 < startLen)
    (hcreate : switchBufferCreateDynamic blocksize startLen maxLen = some b₀) :
    Limited maxLen.toNat blocksize.toNat b₀ ∧ b₀.used = 0 ∧ b₀.datalen = startLen.toNat := by
  obtain ⟨hwf, -, hused, hdatalen, hmaxLen, hblock, hdyn⟩ := createDynamic_cases hstart hcreate
  exact ⟨⟨hwf, hdyn, hmaxLen, hblock⟩, hused, hdatalen⟩

include hmax in
theorem limitKept_of_null (hstart : startLen = 0) : LimitKept blocksize startLen maxLen := by
  intro b₀ labels b hcreate hrun
  have hlt := maxLen.toNat_lt
  have h₀ : NullBuffer maxLen.toNat b₀ := by
    subst hstart
    cases hcreate
    exact ⟨rfl, rfl, rfl, rfl, rfl⟩
  have h : NullBuffer maxLen.toNat b :=
    hrun.invariant (I := NullBuffer maxLen.toNat) (fun _ _ _ h hs => step_null h hs) h₀
  have hused := h.used; have hb := h.maxLen
  refine ⟨⟨by omega, freespace_eq h.dynamic (by omega) (by omega) (by omega)⟩, ?_⟩
  intro mem src b' w hw
  rw [h.write_eq_none] at hw
  cases hw

include hmax in
theorem limitKept_of_stuck (hstart : 0 < startLen) (hle : startLen.toNat ≤ maxLen.toNat)
    (hstuck : ∀ mem b src b' w, Unsized maxLen.toNat blocksize.toNat startLen.toNat b →
      Limited maxLen.toNat blocksize.toNat b' → WriteResult mem b src b' w → b'.datalen
        = startLen.toNat) :
    LimitKept blocksize startLen maxLen := by
  intro b₀ labels b hcreate hrun
  have hlt := maxLen.toNat_lt
  obtain ⟨h₀, -, hd₀⟩ := limited_of_create hstart hcreate
  have h : Unsized maxLen.toNat blocksize.toNat startLen.toNat b :=
    hrun.invariant (fun _ _ _ h hs => step_unsized hstuck h hs) ⟨h₀, hd₀⟩
  have hd := h.datalen; have htally := h.limited.wf.tally; have hbound := h.limited.wf.bound
  exact ⟨h.limited.usedWithin hmax hlt (by omega),
    h.limited.writesWithin hmax hlt (by omega)⟩

/-- No block is larger than an object can be, hence none larger than such a limit. -/
theorem limitKept_of_huge_limit (hstart : 0 < startLen) (hhuge : ptrdiffMax ≤ maxLen.toNat) :
    LimitKept blocksize startLen maxLen := by
  intro b₀ labels b hcreate hrun
  have hlt := maxLen.toNat_lt
  have hptr : ptrdiffMax = 2 ^ 63 - 1 := rfl
  obtain ⟨h₀, hused₀, -⟩ := limited_of_create hstart hcreate
  obtain ⟨h, hused⟩ : Limited maxLen.toNat blocksize.toNat b ∧ b.used ≤ maxLen.toNat := by
    refine hrun.invariant
      (I := fun b => Limited maxLen.toNat blocksize.toNat b ∧ b.used ≤ maxLen.toNat) ?_
      ⟨h₀, by omega⟩
    rintro b label b' ⟨h, -⟩ hstep
    exact step_used_le (by omega) h (h.wf.fits.trans hhuge) hstep
  exact ⟨h.usedWithin (by omega) hlt hused,
    h.writesWithin (by omega) hlt (h.wf.fits.trans hhuge)⟩

end Parameters

/-- **When the limit holds.** A run whose calls all find the block no longer than `max_len`
keeps the limit. Over all runs, a buffer created with `start_len ≤ max_len` keeps it exactly
if its block can never outgrow it: the block has the full length from the start (or there is
none at all, and every write asserts), no object can be longer than `max_len`, or `blocksize`
is such that no growth is ever granted. -/
theorem dynamic_limit_kept_iff (blocksize startLen maxLen : UInt64)
    (hmax : 0 < maxLen) (hstart : startLen ≤ maxLen) :
    (∀ b₀ labels b, switchBufferCreateDynamic blocksize startLen maxLen = some b₀ →
        0 < startLen →
        Run (Guarded (fun b _ => b.datalen ≤ b.maxLen) Step) b₀ labels b →
        UsedWithin b ∧ (b.datalen ≤ b.maxLen → WritesWithin b))
      ∧ (LimitKept blocksize startLen maxLen ↔
          startLen = 0 ∨ startLen = maxLen ∨ ptrdiffMax ≤ maxLen.toNat
            ∨ (ptrdiffMax < startLen.toNat + blocksize.toNat
              ∧ startLen.toNat + blocksize.toNat < 2 ^ 64)) := by
  have hpos : 0 < maxLen.toNat := UInt64.lt_iff_toNat_lt.mp hmax
  have hle : startLen.toNat ≤ maxLen.toNat := UInt64.le_iff_toNat_le.mp hstart
  have hlt := maxLen.toNat_lt
  constructor
  · intro b₀ labels b hcreate hs hrun
    obtain ⟨h₀, hused₀, -⟩ := limited_of_create hs hcreate
    obtain ⟨h, hused⟩ := used_le_of_datalen_le hpos h₀ (by omega) hrun
    exact ⟨h.usedWithin hpos hlt hused,
      fun hd => h.writesWithin hpos hlt (h.maxLen ▸ hd)⟩
  rcases eq_or_ne startLen 0 with hzero | hne
  · exact iff_of_true (limitKept_of_null hpos hzero) (Or.inl hzero)
  have hs : 0 < startLen := UInt64.pos_iff_ne_zero.mpr hne
  constructor
  · -- otherwise three writes pass the limit
    intro hkept
    by_contra hno
    simp only [not_or, not_and_or, not_le, not_lt] at hno
    obtain ⟨-, hfull, hobj, hgrow⟩ := hno
    have hlt' : startLen.toNat < maxLen.toNat := by
      rcases Nat.lt_or_eq_of_le hle with hlt' | heq
      · exact hlt'
      · exact absurd (UInt64.toNat.inj heq) hfull
    have hcreate : ∃ b₀, switchBufferCreateDynamic blocksize startLen maxLen = some b₀ := by
      unfold switchBufferCreateDynamic
      rw [if_pos (by omega)]
      exact ⟨_, rfl⟩
    obtain ⟨b₀, hcreate⟩ := hcreate
    obtain ⟨h₀, hused₀, hd₀⟩ := limited_of_create hs hcreate
    obtain ⟨labels, b, hrun, hmaxLen, hover⟩ := exists_run_past_limit h₀ hused₀ hd₀
      (UInt64.lt_iff_toNat_lt.mp hs) hlt' hobj blocksize.toNat_lt hgrow
    obtain ⟨⟨hused, -⟩, -⟩ := hkept b₀ labels b hcreate hrun
    omega
  · rintro (hzero | hfull | hhuge | ⟨hblock, hwrap⟩)
    · exact absurd hzero hne
    · subst hfull
      exact limitKept_of_stuck hpos hs le_rfl
        fun mem b src b' w h _ hres => stuck_of_full hpos mem b src b' w h hres
    · exact limitKept_of_huge_limit hs hhuge
    · exact limitKept_of_stuck hpos hs hle
        fun mem b src b' w h h' hres => stuck_of_huge_block mem b src b' w h hblock hwrap h' hres

/-- Four bytes are both the first block and the limit. -/
theorem dynamic_limit_kept_full : (0 : UInt64) < 4 ∧ LimitKept 0 4 4 :=
  ⟨by decide, (dynamic_limit_kept_iff 0 4 4 (by decide) (by decide)).2.mpr (Or.inr (Or.inl rfl))⟩

/-- With a block of two bytes and a limit of three, writes of one, two and one bytes leave
four bytes in the buffer. -/
theorem dynamic_limit_passed : ¬ LimitKept 0 2 3 := by
  intro hkept
  let b : SwitchBuffer :=
    { data := some [0, 0, 0, 0], head := 0, used := 4, actuallyUsed := 4, datalen := 4,
      maxLen := 3, blocksize := 0, dynamic := true, partition := false }
  have hrun : Run Step ((switchBufferCreateDynamic 0 2 3).get rfl)
      [(.write (zeros 1 (by decide)), { ret := 1 }),
        (.write (zeros 2 (by decide)), { ret := 3 }),
        (.write (zeros 1 (by decide)), { ret := 4 })] b :=
    .cons (show Step _ _ { b with data := some [0, 0], used := 1, actuallyUsed := 1, datalen := 2 }
        from ⟨granting, granting, by decide +kernel⟩)
      (.cons (show Step _ _ { b with used := 3, actuallyUsed := 3 }
          from ⟨granting, granting, by decide +kernel⟩)
        (.cons ⟨granting, granting, by decide +kernel⟩ (.nil b)))
  exact absurd (hkept _ _ b rfl hrun).1.1 (by decide)

end FreeSwitch.Buffer
