import FreeSwitch.Expand.Channel
import FreeSwitch.Lib.TextMemory

/-!
# The buffer that an expansion is written to

The text is put together in a buffer that starts as long as the input and grows when something does not
fit. A value goes in with `strcat`, which looks for the end of the text by itself: it finds the place
where the code is only because all the bytes from there on are zero.

* **`Holds`** — what has been written, and nothing but zeros behind it.
* **`step_holds`** — one write, from such a buffer to such a buffer.
* **`expand_buffer`** — a whole expansion stays inside its buffer, and leaves a text that has an end
  there.
-/

namespace FreeSwitch.Expand

open CString Event TextMemory

/-! ## The code -/

/-- The variables of the function that are about the buffer; `c` counts from `data`. -/
structure Growing where
  data : Str
  c : Nat
  len : Nat
  olen : Nat

def block : Nat := 128

/-- The macro `resize`, where `realloc` succeeds. What `realloc` adds is overwritten by `memset`. -/
def resize (l : Nat) (b : Growing) : Growing :=
  let olen := b.olen + (b.len + l + block)
  { b with olen, data := b.data.take b.c ++ List.replicate (olen - b.c) 0 }

/-- What a round does to the buffer: a byte, or a value. -/
inductive Write where
  | put (ch : UInt8)
  | cat (s : Str)

/-- The position of the end of the text at `p`. -/
def endOf : Str → Nat → Except Nat Nat
  | [], p => .error p
  | x :: xs, p => if x = 0 then .ok p else endOf xs (p + 1)

def storeAll (mem : Str) (p : Nat) : Str → Except Nat Str
  | [] => .ok mem
  | x :: xs => do
    let mem ← write mem p x
    storeAll mem (p + 1) xs

def strcat (mem : Str) (p : Nat) (s : Str) : Except Nat Str := do
  let e ← endOf (mem.drop p) p
  storeAll mem e (s ++ [0])

/-- The check before a write. -/
def makeRoom (b : Growing) : Write → Growing
  | .put _ => if b.olen ≤ b.len + 1 then resize 1 b else b
  | .cat s => if s.length ≠ 0 ∧ b.olen ≤ b.len + s.length then resize s.length b else b

def store (b : Growing) : Write → Except Nat Growing
  | .put ch => do
    let data ← write b.data b.c ch
    return { b with data, c := b.c + 1, len := b.len + 1 }
  | .cat s =>
    if s.length ≠ 0 then do
      let data ← strcat b.data b.c s
      return { b with data, c := b.c + s.length, len := b.len + s.length }
    else return b

def step (b : Growing) (w : Write) : Except Nat Growing := store (makeRoom b w) w

/-- What the rounds write. Behind a reference at the very end of the text, it is the end of the text
that is copied. -/
def writes (eval : Bool → Str → Nat → Option Str) : List Token → Option (List Write)
  | [] => some []
  | .copy s :: ts => (writes eval ts).map (s.map .put ++ ·)
  | .braces global inside br tail :: ts =>
    (eval global inside br).bind fun value =>
      (writes eval ts).map (.cat value :: (if tail = [] ∧ ts = [] then [0] else tail).map .put ++ ·)

/-- A buffer of `strlen(in) + 1` zeros. -/
def start (text : Str) : Growing := ⟨List.replicate (text.length + 1) 0, 0, 0, text.length + 1⟩

def run (b : Growing) (ws : List Write) : Except Nat Growing := ws.foldlM step b

/-! ## One write -/

/-- The buffer has `done` in it, and at least one zero behind it, up to its end. -/
structure Holds (b : Growing) (done : Str) : Prop where
  pos : b.c = b.len
  len : b.len = done.length
  room : b.len < b.olen
  data : b.data = done ++ List.replicate (b.olen - b.len) 0

def Write.bytes : Write → Str
  | .put ch => [ch]
  | .cat s => s

section

variable {b : Growing} {done : Str}

theorem Holds.length_data (h : Holds b done) : b.data.length = b.olen := by
  have hroom := h.room
  have hlen := h.len
  rw [h.data, List.length_append, List.length_replicate]
  omega

/-- The bytes from `c` on. -/
theorem Holds.drop_data (h : Holds b done) : b.data.drop b.c = List.replicate (b.olen - b.len) 0 := by
  rw [h.data, h.pos, h.len, List.drop_left]

theorem resize_holds (h : Holds b done) (l : Nat) :
    Holds (resize l b) done ∧ b.len + l < (resize l b).olen := by
  refine ⟨⟨h.pos, h.len, ?_, ?_⟩, ?_⟩
  · show b.len < b.olen + (b.len + l + block)
    have hroom := h.room
    omega
  · show b.data.take b.c ++ List.replicate (_ - b.c) 0 = _
    rw [h.data, h.pos, h.len, List.take_left, ← h.len]
    rfl
  · show b.len + l < b.olen + (b.len + l + block)
    have hroom := h.room
    omega

theorem makeRoom_holds (h : Holds b done) (w : Write) :
    Holds (makeRoom b w) done ∧ (makeRoom b w).len + w.bytes.length < (makeRoom b w).olen := by
  cases w with
  | put ch =>
    rw [makeRoom]
    split
    · exact resize_holds h 1
    · rename_i hfits
      exact ⟨h, Nat.lt_of_not_le hfits⟩
  | cat s =>
    rw [makeRoom]
    split
    · exact resize_holds h s.length
    · rename_i hfits
      have hroom := h.room
      refine ⟨h, ?_⟩
      show b.len + s.length < b.olen
      omega

theorem storeAll_replicate (pre s : Str) (k : Nat) :
    storeAll (pre ++ List.replicate (s.length + k) 0) pre.length s
      = .ok (pre ++ s ++ List.replicate k 0) := by
  induction s generalizing pre with
  | nil => simp [storeAll]
  | cons x s ih =>
    have hzeros : List.replicate ((x :: s).length + k) (0 : UInt8)
        = 0 :: List.replicate (s.length + k) 0 := by
      rw [List.length_cons, Nat.add_right_comm]
      rfl
    rw [hzeros, storeAll, write_append]
    have hpre := ih (pre ++ [x])
    simp only [List.append_assoc, List.cons_append, List.nil_append, List.length_append,
      List.length_cons, List.length_nil] at hpre ⊢
    exact hpre

/-- With nothing but zeros from there on, the text is put where the code is. -/
theorem strcat_replicate (pre s : Str) (k : Nat) :
    strcat (pre ++ List.replicate (s.length + (k + 1)) 0) pre.length s
      = .ok (pre ++ s ++ List.replicate (k + 1) 0) := by
  have hend : endOf ((pre ++ List.replicate (s.length + (k + 1)) 0).drop pre.length) pre.length
      = .ok pre.length := by
    rw [List.drop_left, ← Nat.add_assoc]
    rfl
  have hstore := storeAll_replicate pre (s ++ [0]) k
  rw [List.length_append, List.length_singleton, Nat.add_assoc, Nat.add_comm 1 k] at hstore
  unfold strcat
  rw [hend]
  refine hstore.trans ?_
  simp [List.replicate_succ]

theorem store_holds (h : Holds b done) (w : Write) (hfits : b.len + w.bytes.length < b.olen) :
    ∃ b', store b w = .ok b' ∧ Holds b' (done ++ w.bytes) := by
  obtain ⟨k, hk⟩ := Nat.exists_eq_add_of_lt hfits
  cases w with
  | put ch =>
    have hzeros : b.olen - b.len = k + 1 + 1 := by
      have : b.olen = b.len + 1 + k + 1 := hk
      omega
    have hwrite : write b.data b.c ch = .ok (done ++ [ch] ++ List.replicate (k + 1) 0) := by
      rw [h.data, hzeros, h.pos, h.len]
      refine (write_append done 0 (List.replicate (k + 1) 0) ch).trans ?_
      simp
    refine ⟨_, by rw [store, hwrite]; rfl, by simp [h.pos], by simp [h.len, Write.bytes], hfits, ?_⟩
    show done ++ [ch] ++ _ = done ++ [ch] ++ List.replicate (b.olen - (b.len + 1)) 0
    rw [show b.olen - (b.len + 1) = k + 1 by omega]
  | cat s =>
    by_cases hs : s.length = 0
    · obtain rfl := List.length_eq_zero_iff.mp hs
      exact ⟨b, rfl, by rwa [Write.bytes, List.append_nil]⟩
    · have hzeros : b.olen - b.len = s.length + (k + 1) := by
        have : b.olen = b.len + s.length + k + 1 := hk
        omega
      have hcat : strcat b.data b.c s = .ok (done ++ s ++ List.replicate (k + 1) 0) := by
        rw [h.data, hzeros, h.pos, h.len]
        exact strcat_replicate done s k
      refine ⟨_, by rw [store, if_pos hs, hcat]; rfl, by simp [h.pos],
        by simp [h.len, Write.bytes], hfits, ?_⟩
      show done ++ s ++ _ = done ++ s ++ List.replicate (b.olen - (b.len + s.length)) 0
      rw [show b.olen - (b.len + s.length) = k + 1 by omega]

theorem step_holds (h : Holds b done) (w : Write) :
    ∃ b', step b w = .ok b' ∧ Holds b' (done ++ w.bytes) := by
  obtain ⟨hroom, hfits⟩ := makeRoom_holds h w
  exact store_holds hroom w hfits

/-! ## A whole expansion -/

theorem run_holds (h : Holds b done) (ws : List Write) :
    ∃ b', run b ws = .ok b' ∧ Holds b' (done ++ ws.flatMap Write.bytes) := by
  induction ws generalizing b done with
  | nil => exact ⟨b, rfl, by rwa [List.flatMap_nil, List.append_nil]⟩
  | cons w ws ih =>
    obtain ⟨b₁, hstep, hb₁⟩ := step_holds h w
    obtain ⟨b₂, hrun, hb₂⟩ := ih hb₁
    refine ⟨b₂, ?_, by rwa [List.flatMap_cons, ← List.append_assoc]⟩
    rw [run, List.foldlM_cons, hstep]
    exact hrun

end

theorem start_holds (text : Str) : Holds (start text) [] :=
  ⟨rfl, rfl, Nat.succ_pos _, rfl⟩

theorem bytes_put (s : Str) : (s.map Write.put).flatMap Write.bytes = s := by
  induction s with
  | nil => rfl
  | cons c s ih => exact congrArg (c :: ·) ih

/-- The bytes that are written are the expansion, and perhaps the end of the input once more. -/
theorem writes_bytes {eval : Bool → Str → Nat → Option Str} {ts : List Token} {out : Str}
    (h : evalTokens eval ts = some out) :
    ∃ ws, writes eval ts = some ws
      ∧ (ws.flatMap Write.bytes = out ∨ ws.flatMap Write.bytes = out ++ [0]) := by
  induction ts generalizing out with
  | nil =>
    obtain rfl : [] = out := Option.some.inj h
    exact ⟨[], rfl, .inl rfl⟩
  | cons t ts ih =>
    cases t with
    | copy s =>
      obtain ⟨rest, hrest, rfl⟩ := Option.map_eq_some_iff.mp h
      obtain ⟨ws, hws, hbytes⟩ := ih hrest
      refine ⟨s.map .put ++ ws, by rw [writes, hws]; rfl, ?_⟩
      rw [List.flatMap_append, bytes_put]
      exact hbytes.imp (fun heq => by rw [heq]) fun heq => by rw [heq, List.append_assoc]
    | braces global inside br tail =>
      obtain ⟨value, hvalue, hmap⟩ := Option.bind_eq_some_iff.mp h
      obtain ⟨rest, hrest, rfl⟩ := Option.map_eq_some_iff.mp hmap
      obtain ⟨ws, hws, hbytes⟩ := ih hrest
      refine ⟨_, by rw [writes, hvalue, Option.bind_some, hws]; rfl, ?_⟩
      rw [List.flatMap_append, List.flatMap_cons, bytes_put]
      by_cases hend : tail = [] ∧ ts = []
      · obtain ⟨rfl, rfl⟩ := hend
        obtain rfl : [] = ws := Option.some.inj hws
        obtain rfl : [] = rest := Option.some.inj hrest
        exact .inr (by simp [Write.bytes])
      · rw [if_neg hend]
        exact hbytes.imp (fun heq => by rw [heq]; rfl) fun heq => by rw [heq, ← List.append_assoc]; rfl

theorem text_of_holds {b : Growing} {done out : Str} (h : Holds b done)
    (hdone : done = out ∨ done = out ++ [0]) (hout : 0 ∉ out) :
    text b.data 0 = out := by
  obtain ⟨k, hk⟩ := Nat.exists_eq_add_of_lt h.room
  have hzeros : b.olen - b.len = k + 1 := by omega
  rw [h.data, hzeros]
  rcases hdone with rfl | rfl
  · exact text_append [] hout (List.replicate k 0)
  · rw [List.append_assoc]
    exact text_append [] hout (List.replicate (k + 1) 0)

/-- For every text, with any variables and lists: each write of an expansion that gets as far as a
buffer finds `c` at `len`, room behind it for all its bytes, and zeros from `c` to the end of the
buffer; it falls inside; and the buffer ends up with the expansion, with an end. -/
theorem expand_buffer (env : Surroundings) (list : Option SwitchEvent) (api : Api Variables)
    (store : Variables) (text : Str)
    (recur : Nat) (hrecur : recur ≤ 100) (hneeds : needsExpansion text = true) :
    ∃ ws b, writes (evalBraces (channelExpander env list api store) fun s =>
          switchChannelExpandVariablesCheck env list api store s (recur + 1)) (tokens 0 text) = some ws
      ∧ run (start text) ws = .ok b
      ∧ (∀ before w after, ws = before ++ w :: after → ∃ b, run (start text) before = .ok b
          ∧ let b := makeRoom b w
            b.c = b.len ∧ b.len < b.olen ∧ b.data.length = b.olen ∧ b.len + w.bytes.length < b.olen
              ∧ b.data.drop b.c = List.replicate (b.olen - b.len) 0)
      ∧ b.data.length = b.olen ∧ 0 ∈ b.data
      ∧ ∃ out, switchChannelExpandVariablesCheck env list api store text recur = some out
          ∧ (0 ∉ out → TextMemory.text b.data 0 = out) := by
  obtain ⟨out, hout⟩ := Option.isSome_iff_exists.mp (@channel_isSome env list api store text recur)
  have hrounds : evalTokens (evalBraces (channelExpander env list api store) fun s =>
      switchChannelExpandVariablesCheck env list api store s (recur + 1)) (tokens 0 text)
        = some out := by
    rw [← hout]
    unfold switchChannelExpandVariablesCheck
    rw [show 101 - recur = (101 - (recur + 1)) + 1 by omega, expand, if_pos hneeds]
  obtain ⟨ws, hws, hbytes⟩ := writes_bytes hrounds
  obtain ⟨b, hrun, hholds⟩ := run_holds (start_holds text) ws
  refine ⟨ws, b, hws, hrun, fun before w after _ => ?_, hholds.length_data, ?_, out, hout,
    text_of_holds hholds hbytes⟩
  · obtain ⟨b, hbefore, hb⟩ := run_holds (start_holds text) before
    obtain ⟨hroom, hfits⟩ := makeRoom_holds hb w
    exact ⟨b, hbefore, hroom.pos, hroom.room, hroom.length_data, hfits, hroom.drop_data⟩
  · rw [hholds.data]
    refine List.mem_append_right _ (List.mem_replicate.mpr ⟨?_, rfl⟩)
    have hroom := hholds.room
    omega

/-- A reference at the end, to a value that does not fit. -/
theorem expand_buffer_value :
    ∃ ws b,
      writes
        (evalBraces (channelExpander bare none noApi ⟨[],
          some (oneHeader 0 (bytes "a") (bytes "123456789") [])⟩) fun s =>
          switchChannelExpandVariablesCheck bare none noApi ⟨[],
            some (oneHeader 0 (bytes "a") (bytes "123456789") [])⟩ s 1)
        (tokens 0 (bytes "$\x7ba\x7d")) = some ws
      ∧ run (start (bytes "$\x7ba\x7d")) ws = .ok b :=
  (expand_buffer bare none noApi ⟨[], some (oneHeader 0 (bytes "a") (bytes "123456789") [])⟩
    (bytes "$\x7ba\x7d")
    0 (by decide) (by decide)).imp fun _ ⟨b, hws, hrun, _⟩ => ⟨b, hws, hrun⟩

end FreeSwitch.Expand
