import FreeSwitch.Lib.TextMemory

/-!
# Escaping into a buffer — `switch_amp_encode`

Each byte is written with its escape if the escape ends before the last byte of the buffer. The
terminating zero goes through the same test as a plain byte. So nothing is ever written to the last
byte, not even the zero.

* **`ampLoop_fits`**, **`ampLoop_full`** — what the loop has written when it stops, behind the zero or
  before it.
* **`amp_encode_iff`** — the buffer holds a string exactly if a byte is left over;
  **`amp_encode_unterminated`** — where the zero is missing.
-/

namespace FreeSwitch.AmpEncode

open CString TextMemory

/-! ## The function -/

/-- What is written for a byte. -/
def escape (c : UInt8) : Str :=
  if c = 34 then bytes "&quot;"
  else if c = 39 then bytes "&apos;"
  else if c = 38 then bytes "&amp;"
  else if c = 60 then bytes "&lt;"
  else if c = 62 then bytes "&gt;"
  else [c]

/-- `*q++ = ..` for each of the bytes. -/
def writeAll (buf : Str) (q : Nat) : Str → Except Nat Str
  | [] => .ok buf
  | c :: out => do
    let buf ← write buf q c
    writeAll buf (q + 1) out

/-- The loop at the text `p`, which ends with its zero; the place of `q` in the buffer is `x`. -/
def ampLoop (len : Nat) : Str → Nat → Str → Except Nat Str
  | [], _, buf => .ok buf
  | c :: p, x, buf =>
    if x < len then
      if x + (escape c).length > len - 1 then .ok buf
      else do
        let buf ← writeAll buf x (escape c)
        if c = 0 then .ok buf else ampLoop len p (x + (escape c).length) buf
    else .ok buf

/-- The buffer afterwards; the error is the place of a write behind its end. -/
def switchAmpEncode (s buf : Str) (len : Nat) : Except Nat Str := ampLoop len (s ++ [0]) 0 buf

/-! ## Escapes -/

/-- The escaping of a text. -/
def escaped (s : Str) : Str := s.flatMap escape

theorem zero_notMem_escape {c : UInt8} (hc : c ≠ 0) : 0 ∉ escape c := by
  unfold escape
  split_ifs
  case neg => exact fun h => hc (List.mem_singleton.mp h).symm
  all_goals decide

theorem zero_notMem_escaped {s : Str} (hs : 0 ∉ s) : 0 ∉ escaped s := by
  intro hzero
  obtain ⟨c, hc, hmem⟩ := List.mem_flatMap.mp hzero
  exact zero_notMem_escape (fun h => hs (h ▸ hc)) hmem

/-! ## The loop -/

theorem writeAll_append (out : Str) : ∀ {before old behind : Str}, old.length = out.length →
    writeAll (before ++ (old ++ behind)) before.length out = .ok (before ++ (out ++ behind)) := by
  induction out with
  | nil =>
    intro before old behind hold
    rw [List.length_eq_zero_iff.mp hold]
    rfl
  | cons c out ih =>
    intro before old behind hold
    cases old with
    | nil => exact nomatch hold
    | cons o old =>
      have hrest := @ih (before ++ [c]) old behind (Nat.succ.inj hold)
      rw [List.length_append, List.append_assoc, List.append_assoc] at hrest
      rw [writeAll, List.cons_append, write_append]
      exact hrest

variable {len : Nat} {before behind p : Str} {c : UInt8}

theorem ampLoop_stop {x : Nat} {buf : Str} (hlt : x < len) (hroom : len ≤ x + (escape c).length) :
    ampLoop len (c :: p) x buf = .ok buf := by
  rw [ampLoop, if_pos hlt, if_pos (by omega)]

theorem ampLoop_step (hlength : before.length + behind.length = len)
    (hroom : before.length + (escape c).length < len) :
    ampLoop len (c :: p) before.length (before ++ behind) =
      if c = 0 then .ok (before ++ escape c ++ behind.drop (escape c).length)
      else ampLoop len p (before ++ escape c).length
        (before ++ escape c ++ behind.drop (escape c).length) := by
  have hold : (behind.take (escape c).length).length = (escape c).length :=
    List.length_take_of_le (by omega)
  have hwrite := @writeAll_append (escape c) before _ (behind.drop (escape c).length) hold
  rw [List.take_append_drop] at hwrite
  rw [ampLoop, if_pos (by omega), if_neg (by omega), hwrite, List.length_append, List.append_assoc]
  rfl

theorem ampLoop_fits {s : Str} (hs : 0 ∉ s) (hlength : before.length + behind.length = len)
    (hroom : before.length + (escaped s).length + 2 ≤ len) :
    ampLoop len (s ++ [0]) before.length (before ++ behind)
      = .ok (before ++ escaped s ++ 0 :: behind.drop ((escaped s).length + 1)) := by
  induction s generalizing before behind with
  | nil =>
    have hstep := @ampLoop_step len before behind [] 0 hlength (by show before.length + 1 < len; omega)
    rw [List.nil_append, hstep, if_pos rfl]
    simp [escaped, escape]
  | cons c s ih =>
    obtain ⟨hc, hs⟩ := List.ne_and_not_mem_of_not_mem_cons hs
    have hescaped : (escaped (c :: s)) = escape c ++ escaped s := rfl
    rw [hescaped, List.length_append] at hroom ⊢
    rw [List.cons_append, ampLoop_step hlength (by omega), if_neg hc.symm, ih hs, List.drop_drop,
      Nat.add_assoc,
      List.append_assoc before]
    · simp only [List.length_append, List.length_drop]
      omega
    · rw [List.length_append]
      omega

theorem ampLoop_full {s : Str} (hs : 0 ∉ s) (hlength : before.length + behind.length = len)
    (hlt : before.length < len) (hroom : len < before.length + (escaped s).length + 2) :
    ∃ t, t <+: s ∧ ampLoop len (s ++ [0]) before.length (before ++ behind)
      = .ok (before ++ escaped t ++ behind.drop (escaped t).length) := by
  induction s generalizing before behind with
  | nil =>
    refine ⟨[], List.prefix_rfl, ?_⟩
    rw [List.nil_append,
      ampLoop_stop hlt (by show len ≤ before.length + 1; simp [escaped] at hroom; omega)]
    simp [escaped]
  | cons c s ih =>
    obtain ⟨hc, hs⟩ := List.ne_and_not_mem_of_not_mem_cons hs
    have hescaped : ∀ t, escaped (c :: t) = escape c ++ escaped t := fun _ => rfl
    rw [hescaped, List.length_append] at hroom
    by_cases hnext : before.length + (escape c).length < len
    · obtain ⟨t, ht, hloop⟩ := @ih (before ++ escape c) (behind.drop (escape c).length) hs
        (by simp only [List.length_append, List.length_drop]; omega) (by rw [List.length_append]; omega)
        (by rw [List.length_append]; omega)
      refine ⟨c :: t, List.cons_prefix_cons.mpr ⟨rfl, ht⟩, ?_⟩
      rw [List.cons_append, ampLoop_step hlength hnext, if_neg hc.symm, hloop, hescaped,
        List.length_append, List.drop_drop,
        List.append_assoc before]
    · refine ⟨[], List.nil_prefix, ?_⟩
      rw [List.cons_append, ampLoop_stop hlt (by omega)]
      simp [escaped]

/-- All writes are inside, and then there is a string in the buffer: the escaping of a part of `s`, and
of all of it if that fits with its zero. -/
def Encodes (s buf : Str) (len : Nat) : Prop :=
  ∃ out, switchAmpEncode s buf len = .ok out ∧ out.length = len ∧
    ∃ t, t <+: s ∧ escaped t ++ [0] <+: out ∧ ((escaped s).length + 1 ≤ len → t = s)

/-- **Whatever was in the buffer, it holds the escaping exactly if a byte is left over.** -/
theorem amp_encode_iff (s : Str) (len : Nat) (hs : 0 ∉ s) (hlen : 1 ≤ len) :
    (∀ buf : Str, buf.length = len → Encodes s buf len) ↔ (escaped s).length + 2 ≤ len := by
  constructor
  · intro h
    -- a buffer without any zero in it
    obtain ⟨out, hout, -, t, -, ht, -⟩ := h (List.replicate len 1) List.length_replicate
    by_contra hroom
    obtain ⟨t', ht', hloop⟩ := @ampLoop_full len [] (List.replicate len 1) s hs (by simp) hlen (by
      rw [List.length_nil]
      omega)
    obtain rfl := Except.ok.inj (hloop.symm.trans hout)
    have hzero : (0 : UInt8) ∈ escaped t' ++ (List.replicate len 1).drop (escaped t').length :=
      ht.subset (List.mem_append_right _ List.mem_cons_self)
    rcases List.mem_append.mp hzero with hzero | hzero
    · exact zero_notMem_escaped (fun hmem => hs (ht'.subset hmem)) hzero
    · exact absurd (List.eq_of_mem_replicate (List.mem_of_mem_drop hzero)) (by decide)
  · intro hroom buf hbuf
    have hloop := @ampLoop_fits len [] buf s hs (by rw [← hbuf]; simp) (by rw [List.length_nil]; omega)
    refine ⟨_, hloop, ?_, s, List.prefix_rfl,
      ⟨buf.drop ((escaped s).length + 1), by simp⟩, fun _ => rfl⟩
    simp only [List.length_append, List.length_cons, List.length_drop, List.length_nil]
    omega

theorem amp_encode_iff_quote : ((0 : UInt8) ∉ bytes "a\"" ∧ 1 ≤ 9) ∧
    ∀ buf : Str, buf.length = 9 → Encodes (bytes "a\"") buf 9 :=
  ⟨by decide, (amp_encode_iff (bytes "a\"") 9 (by decide) (by decide)).mpr (by decide)⟩

/-- One byte in a buffer of two: the zero is missing. -/
theorem amp_encode_unterminated : ¬ Encodes (bytes "a") [1, 1] 2 := by
  rintro ⟨out, hout, -, t, -, ht, -⟩
  obtain rfl : out = [97, 1] := Except.ok.inj (hout.symm.trans rfl)
  exact absurd (ht.subset (List.mem_append_right _ List.mem_cons_self))
    (by decide : (0 : UInt8) ∉ [97, 1])

end FreeSwitch.AmpEncode
