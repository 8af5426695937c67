import FreeSwitch.Separate.Strings

/-!
# Where a text is cut

What the loops that cut do to a text, without the memory: `blank` stands for the loop for spaces, in
which every quote counts and the spaces between two pieces are skipped.

* **`pieces`** — the pieces of a text, of which the last one has all the rest if there is no more room.
* **`dangling`** — the text ends with a backslash that is not itself escaped.
* **`Cutter`** — the steps of a loop that cuts; both loops have them.
* **`Cutter.run`** — such a loop comes to the pieces, or over the end of the text.
-/

namespace FreeSwitch.Separate

open CString TextMemory Bounded

/-! ## Texts -/

section Texts

variable (blank : Bool) (delim : UInt8)

/-- The spaces that are skipped before the text `s`. -/
def gap (s : Str) : Str := if blank then s.takeWhile (· == 32) else []

def behindGap (s : Str) : Str := if blank then s.dropWhile (· == 32) else s

/-- A quote that counts, with `s` behind it. -/
def Quotes (inside : Bool) (c : UInt8) (s : Str) : Prop :=
  c = 39 ∧ (blank = true ∨ inside = true ∨ 39 ∈ s)

instance (inside : Bool) (c : UInt8) (s : Str) : Decidable (Quotes blank inside c s) :=
  inferInstanceAs (Decidable (c = 39 ∧ (blank = true ∨ inside = true ∨ 39 ∈ s)))

/-- The text up to a delimiter that is neither escaped nor quoted, and the text behind it. -/
def cutPiece (inside : Bool) : Str → Str × Option Str
  | [] => ([], none)
  | c :: s =>
    if c = 92 then
      match s with
      | [] => ([92], none)
      | e :: s => (92 :: e :: (cutPiece inside s).1, (cutPiece inside s).2)
    else if Quotes blank inside c s then (c :: (cutPiece (!inside) s).1, (cutPiece (!inside) s).2)
    else if c = delim ∧ inside = false then ([], some s)
    else (c :: (cutPiece inside s).1, (cutPiece inside s).2)

/-- The pieces of a text, for an array with so many places. -/
def pieces : Nat → Str → List Str
  | 0, _ => []
  | 1, s => if s = [] then [] else [s]
  | n + 2, s =>
    if s = [] then []
    else
      (gap blank s ++ (cutPiece blank delim false (behindGap blank s)).1) ::
        match (cutPiece blank delim false (behindGap blank s)).2 with
        | none => []
        | some rest => pieces (n + 1) (behindGap blank rest)

/-- The pieces of a text, with as many places as it takes. -/
def allPieces (s : Str) : List Str := pieces blank delim (s.length + 1) s

/-- The text ends with a backslash that is not itself escaped. -/
def dangling : Str → Bool
  | [] => false
  | c :: s =>
    if c = 92 then
      match s with
      | [] => true
      | _ :: s => dangling s
    else dangling s

variable {blank delim}

theorem dangling_cons {c : UInt8} (h : c ≠ 92) (s : Str) : dangling (c :: s) = dangling s := by
  cases s <;> exact if_neg h

theorem gap_append (blank : Bool) (s : Str) : gap blank s ++ behindGap blank s = s := by
  cases blank
  · rfl
  · exact List.takeWhile_append_dropWhile

theorem length_behindGap_le (blank : Bool) (s : Str) : (behindGap blank s).length ≤ s.length := by
  have hlen := congrArg List.length (gap_append blank s)
  rw [List.length_append] at hlen
  omega

theorem dangling_behindGap (s : Str) : dangling (behindGap blank s) = dangling s := by
  cases blank with
  | false => rfl
  | true =>
    show dangling (s.dropWhile (· == 32)) = _
    induction s with
    | nil => rfl
    | cons c s ih =>
      by_cases hc : c = 32
      · subst hc
        exact ih.trans (dangling_cons (by decide) s).symm
      · rw [List.dropWhile_cons_of_neg (by simpa using hc)]

theorem cutPiece_cons {c : UInt8} (hne : c ≠ 92) (inside : Bool) (s : Str) :
    cutPiece blank delim inside (c :: s) =
    if Quotes blank inside c s then
      (c :: (cutPiece blank delim (!inside) s).1, (cutPiece blank delim (!inside) s).2)
    else if c = delim ∧ inside = false then ([], some s)
    else (c :: (cutPiece blank delim inside s).1, (cutPiece blank delim inside s).2) := by
  rw [cutPiece.eq_def]
  exact if_neg hne

/-- Where a text is not cut, all of it is one piece. -/
theorem cutPiece_eq_self {inside : Bool} {s : Str} (h : (cutPiece blank delim inside s).2 = none) :
    (cutPiece blank delim inside s).1 = s := by
  fun_induction cutPiece blank delim inside s with
  | case1 => rfl
  | case2 => rfl
  | case3 _ _ _ ih => exact congrArg (fun t => 92 :: _ :: t) (ih h)
  | case4 _ _ _ _ _ ih => exact congrArg (List.cons _) (ih h)
  | case5 => cases h
  | case6 _ _ _ _ _ _ ih => exact congrArg (List.cons _) (ih h)

theorem eq_append_of_cutPiece {inside : Bool} {s rest : Str}
    (h : (cutPiece blank delim inside s).2 = some rest) :
    s = (cutPiece blank delim inside s).1 ++ delim :: rest := by
  fun_induction cutPiece blank delim inside s with
  | case1 => cases h
  | case2 => cases h
  | case3 _ _ _ ih => exact congrArg (fun t => 92 :: _ :: t) (ih h)
  | case4 _ _ _ _ _ ih => exact congrArg (List.cons _) (ih h)
  | case5 _ _ _ _ _ hcut =>
    obtain rfl := Option.some.inj h
    rw [hcut.1]
    rfl
  | case6 _ _ _ _ _ _ ih => exact congrArg (List.cons _) (ih h)

theorem dangling_of_cutPiece {inside : Bool} {s rest : Str}
    (h : (cutPiece blank delim inside s).2 = some rest) :
    dangling s = dangling rest := by
  fun_induction cutPiece blank delim inside s with
  | case1 => cases h
  | case2 => cases h
  | case3 _ _ _ ih => exact ih h
  | case4 _ _ _ hne _ ih => rw [dangling_cons hne, ih h]
  | case5 _ _ _ hne _ _ =>
    obtain rfl := Option.some.inj h
    exact dangling_cons hne _
  | case6 _ _ _ hne _ _ ih => rw [dangling_cons hne, ih h]

end Texts

/-! ## Loops -/

/-- A loop that cuts, with `done` behind it, `s` before it, and `post` behind the end of the text. -/
def scanAt (done s post : Str) (array : List Nat) (inside : Bool) (mode : Mode) : Scan :=
  ⟨done ++ (s ++ 0 :: post), done.length, array, inside, mode⟩

/-- What the steps of a loop that cuts do. -/
structure Cutter (blank : Bool) (delim : UInt8) (arraylen : Nat)
    (step : Scan → Except Nat (Scan ⊕ Scan)) : Prop where
  last : ∀ done post array inside mode,
    step (scanAt done [] post array inside mode) = .ok (.inr (scanAt done [] post array inside mode))
  beyond : ∀ s, s.mem.length ≤ s.ptr → step s = .error s.ptr
  full : ∀ done s post array inside mode, arraylen ≤ array.length →
    step (scanAt done s post array inside mode) = .ok (.inr (scanAt done s post array inside mode))
  begin : ∀ done c s post array inside, 0 ∉ c :: s → array.length < arraylen → ∃ mode,
    Next step (scanAt done (c :: s) post array inside .start)
      (scanAt done (c :: s) post (array ++ [done.length]) inside mode) ∧
      (array.length + 1 < arraylen → ∃ mode', (behindGap blank (c :: s) ≠ [] → mode' = .findDelim) ∧
        Reaches step (scanAt done (c :: s) post (array ++ [done.length]) inside mode)
          (scanAt (done ++ gap blank (c :: s)) (behindGap blank (c :: s)) post
            (array ++ [done.length]) inside mode'))
  escape : ∀ done s post array inside, array.length < arraylen →
    step (scanAt done (92 :: s) post array inside .findDelim) =
      .ok (.inl { scanAt done (92 :: s) post array inside .findDelim with ptr := done.length + 2 })
  quote : ∀ done c s post array inside, 0 ∉ s → array.length < arraylen → Quotes blank inside c s →
    Next step (scanAt done (c :: s) post array inside .findDelim)
      (scanAt (done ++ [c]) s post array (!inside) .findDelim)
  cut : ∀ done s post array, delim ≠ 0 → 0 ∉ s → delim ≠ 92 → ¬Quotes blank false delim s →
    array.length < arraylen → ∃ mode,
    (behindGap blank s ≠ [] → mode = .start) ∧
      Reaches step (scanAt done (delim :: s) post array false .findDelim)
        (scanAt (done ++ 0 :: gap blank s) (behindGap blank s) post array false mode)
  plain : ∀ done c s post array inside, c ≠ 0 → c ≠ 92 → 0 ∉ s → array.length < arraylen →
    ¬Quotes blank inside c s →
    ¬(c = delim ∧ inside = false) →
      Next step (scanAt done (c :: s) post array inside .findDelim)
        (scanAt (done ++ [c]) s post array inside .findDelim)

theorem scanAt_next (done s : Str) (c : UInt8) (post : Str) (array : List Nat) (inside : Bool)
    (mode : Mode) :
    { scanAt done (c :: s) post array inside mode with ptr := done.length + 1 } =
      scanAt (done ++ [c]) s post array inside mode := by
  simp [scanAt]

theorem scanAt_escape (done s : Str) (c : UInt8) (post : Str) (array : List Nat) (inside : Bool)
    (mode : Mode) :
    { scanAt done (92 :: c :: s) post array inside mode with ptr := done.length + 2 } =
      scanAt (done ++ [92, c]) s post array inside mode := by
  simp [scanAt]

/-- The loop has left the text: the NUL was taken for an escaped character. -/
def Over (done s post : Str) (t : Scan) : Prop :=
  t.ptr = done.length + s.length + 1 ∧ t.mem.length = done.length + s.length + 1 + post.length

theorem over_append {done x s post : Str} {t : Scan} :
    Over (done ++ x) s post t ↔ Over done (x ++ s) post t := by
  unfold Over
  rw [List.length_append, List.length_append, Nat.add_assoc done.length]

/-- What becomes of a loop within a piece: it comes to the end of the text, or over it, or it cuts. -/
def Finds (blank : Bool) (step : Scan → Except Nat (Scan ⊕ Scan)) (post : Str)
    (array : List Nat) (t : Scan) (done s : Str) (cut : Str × Option Str) : Prop :=
  match cut.2 with
  | none =>
    if dangling s then ∃ t', Reaches step t t' ∧ Over done s post t'
    else ∃ inside mode, Reaches step t (scanAt (done ++ s) [] post array inside mode)
  | some rest => ∃ mode, (behindGap blank rest ≠ [] → mode = .start) ∧
      Reaches step t (scanAt (done ++ cut.1 ++ 0 :: gap blank rest)
        (behindGap blank rest) post array false mode)

section Finds

variable {blank : Bool} {step : Scan → Except Nat (Scan ⊕ Scan)} {post : Str} {array : List Nat}
  {t t' : Scan} {done s : Str}

/-- Characters that are gone over belong to the piece. -/
theorem Finds.over {x piece : Str} {rest : Option Str} (hreach : Reaches step t t')
    (hdangling : dangling (x ++ s) = dangling s)
    (h : Finds blank step post array t' (done ++ x) s (piece, rest)) :
    Finds blank step post array t done (x ++ s) (x ++ piece, rest) := by
  unfold Finds at h ⊢
  cases rest with
  | none =>
    simp only at h ⊢
    rw [hdangling]
    split at h
    · next hd =>
      obtain ⟨t₁, hreach₁, hover⟩ := h
      rw [if_pos hd]
      exact ⟨t₁, hreach.trans hreach₁, over_append.mp hover⟩
    · next hd =>
      obtain ⟨inside, mode, hreach₁⟩ := h
      rw [if_neg hd, ← List.append_assoc]
      exact ⟨inside, mode, hreach.trans hreach₁⟩
  | some rest =>
    obtain ⟨mode, hmode, hreach₁⟩ := h
    rw [List.append_assoc done] at hreach₁
    exact ⟨mode, hmode, hreach.trans hreach₁⟩

end Finds

namespace Cutter

variable {blank : Bool} {delim : UInt8} {arraylen : Nat} {step : Scan → Except Nat (Scan ⊕ Scan)}

/-- Within a piece. -/
theorem find (h : Cutter blank delim arraylen step) (inside : Bool) {s : Str} (done post : Str)
    {array : List Nat} (hzero : 0 ∉ s) (hroom : array.length < arraylen) :
    Finds blank step post array (scanAt done s post array inside .findDelim) done s
      (cutPiece blank delim inside s) := by
  fun_induction cutPiece blank delim inside s generalizing done with
  | case1 inside => exact ⟨inside, .findDelim, by rw [List.append_nil]; exact .refl⟩
  | case2 inside =>
    refine ⟨_, .single (h.escape done [] post array inside hroom), rfl, ?_⟩
    simp only [scanAt, List.length_append, List.length_cons, List.length_nil]
    omega
  | case3 inside c s ih =>
    have hs : 0 ∉ s := fun hmem => hzero (List.mem_cons_of_mem _ (List.mem_cons_of_mem _ hmem))
    have hnext : Next step (scanAt done (92 :: c :: s) post array inside .findDelim)
        (scanAt (done ++ [92, c]) s post array inside .findDelim) :=
      (h.escape done (c :: s) post array inside hroom).trans (by rw [scanAt_escape])
    exact (ih _ hs).over (x := [92, c]) (.single hnext) rfl
  | case4 inside c s hne hquote ih =>
    have hs : 0 ∉ s := fun hmem => hzero (List.mem_cons_of_mem _ hmem)
    exact (ih _ hs).over (x := [c]) (.single (h.quote done c s post array inside hs hroom hquote))
      (dangling_cons hne s)
  | case5 inside c s hne hquote hcut =>
    have hs : 0 ∉ s := fun hmem => hzero (List.mem_cons_of_mem _ hmem)
    obtain ⟨rfl, rfl⟩ := hcut
    obtain ⟨mode, hmode, hreach⟩ :=
      h.cut done s post array (fun hc => hzero (hc ▸ List.mem_cons_self)) hs hne hquote hroom
    exact ⟨mode, hmode, by rwa [List.append_nil]⟩
  | case6 inside c s hne hquote hcut ih =>
    have hs : 0 ∉ s := fun hmem => hzero (List.mem_cons_of_mem _ hmem)
    have hc : c ≠ 0 := fun hc => hzero (hc ▸ List.mem_cons_self)
    exact (ih _ hs).over (x := [c])
      (.single (h.plain done c s post array inside hc hne hs hroom hquote hcut))
      (dangling_cons hne s)

/-- From the beginning of a piece on. -/
theorem piece (h : Cutter blank delim arraylen step) {s : Str} (done post : Str) (array : List Nat)
    (hne : s ≠ []) (hzero : 0 ∉ s) (hroom : array.length + 1 < arraylen) :
    Finds blank step post (array ++ [done.length]) (scanAt done s post array false .start)
      (done ++ gap blank s)
      (behindGap blank s) (cutPiece blank delim false (behindGap blank s)) := by
  obtain ⟨c, s, rfl⟩ := List.exists_cons_of_ne_nil hne
  obtain ⟨mode, hnext, hskip⟩ := h.begin done c s post array false hzero (by omega)
  obtain ⟨mode', hmode, hreach⟩ := hskip hroom
  have hbegin := hreach.head hnext
  rw [← gap_append blank (c :: s)] at hzero
  by_cases hempty : behindGap blank (c :: s) = []
  · rw [hempty] at hbegin ⊢
    exact ⟨false, mode', by rwa [List.append_nil]⟩
  · obtain rfl := hmode hempty
    have hlen : (array ++ [done.length]).length < arraylen := by simpa using hroom
    have hfind := h.find false (done ++ gap blank (c :: s)) post
      (fun hmem => hzero (List.mem_append_right _ hmem)) hlen
    exact Finds.over (x := []) hbegin rfl (by rwa [List.append_nil])

/-- The loop comes to its end with the pieces in their places, and the rest of the memory is as
before. -/
def Ends (step : Scan → Except Nat (Scan ⊕ Scan)) (t : Scan) (done s post : Str) (array : List Nat)
    (ps : List Str) : Prop :=
  ∃ t' qs s', Reaches step t t' ∧ step t' = .ok (.inr t') ∧ t'.array = array ++ qs ∧
    qs.length = ps.length ∧
    (∀ q ∈ qs.head?, q = done.length) ∧ t'.mem = done ++ (s' ++ 0 :: post) ∧ s'.length = s.length ∧
      Texts t'.mem done.length (qs.zip ps)

/-- A text that is one piece to the end. -/
theorem ends_one {t t' : Scan} {done s post : Str} {array : List Nat} (hzero : 0 ∉ s)
    (hreach : Reaches step t t')
    (hlast : step t' = .ok (.inr t')) (harray : t'.array = array ++ [done.length])
    (hmem : t'.mem = done ++ (s ++ 0 :: post)) : Ends step t done s post array [s] := by
  refine ⟨t', [done.length], s, hreach, hlast, harray, rfl, fun q hq => (Option.some.inj hq).symm, hmem,
    rfl, le_rfl, hzero,
    ?_, trivial⟩
  rw [hmem]
  exact isPrefix_drop done s post

/-- A text of which one piece is cut, and then the others. -/
theorem ends_cons {t t₁ : Scan} {done s lead skipped rest post : Str} {c : UInt8} {array : List Nat}
    {ps : List Str}
    (hs : s = lead ++ c :: (skipped ++ rest)) (hzero : 0 ∉ s) (hreach : Reaches step t t₁)
    (h : Ends step t₁ (done ++ lead ++ 0 :: skipped) rest post (array ++ [done.length]) ps) :
    Ends step t done s post array (lead :: ps) := by
  obtain ⟨t', qs, rest', hreach', hlast, harray, hlen, -, hmem, hlen', htexts⟩ := h
  have hmem' : t'.mem = done ++ (lead ++ 0 :: (skipped ++ (rest' ++ 0 :: post))) := by
    rw [hmem]
    simp
  refine ⟨t', done.length :: qs, lead ++ 0 :: (skipped ++ rest'), hreach.trans hreach', hlast, ?_, ?_,
    fun q hq => (Option.some.inj hq).symm, ?_, ?_, le_rfl, ?_, ?_, ?_⟩
  · rw [harray]
    simp
  · rw [List.length_cons, hlen, List.length_cons]
  · rw [hmem']
    simp
  · rw [hs]
    simp [hlen']
  · exact fun hmem => hzero (hs ▸ List.mem_append_left _ hmem)
  · rw [hmem']
    exact isPrefix_drop done lead _
  · refine htexts.mono ?_
    simp only [List.length_append, List.length_cons]
    omega

/-- The whole loop, with `n` places left. -/
theorem run (h : Cutter blank delim arraylen step) {n : Nat} {s : Str} (done post : Str)
    (array : List Nat) (mode : Mode)
    (hmode : s ≠ [] → mode = .start) (hzero : 0 ∉ s) (hroom : array.length + n = arraylen) :
    if dangling s ∧ (pieces blank delim n s).length < n then
      ∃ t, Reaches step (scanAt done s post array false mode) t ∧ Over done s post t
    else Ends step (scanAt done s post array false mode) done s post array
      (pieces blank delim n s) := by
  fun_induction pieces blank delim n s generalizing done array mode with
  | case1 s =>
    rw [if_neg fun hover => Nat.not_lt_zero _ hover.2]
    refine ⟨_, [], s, .refl, h.full done s post array false mode (by omega), (List.append_nil _).symm,
      rfl, by simp, rfl, rfl, trivial⟩
  | case2 =>
    rw [if_neg fun hover => Bool.false_ne_true hover.1]
    exact ⟨_, [], [], .refl, h.last done post array false mode, (List.append_nil _).symm, rfl, by simp,
      rfl, rfl, trivial⟩
  | case3 s hne =>
    rw [if_neg fun hover => Nat.lt_irrefl 1 hover.2, hmode hne]
    obtain ⟨c, s, rfl⟩ := List.exists_cons_of_ne_nil hne
    obtain ⟨mode', hnext, -⟩ := h.begin done c s post array false hzero (by omega)
    exact ends_one hzero (.single hnext)
      (h.full done (c :: s) post _ false mode' (by simp [← hroom])) rfl rfl
  | case4 =>
    rw [if_neg fun hover => Bool.false_ne_true hover.1]
    exact ⟨_, [], [], .refl, h.last done post array false mode, (List.append_nil _).symm, rfl, by simp,
      rfl, rfl, trivial⟩
  | case5 n s hne ih =>
    have hpiece := h.piece done post array hne hzero (by omega)
    have hgap := gap_append blank s
    rw [hmode hne]
    unfold Finds at hpiece
    cases hcut : (cutPiece blank delim false (behindGap blank s)).2 with
    | none =>
      -- the last piece: its end is that of the text, or behind it
      rw [hcut] at hpiece
      simp only [dangling_behindGap] at hpiece
      rw [cutPiece_eq_self hcut, hgap]
      split at hpiece
      · next hd =>
        rw [if_pos ⟨hd, by simp⟩]
        obtain ⟨t, hreach, hover⟩ := hpiece
        rw [over_append, hgap] at hover
        exact ⟨t, hreach, hover⟩
      · next hd =>
        rw [if_neg fun hover => hd hover.1]
        obtain ⟨inside, mode', hreach⟩ := hpiece
        rw [List.append_assoc, hgap] at hreach
        exact ends_one hzero hreach (h.last _ post _ inside mode') rfl (by simp [scanAt])
    | some rest =>
      -- the delimiter becomes a zero, and the loop goes on with the rest
      rw [hcut] at hpiece
      obtain ⟨mode', hmode', hreach⟩ := hpiece
      have hs : s = (gap blank s ++ (cutPiece blank delim false (behindGap blank s)).1) ++
          delim :: (gap blank rest ++ behindGap blank rest) := by
        rw [gap_append, List.append_assoc, ← eq_append_of_cutPiece hcut, hgap]
      have hrest : 0 ∉ behindGap blank rest := fun hmem => hzero (by rw [hs]; simp [hmem])
      have hdangling : dangling (behindGap blank rest) = dangling s := by
        rw [dangling_behindGap, ← dangling_of_cutPiece hcut, dangling_behindGap]
      have hlen : (array ++ [done.length]).length + (n + 1) = arraylen := by
        rw [List.length_append, List.length_singleton]
        omega
      have hothers :=
        ih rest (done ++ (gap blank s ++ (cutPiece blank delim false (behindGap blank s)).1) ++
        0 :: gap blank rest) _ _ hmode' hrest hlen
      rw [hdangling] at hothers
      rw [List.append_assoc done (gap blank s)] at hreach
      simp only [List.length_cons, Nat.succ_lt_succ_iff]
      split at hothers
      · next hd =>
        rw [if_pos hd]
        obtain ⟨t, hreach', hover⟩ := hothers
        refine ⟨t, hreach.trans hreach', ?_⟩
        have hlen' := congrArg List.length hs
        unfold Over at hover ⊢
        simp only [List.length_append, List.length_cons] at hlen' hover
        omega
      · next hd =>
        rw [if_neg hd]
        exact ends_cons hs hzero hreach hothers

end Cutter

/-! ## The two loops -/

section Steps

variable {delim : UInt8} {arraylen : Nat}

theorem quotes_eq (done s post : Str) (c : UInt8) (inside : Bool) (hzero : 0 ∉ s) :
    quotes (done ++ (c :: s ++ 0 :: post)) done.length inside c =
      .ok (decide (Quotes false inside c s)) := by
  have hoccurs : occurs (done ++ (c :: s ++ 0 :: post)) (done.length + 1) 39 =
      .ok (decide (39 ∈ s)) := by
    have h := occurs_append (c := 39) (by decide) (done ++ [c]) hzero post
    rwa [List.length_append, List.append_assoc] at h
  unfold quotes
  by_cases hc : c = 39
  · cases inside
    · rw [if_pos hc, if_neg Bool.false_ne_true, hoccurs]
      simp [Quotes, hc]
    · rw [if_pos hc, if_pos rfl]
      simp [Quotes, hc]
  · rw [if_neg hc]
    simp [Quotes, hc]

theorem read_scanAt (done s post : Str) (c : UInt8) (array : List Nat) (inside : Bool) (mode : Mode) :
    read (scanAt done (c :: s) post array inside mode).mem
      (scanAt done (c :: s) post array inside mode).ptr = .ok c :=
  read_append done c _

theorem read_scanAt_nil (done post : Str) (array : List Nat) (inside : Bool) (mode : Mode) :
    read (scanAt done [] post array inside mode).mem (scanAt done [] post array inside mode).ptr =
      .ok 0 :=
  read_append done 0 _

theorem write_scanAt (done s post : Str) (c : UInt8) (array : List Nat) (inside : Bool) (mode : Mode) :
    write (scanAt done (c :: s) post array inside mode).mem
      (scanAt done (c :: s) post array inside mode).ptr 0 =
      .ok (scanAt (done ++ [0]) s post array inside mode).mem :=
  (write_append done c (s ++ 0 :: post) 0).trans (by simp [scanAt])

/-- A turn of a loop that is not its last one. -/
theorem turn_eq {c : UInt8} {array : List Nat} (hc : c ≠ 0) (hroom : array.length < arraylen) :
    ¬(c = 0 ∨ arraylen ≤ array.length) := by
  rintro (hzero | hfull)
  · exact hc hzero
  · omega

theorem charFind_eq (done s post : Str) {c : UInt8} (array : List Nat) (inside : Bool) (hne : c ≠ 92)
    (hzero : 0 ∉ s) :
    charFind delim (scanAt done (c :: s) post array inside .findDelim) c =
      if Quotes false inside c s then .ok (scanAt (done ++ [c]) s post array (!inside) .findDelim)
      else if c = delim ∧ inside = false then .ok (scanAt (done ++ [0]) s post array inside .start)
      else .ok (scanAt (done ++ [c]) s post array inside .findDelim) := by
  unfold charFind
  rw [if_neg hne]
  show (quotes (done ++ (c :: s ++ 0 :: post)) done.length inside c >>= _) = _
  rw [quotes_eq done s post c inside hzero]
  by_cases hquote : Quotes false inside c s
  · rw [decide_eq_true hquote, if_pos hquote, ← scanAt_next]
    rfl
  · rw [decide_eq_false hquote, if_neg hquote]
    show (if c = delim ∧ inside = false then _ else _) = _
    split
    · rw [write_scanAt]
      simp [scanAt]
    · rw [← scanAt_next]
      rfl

/-- A turn of the loop within a piece. -/
theorem charStep_find (done s post : Str) {c : UInt8} {array : List Nat} (inside : Bool) (hc : c ≠ 0)
    (hroom : array.length < arraylen) :
    charStep delim arraylen (scanAt done (c :: s) post array inside .findDelim) =
      (charFind delim (scanAt done (c :: s) post array inside .findDelim) c).map .inl := by
  unfold charStep
  rw [read_scanAt]
  exact if_neg (turn_eq hc hroom)

theorem cutter_charStep (delim : UInt8) (arraylen : Nat) :
    Cutter false delim arraylen (charStep delim arraylen) where
  last done post array inside mode := by
    unfold charStep
    rw [read_scanAt_nil]
    rfl
  beyond s h := by
    unfold charStep
    rw [read_of_length_le h]
    rfl
  full done s post array inside mode hfull := by
    unfold charStep
    cases s with
    | nil =>
      rw [read_scanAt_nil]
      rfl
    | cons c s =>
      rw [read_scanAt]
      exact if_pos (.inr hfull)
  begin done c s post array inside hzero hroom := by
    have hc : c ≠ 0 := fun hc => hzero (hc ▸ List.mem_cons_self)
    refine ⟨.findDelim, ?_, fun _ => ⟨.findDelim, fun _ => rfl, ?_⟩⟩
    · unfold Next charStep
      rw [read_scanAt]
      exact if_neg (turn_eq hc hroom)
    · show Reaches _ _ (scanAt (done ++ []) (c :: s) post _ inside .findDelim)
      rw [List.append_nil]
      exact .refl
  escape done s post array inside hroom := charStep_find done s post inside (by decide) hroom
  quote done c s post array inside hzero hroom hquote := by
    unfold Next
    rw [charStep_find done s post inside (by rw [hquote.1]; decide) hroom,
      charFind_eq done s post array inside (by rw [hquote.1]; decide) hzero, if_pos hquote]
    rfl
  cut done s post array hc hzero hne hquote hroom := by
    refine ⟨.start, fun _ => rfl, .single ?_⟩
    unfold Next
    rw [charStep_find done s post false hc hroom, charFind_eq done s post array false hne hzero,
      if_neg hquote,
      if_pos ⟨rfl, rfl⟩]
    rfl
  plain done c s post array inside hc hne hzero hroom hquote hcut := by
    unfold Next
    rw [charStep_find done s post inside hc hroom, charFind_eq done s post array inside hne hzero,
      if_neg hquote,
      if_neg hcut]
    rfl

theorem blankFind_eq (done s post : Str) {c : UInt8} (array : List Nat) (inside : Bool) (hne : c ≠ 92) :
    blankFind (scanAt done (c :: s) post array inside .findDelim) c =
      if Quotes true inside c s then .ok (scanAt (done ++ [c]) s post array (!inside) .findDelim)
      else if c = 32 ∧ inside = false then
        .ok (scanAt (done ++ [0]) s post array inside .skipEndingSpace)
      else .ok (scanAt (done ++ [c]) s post array inside .findDelim) := by
  unfold blankFind
  rw [if_neg hne]
  by_cases hc : c = 39
  · have hquote : Quotes true inside c s := ⟨hc, .inl rfl⟩
    rw [if_pos hc, if_pos hquote, ← scanAt_next]
    rfl
  · rw [if_neg hc, if_neg fun hquote : Quotes true inside c s => hc hquote.1]
    show (if c = 32 ∧ inside = false then _ else _) = _
    split
    · rw [write_scanAt]
      simp [scanAt]
    · rw [← scanAt_next]
      rfl

theorem blankStep_find (done s post : Str) {c : UInt8} {array : List Nat} (inside : Bool) (hc : c ≠ 0)
    (hroom : array.length < arraylen) :
    blankStep arraylen (scanAt done (c :: s) post array inside .findDelim) =
      (blankFind (scanAt done (c :: s) post array inside .findDelim) c).map .inl := by
  unfold blankStep
  rw [read_scanAt]
  exact if_neg (turn_eq hc hroom)

/-- What comes when the spaces are over. -/
def Mode.behindSpaces : Mode → Mode
  | .skipInitialSpace => .findDelim
  | .skipEndingSpace => .start
  | mode => mode

theorem blankStep_skip (done s post : Str) {c : UInt8} {array : List Nat} (inside : Bool) {mode : Mode}
    (hmode : mode = .skipInitialSpace ∨ mode = .skipEndingSpace) (hc : c ≠ 0)
    (hroom : array.length < arraylen) :
    Next (blankStep arraylen) (scanAt done (c :: s) post array inside mode)
      (if c = 32 then scanAt (done ++ [c]) s post array inside mode
        else scanAt done (c :: s) post array inside mode.behindSpaces) := by
  unfold Next blankStep
  rw [read_scanAt, ← scanAt_next]
  refine (if_neg (turn_eq hc hroom)).trans ?_
  rcases hmode with rfl | rfl <;> rfl

theorem blankStep_spaces (s : Str) (done post : Str) {array : List Nat} (inside : Bool) {mode : Mode}
    (hmode : mode = .skipInitialSpace ∨ mode = .skipEndingSpace) (hzero : 0 ∉ s)
    (hroom : array.length < arraylen) :
    ∃ mode', (behindGap true s ≠ [] → mode' = mode.behindSpaces) ∧
      Reaches (blankStep arraylen) (scanAt done s post array inside mode)
        (scanAt (done ++ gap true s) (behindGap true s) post array inside mode') := by
  induction s generalizing done with
  | nil => exact ⟨mode, fun hne => absurd rfl hne,
      by rw [show done ++ gap true [] = done from List.append_nil _]; exact .refl⟩
  | cons c s ih =>
    have hnext :=
      blankStep_skip done s post inside hmode (fun hc => hzero (hc ▸ List.mem_cons_self)) hroom
    by_cases hc : c = 32
    · rw [if_pos hc] at hnext
      obtain ⟨mode', hmode', hreach⟩ := ih (done ++ [c]) fun hmem => hzero (List.mem_cons_of_mem _ hmem)
      rw [List.append_assoc] at hreach
      subst hc
      exact ⟨mode', hmode', hreach.head hnext⟩
    · rw [if_neg hc] at hnext
      have hgap : gap true (c :: s) = [] := by
        show (c :: s).takeWhile (· == 32) = []
        rw [List.takeWhile_cons_of_neg (by simpa using hc)]
      have hbehind : behindGap true (c :: s) = c :: s := by
        show (c :: s).dropWhile (· == 32) = _
        rw [List.dropWhile_cons_of_neg (by simpa using hc)]
      rw [hgap, hbehind, List.append_nil]
      exact ⟨_, fun _ => rfl, .single hnext⟩

theorem cutter_blankStep (arraylen : Nat) : Cutter true 32 arraylen (blankStep arraylen) where
  last done post array inside mode := by
    unfold blankStep
    rw [read_scanAt_nil]
    rfl
  beyond s h := by
    unfold blankStep
    rw [read_of_length_le h]
    rfl
  full done s post array inside mode hfull := by
    unfold blankStep
    cases s with
    | nil =>
      rw [read_scanAt_nil]
      rfl
    | cons c s =>
      rw [read_scanAt]
      exact if_pos (.inr hfull)
  begin done c s post array inside hzero hroom := by
    have hc : c ≠ 0 := fun hc => hzero (hc ▸ List.mem_cons_self)
    refine ⟨.skipInitialSpace, ?_, fun hroom' => ?_⟩
    · unfold Next blankStep
      rw [read_scanAt]
      exact if_neg (turn_eq hc hroom)
    · exact blankStep_spaces (c :: s) done post inside (.inl rfl) hzero (by simpa using hroom')
  escape done s post array inside hroom := blankStep_find done s post inside (by decide) hroom
  quote done c s post array inside hzero hroom hquote := by
    unfold Next
    rw [blankStep_find done s post inside (by rw [hquote.1]; decide) hroom,
      blankFind_eq done s post array inside (by rw [hquote.1]; decide), if_pos hquote]
    rfl
  cut done s post array hc hzero hne hquote hroom := by
    obtain ⟨mode, hmode, hreach⟩ := blankStep_spaces s (done ++ [0]) post false (.inr rfl) hzero hroom
    rw [List.append_assoc] at hreach
    refine ⟨mode, hmode, hreach.head ?_⟩
    unfold Next
    rw [blankStep_find done s post false hc hroom, blankFind_eq done s post array false hne,
      if_neg hquote,
      if_pos ⟨rfl, rfl⟩]
    rfl
  plain done c s post array inside hc hne hzero hroom hquote hcut := by
    unfold Next
    rw [blankStep_find done s post inside hc hroom, blankFind_eq done s post array inside hne,
      if_neg hquote,
      if_neg hcut]
    rfl

end Steps

/-! ## The loops end -/

/-- A step of a loop that cuts goes on in the text, or to a later mode. -/
def Mode.rank : Mode → Nat
  | .findDelim => 0
  | .skipInitialSpace => 1
  | .start => 2
  | .skipEndingSpace => 3

def Advances (s s' : Scan) : Prop :=
  s'.mem.length = s.mem.length ∧ (s.ptr < s'.ptr ∨ s'.ptr = s.ptr ∧ s'.mode.rank < s.mode.rank)

theorem iterate_isSome_of_advances {turn : Scan → UInt8 → Except Nat (Scan ⊕ Scan)}
    (hstep : ∀ s s', Next (fun s => read s.mem s.ptr >>= turn s) s s' → Advances s s') (s : Scan) :
    (iterate (fun s => read s.mem s.ptr >>= turn s) (scanFuel s.mem) s).isSome = true := by
  have hrank : ∀ mode : Mode, mode.rank ≤ 3 := by intro mode; cases mode <;> decide
  refine iterate_isSome (I := fun _ => True)
    (μ := fun s => 4 * (s.mem.length + 1 - s.ptr) + s.mode.rank)
    (fun _ _ _ _ => trivial) (fun s s' _ hnext => ?_) _ s trivial ?_
  · obtain ⟨c, hread, -⟩ := bind_eq_ok_iff.mp hnext
    have hlt := lt_of_read hread
    obtain ⟨hlen, hadv⟩ := hstep s s' hnext
    have hs' := hrank s'.mode
    omega
  · have hs := hrank s.mode
    unfold scanFuel
    omega

theorem charFind_advances {delim : UInt8} {s s' : Scan} {c : UInt8} (h : charFind delim s c = .ok s') :
    Advances s s' := by
  unfold charFind at h
  split at h
  · cases h
    exact ⟨rfl, .inl (by simp)⟩
  · obtain ⟨quote, -, h⟩ := bind_eq_ok_iff.mp h
    split at h
    · cases h
      exact ⟨rfl, .inl (by simp)⟩
    · split at h
      · obtain ⟨mem, hwrite, h⟩ := bind_eq_ok_iff.mp h
        cases h
        exact ⟨length_of_write hwrite, .inl (by simp)⟩
      · cases h
        exact ⟨rfl, .inl (by simp)⟩

theorem charStep_advances {delim : UInt8} {arraylen : Nat} {s s' : Scan}
    (h : Next (charStep delim arraylen) s s') :
    Advances s s' := by
  obtain ⟨c, -, h⟩ := bind_eq_ok_iff.mp h
  split at h
  · cases h
  · split at h
    · next hmode =>
      cases h
      exact ⟨rfl, .inr ⟨rfl, by rw [hmode]; exact (by decide : (0 : Nat) < 2)⟩⟩
    · obtain ⟨t, hfind, h⟩ := bind_eq_ok_iff.mp h
      cases h
      exact charFind_advances hfind

theorem blankFind_advances {s s' : Scan} {c : UInt8} (h : blankFind s c = .ok s') : Advances s s' := by
  unfold blankFind at h
  split at h
  · cases h
    exact ⟨rfl, .inl (by simp)⟩
  · split at h
    · cases h
      exact ⟨rfl, .inl (by simp)⟩
    · split at h
      · obtain ⟨mem, hwrite, h⟩ := bind_eq_ok_iff.mp h
        cases h
        exact ⟨length_of_write hwrite, .inl (by simp)⟩
      · cases h
        exact ⟨rfl, .inl (by simp)⟩

theorem blankStep_advances {arraylen : Nat} {s s' : Scan} (h : Next (blankStep arraylen) s s') :
    Advances s s' := by
  obtain ⟨c, -, h⟩ := bind_eq_ok_iff.mp h
  split at h
  · cases h
  · split at h
    · next hmode =>
      cases h
      exact ⟨rfl, .inr ⟨rfl, by rw [hmode]; exact (by decide : (1 : Nat) < 2)⟩⟩
    · next hmode =>
      cases h
      split
      · exact ⟨rfl, .inl (by simp)⟩
      · exact ⟨rfl, .inr ⟨rfl, by rw [hmode]; exact (by decide : (0 : Nat) < 1)⟩⟩
    · obtain ⟨t, hfind, h⟩ := bind_eq_ok_iff.mp h
      cases h
      exact blankFind_advances hfind
    · next hmode =>
      cases h
      split
      · exact ⟨rfl, .inl (by simp)⟩
      · exact ⟨rfl, .inr ⟨rfl, by rw [hmode]; exact (by decide : (2 : Nat) < 3)⟩⟩

theorem charStep_isSome (delim : UInt8) (arraylen : Nat) (s : Scan) :
    (iterate (charStep delim arraylen) (scanFuel s.mem) s).isSome = true :=
  iterate_isSome_of_advances (fun _ _ => charStep_advances) s

theorem blankStep_isSome (arraylen : Nat) (s : Scan) :
    (iterate (blankStep arraylen) (scanFuel s.mem) s).isSome = true :=
  iterate_isSome_of_advances (fun _ _ => blankStep_advances) s

end FreeSwitch.Separate
