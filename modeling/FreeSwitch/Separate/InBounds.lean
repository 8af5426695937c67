import FreeSwitch.Separate.Cleanup

/-!
# Inside the text

A backslash takes the next character with it, and the loops that cut do not look whether there is one.
At the end of the text it takes the NUL, and the loop goes on behind it.

* **`switchSeparateString_eq`** — the pieces, cleaned, stand in the memory one behind the other.
* **`separate_inside_iff`** — the text is left exactly if it ends with a backslash that is not escaped
  and there is room for another piece behind it.
-/

namespace FreeSwitch.Separate

open CString TextMemory Bounded

/-! ## The number of pieces -/

section Pieces

variable (blank : Bool) (delim : UInt8)

/-- A piece and its delimiter are gone. -/
theorem length_rest_lt {s rest : Str}
    (h : (cutPiece blank delim false (behindGap blank s)).2 = some rest) :
    (behindGap blank rest).length < s.length := by
  have hcut := congrArg List.length (eq_append_of_cutPiece h)
  have hbehind := length_behindGap_le blank s
  have hrest := length_behindGap_le blank rest
  simp only [List.length_append, List.length_cons] at hcut
  omega

theorem pieces_cut {s piece rest : Str} (n : Nat) (hs : s ≠ [])
    (hcut : cutPiece blank delim false (behindGap blank s) = (piece, some rest)) :
    pieces blank delim (n + 2) s =
      (gap blank s ++ piece) :: pieces blank delim (n + 1) (behindGap blank rest) := by
  rw [pieces, if_neg hs, hcut]

theorem pieces_last {s piece : Str} (n : Nat) (hs : s ≠ [])
    (hcut : cutPiece blank delim false (behindGap blank s) = (piece, none)) :
    pieces blank delim (n + 2) s = [gap blank s ++ piece] := by
  rw [pieces, if_neg hs, hcut]

theorem pieces_nil : ∀ n, pieces blank delim n [] = []
  | 0 => rfl
  | 1 => rfl
  | _ + 2 => rfl

/-- Without enough places, some of the pieces are not cut. -/
theorem length_pieces {n m : Nat} {s : Str} (hm : s.length < m) :
    (pieces blank delim n s).length = min n (pieces blank delim m s).length := by
  have htwo : s ≠ [] → ∃ k, m = k + 2 := fun hne => by
    have hpos := List.length_pos_iff.mpr hne
    exact ⟨m - 2, by omega⟩
  fun_induction pieces blank delim n s generalizing m with
  | case1 => exact (Nat.zero_min _).symm
  | case2 => rw [pieces_nil]; rfl
  | case4 => rw [pieces_nil]; rfl
  | case3 s hne =>
    obtain ⟨k, rfl⟩ := htwo hne
    rw [pieces, if_neg hne, List.length_singleton, List.length_cons]
    omega
  | case5 n s hne ih =>
    obtain ⟨k, rfl⟩ := htwo hne
    rw [pieces, if_neg hne, List.length_cons, List.length_cons, Nat.succ_eq_add_one,
      Nat.add_min_add_right]
    cases hcut : (cutPiece blank delim false (behindGap blank s)).2 with
    | none => exact congrArg Nat.succ (Nat.min_zero _).symm
    | some rest =>
      have hlt := length_rest_lt blank delim hcut
      refine congrArg Nat.succ (ih rest (by omega) fun hne' => ?_)
      have hpos := List.length_pos_iff.mpr hne'
      exact ⟨k - 1, by omega⟩

theorem length_pieces_le (n : Nat) (s : Str) : (pieces blank delim n s).length ≤ n := by
  rw [length_pieces blank delim (m := s.length + 1) (Nat.lt_succ_self s.length)]
  exact Nat.min_le_left _ _

theorem length_pieces_lt_iff (n : Nat) (s : Str) :
    (pieces blank delim n s).length < n ↔ (allPieces blank delim s).length < n := by
  have h := length_pieces blank delim (n := n) (m := s.length + 1) (Nat.lt_succ_self s.length)
  unfold allPieces
  omega

end Pieces

/-! ## A loop that cuts, and then the cleaning -/

/-- The texts that are left of the pieces stand in the memory, the first of them in its place, and
nothing before `lo` has changed. -/
def Separated (mem : Str) (lo : Nat) (delim : UInt8) (ps : List Str)
    (x : Access (Str × List Nat)) : Prop :=
  ∃ mem' starts, x = .of (.ok (mem', starts)) ∧ starts.length = ps.length ∧
    (∀ t ∈ ps.head?, starts.head? = some (lo + (gap true t).length)) ∧ mem'.take lo = mem.take lo ∧
      mem'.length = mem.length ∧ Texts mem' lo (starts.zip (ps.map (cleaned delim)))

/-- The two passes, for either loop. -/
def cutAndClean (step : Scan → Except Nat (Scan ⊕ Scan)) (delim : UInt8) (mem : Str)
    (buf : Nat) : Access (Str × List Nat) :=
  loop step (scanFuel mem) ⟨mem, buf, [], false, .start⟩ >>= fun t => cleanAll delim t.mem t.array

section Passes

variable {blank : Bool} {delim c : UInt8} {arraylen : Nat}
  {step : Scan → Except Nat (Scan ⊕ Scan)} {s : Str}

theorem Cutter.leaves (h : Cutter blank delim arraylen step)
    (hends : ∀ s, (iterate step (scanFuel s.mem) s).isSome = true)
    (pre : Str) (hzero : 0 ∉ s) (hdangling : dangling s = true)
    (hroom : (allPieces blank delim s).length < arraylen) :
    ∃ e, cutAndClean step c (pre ++ (s ++ [0])) pre.length = .of (.error e) := by
  have hrun := h.run (n := arraylen) (s := s) pre [] [] .start (fun _ => rfl) hzero (Nat.zero_add _)
  rw [if_pos ⟨hdangling, (length_pieces_lt_iff blank delim arraylen s).mpr hroom⟩] at hrun
  obtain ⟨t, hreach, hptr, hmem⟩ := hrun
  refine ⟨t.ptr, ?_⟩
  have hloop : loop step (scanFuel (pre ++ (s ++ [0]))) ⟨pre ++ (s ++ [0]), pre.length, [], false,
      .start⟩ = .of (.error t.ptr) :=
    loop_of_reaches_error (hends (scanAt pre s [] [] false .start)) hreach
      (h.beyond t (by rw [hptr, hmem]; exact le_rfl))
  unfold cutAndClean
  rw [hloop, Access.of_error_bind]

theorem Cutter.separates (h : Cutter blank delim arraylen step)
    (hends : ∀ s, (iterate step (scanFuel s.mem) s).isSome = true) (pre post : Str) (hzero : 0 ∉ s)
    (hok : ¬(dangling s = true ∧ (allPieces blank delim s).length < arraylen)) :
    Separated (pre ++ (s ++ 0 :: post)) pre.length c (pieces blank delim arraylen s)
      (cutAndClean step c (pre ++ (s ++ 0 :: post)) pre.length) := by
  have hrun := h.run (n := arraylen) (s := s) pre post [] .start (fun _ => rfl) hzero (Nat.zero_add _)
  rw [if_neg fun hover => hok ⟨hover.1,
    (length_pieces_lt_iff blank delim arraylen s).mp hover.2⟩] at hrun
  obtain ⟨t, qs, s', hreach, hlast, harray, hlen, hfirst, hmem, hlen', htexts⟩ := hrun
  obtain ⟨mem', starts, hall, hstarts, hhead, htake, hlength, htexts'⟩ := cleanAll_eq c hlen htexts
  refine ⟨mem', starts, ?_, hstarts, ?_, ?_, ?_, htexts'⟩
  · have hloop : loop step (scanFuel (pre ++ (s ++ 0 :: post))) ⟨pre ++ (s ++ 0 :: post), pre.length,
        [], false, .start⟩ =
        .of (.ok t) :=
      loop_of_reaches (hends (scanAt pre s post [] false .start)) hreach hlast
    unfold cutAndClean
    rw [hloop, Access.of_ok_bind, show t.array = qs from harray]
    exact hall
  · intro piece hpiece
    cases qs with
    | nil => rw [List.eq_nil_of_length_eq_zero hlen.symm] at hpiece; cases hpiece
    | cons q qs => exact hfirst q rfl ▸ hhead q rfl piece hpiece
  · rw [htake, hmem, List.take_left, List.take_left]
  · rw [hlength, hmem]
    simp [hlen']

end Passes

/-! ## The whole -/

/-- The text that is cut, and the delimiter: those behind `^^`, if there are any. -/
def ownText (s : Str) (delim : UInt8) : Str × UInt8 :=
  match s with
  | a :: b :: d :: c :: rest => if a = 94 ∧ b = 94 then (c :: rest, d) else (s, delim)
  | _ => (s, delim)

theorem ownDelim_eq {s : Str} (hzero : 0 ∉ s) (post : Str) (delim : UInt8) :
    ∃ pre, s = pre ++ (ownText s delim).1 ∧
      ownDelim (s ++ 0 :: post) 0 delim = .ok (pre.length, (ownText s delim).2) := by
  match s with
  | [] => exact ⟨[], rfl, rfl⟩
  | [a] =>
    refine ⟨[], rfl, ?_⟩
    show (if a = 94 then _ else _) = _
    split <;> rfl
  | [a, b] =>
    refine ⟨[], rfl, ?_⟩
    show (if a = 94 then (if b = 94 then _ else _) else _) = _
    repeat' split
    all_goals rfl
  | [a, b, d] =>
    refine ⟨[], rfl, ?_⟩
    show (if a = 94 then (if b = 94 then (if d ≠ 0 then _ else _) else _) else _) = _
    repeat' split
    all_goals rfl
  | a :: b :: d :: c :: rest =>
    have hd : d ≠ 0 := fun hd => hzero (by simp [hd])
    have hc : c ≠ 0 := fun hc => hzero (by simp [hc])
    have heq : ownDelim (a :: b :: d :: c :: rest ++ 0 :: post) 0 delim =
        if a = 94 then if b = 94 then if d ≠ 0 then if c ≠ 0 then
          .ok (3, d) else .ok (0, delim) else .ok (0, delim)
          else .ok (0, delim) else .ok (0, delim) := rfl
    rw [heq, if_pos hd, if_pos hc]
    unfold ownText
    by_cases hown : a = 94 ∧ b = 94
    · rw [if_pos hown.1, if_pos hown.2]
      simp only [if_pos hown]
      exact ⟨[a, b, d], rfl, rfl⟩
    · simp only [if_neg hown]
      refine ⟨[], rfl, ?_⟩
      by_cases ha : a = 94
      · rw [if_pos ha, if_neg fun hb => hown ⟨ha, hb⟩]
        rfl
      · rw [if_neg ha]
        rfl

/-- What the pieces are cleaned with. -/
def cleanDelim (delim : UInt8) : UInt8 := if delim = 32 then 0 else delim

/-- The texts that a text is separated into. -/
def separated (s : Str) (delim : UInt8) (arraylen : Nat) : List Str :=
  (pieces (decide ((ownText s delim).2 = 32)) (ownText s delim).2 arraylen (ownText s delim).1).map
    (cleaned (cleanDelim (ownText s delim).2))

/-- The text ends with a backslash that is not itself escaped, in a piece that is not the last one there
is room for. -/
def Overruns (s : Str) (delim : UInt8) (arraylen : Nat) : Prop :=
  dangling (ownText s delim).1 = true ∧
    (allPieces (decide ((ownText s delim).2 = 32)) (ownText s delim).2 (ownText s delim).1).length <
      arraylen

instance (s : Str) (delim : UInt8) (arraylen : Nat) : Decidable (Overruns s delim arraylen) :=
  inferInstanceAs (Decidable (_ ∧ _))

/-- The two loops are chosen by the delimiter. -/
theorem switchSeparateString_of_ownDelim {mem : Str} {buf : Nat} {delim d : UInt8} {arraylen : Nat}
    (harray : arraylen ≠ 0) (hown : ownDelim mem 0 delim = .ok (buf, d)) :
    ∃ step, switchSeparateString mem 0 delim arraylen = cutAndClean step (cleanDelim d) mem buf ∧
      Cutter (decide (d = 32)) d arraylen step ∧ ∀ s,
      (iterate step (scanFuel s.mem) s).isSome = true := by
  unfold switchSeparateString cleanDelim
  rw [if_neg harray, hown, Access.of_ok_bind]
  by_cases hd : d = 32
  · subst hd
    exact ⟨blankStep arraylen, rfl, cutter_blankStep arraylen, blankStep_isSome arraylen⟩
  · rw [decide_eq_false hd, if_neg hd]
    exact ⟨charStep d arraylen, if_neg hd, cutter_charStep d arraylen, charStep_isSome d arraylen⟩

theorem switchSeparateString_eq {s : Str} (hzero : 0 ∉ s) (post : Str) {delim : UInt8} {arraylen : Nat}
    (hok : ¬Overruns s delim arraylen) :
    ∃ mem starts, switchSeparateString (s ++ 0 :: post) 0 delim arraylen = .of (.ok (mem, starts)) ∧
      starts.length = (separated s delim arraylen).length ∧
        (∀ t ∈ (pieces (decide ((ownText s delim).2 = 32)) (ownText s delim).2 arraylen
          (ownText s delim).1).head?,
          starts.head? = some (s.length - (ownText s delim).1.length + (gap true t).length)) ∧
          mem.length = (s ++ 0 :: post).length ∧
          Texts mem 0 (starts.zip (separated s delim arraylen)) := by
  by_cases harray : arraylen = 0
  · subst harray
    exact ⟨s ++ 0 :: post, [], rfl, rfl, by simp [pieces], rfl, trivial⟩
  obtain ⟨pre, hs, hown⟩ := ownDelim_eq hzero post delim
  obtain ⟨step, heq, hcutter, hends⟩ := switchSeparateString_of_ownDelim harray hown
  have hzero' : 0 ∉ (ownText s delim).1 := fun hmem => hzero (hs ▸ List.mem_append_right _ hmem)
  have hseparates := hcutter.separates hends pre post (c := cleanDelim (ownText s delim).2) hzero' hok
  rw [← List.append_assoc, ← hs] at hseparates
  obtain ⟨mem, starts, hout, hlen, hhead, -, hlength, htexts⟩ := hseparates
  have hpre : s.length - (ownText s delim).1.length = pre.length := by
    have hlen := congrArg List.length hs
    rw [List.length_append] at hlen
    omega
  rw [hpre]
  exact ⟨mem, starts, heq.trans hout, hlen.trans (List.length_map _).symm, hhead, hlength,
    htexts.mono (Nat.zero_le _)⟩

theorem switchSeparateString_error {s : Str} (hzero : 0 ∉ s) {delim : UInt8} {arraylen : Nat}
    (hover : Overruns s delim arraylen) :
    ∃ e, switchSeparateString (s ++ [0]) 0 delim arraylen = .of (.error e) := by
  have harray : arraylen ≠ 0 := Nat.ne_of_gt (Nat.zero_lt_of_lt hover.2)
  obtain ⟨pre, hs, hown⟩ := ownDelim_eq hzero [] delim
  obtain ⟨step, heq, hcutter, hends⟩ := switchSeparateString_of_ownDelim harray hown
  have hzero' : 0 ∉ (ownText s delim).1 := fun hmem => hzero (hs ▸ List.mem_append_right _ hmem)
  obtain ⟨e, he⟩ :=
    hcutter.leaves hends pre (c := cleanDelim (ownText s delim).2) hzero' hover.1 hover.2
  rw [← List.append_assoc, ← hs] at he
  exact ⟨e, heq.trans he⟩

/-- No position behind the NUL is read or written, exactly if the text does not end with a backslash
that is not itself escaped, or has enough pieces to fill the array. -/
theorem separate_inside_iff (s : Str) (delim : UInt8) (arraylen : Nat) (hzero : 0 ∉ s) :
    (∃ out, switchSeparateString (s ++ [0]) 0 delim arraylen = .of (.ok out)) ↔
      ¬Overruns s delim arraylen := by
  constructor
  · rintro ⟨out, hout⟩ hover
    obtain ⟨e, he⟩ := switchSeparateString_error hzero hover
    rw [he] at hout
    cases hout
  · intro hok
    obtain ⟨mem, starts, heq, -⟩ := switchSeparateString_eq hzero [] hok
    exact ⟨(mem, starts), heq⟩

/-- A text that ends in an escaped backslash stays inside. -/
theorem separate_inside_iff_escaped : 0 ∉ bytes "a,b\\\\" ∧
    ∃ out, switchSeparateString (bytes "a,b\\\\" ++ [0]) 0 44 10 = .of (.ok out) :=
  ⟨by decide, (separate_inside_iff (bytes "a,b\\\\") 44 10 (by decide)).mpr (by decide +kernel)⟩

/-- Of `a\`, with room for two pieces, the place behind the NUL is read. -/
theorem separate_leaves : switchSeparateString (bytes "a\\" ++ [0]) 0 44 2 = .of (.error 3) := rfl

end FreeSwitch.Separate
