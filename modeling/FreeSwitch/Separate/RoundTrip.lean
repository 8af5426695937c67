import FreeSwitch.Separate.InBounds

/-!
# Escaping and separating

A token in which the delimiter, the quotes and the backslashes are escaped passes through both loops as
it is, whatever comes behind it: the first one goes over every escaped character, and the second one
takes the backslashes away.

* **`cutPiece_escape`** — nothing in an escaped token is a delimiter or a quote.
* **`cleaned_escape`** — what is left of it is the token.
* **`separate_escape`** — tokens that are escaped and joined are found again.
-/

namespace FreeSwitch.Separate

open CString TextMemory

/-! ## An escaped token -/

section Escape

variable {delim : UInt8} {set : Str}

/-- A character, with a backslash before it if it is one of the set. -/
def escape (set t : Str) : Str := t.flatMap fun c => if c ∈ set then [92, c] else [c]

/-- What `switch_escape_char` does with a set that names no character twice. -/
theorem switchEscapeChar_eq (hset : set.Nodup) (t : Str) :
    switchEscapeChar t set 92 = escape set t := by
  have hone : ∀ c, (set.flatMap fun d => if c = d then [(92 : UInt8)] else []) = if c ∈ set then
      [92] else [] := by
    intro c
    induction set with
    | nil => rfl
    | cons d set ih =>
      obtain ⟨hd, hset⟩ := List.nodup_cons.mp hset
      rw [List.flatMap_cons, ih hset]
      by_cases hc : c = d
      · subst hc
        simp [hd]
      · simp [hc]
  unfold switchEscapeChar
  split
  · next hnone =>
    unfold escape
    induction t with
    | nil => rfl
    | cons c t ih =>
      rw [List.flatMap_cons, if_neg (hnone c List.mem_cons_self),
        ← ih fun d hd => hnone d (List.mem_cons_of_mem c hd)]
      rfl
  · unfold escapeChars escape
    refine List.flatMap_congr fun c _ => ?_
    rw [hone c]
    split <;> rfl

/-- The set holds what the loops look for. -/
structure Protects (delim : UInt8) (set : Str) : Prop where
  delim_ne_zero : delim ≠ 0
  delim_ne_space : delim ≠ 32
  mem_iff : ∀ c, c ∈ set ↔ c = delim ∨ c = 39 ∨ c = 92

theorem escape_cons_of_mem {c : UInt8} (hc : c ∈ set) (t : Str) :
    escape set (c :: t) = 92 :: c :: escape set t := by
  unfold escape
  rw [List.flatMap_cons, if_pos hc]
  rfl

theorem escape_cons_of_notMem {c : UInt8} (hc : c ∉ set) (t : Str) :
    escape set (c :: t) = c :: escape set t := by
  unfold escape
  rw [List.flatMap_cons, if_neg hc]
  rfl

theorem escape_append (t u : Str) :
    escape set (t ++ u) = escape set t ++ escape set u := List.flatMap_append

theorem escape_ne_nil {t : Str} (ht : t ≠ []) : escape set t ≠ [] := by
  obtain ⟨c, t, rfl⟩ := List.exists_cons_of_ne_nil ht
  by_cases hc : c ∈ set
  · rw [escape_cons_of_mem hc]
    exact List.cons_ne_nil _ _
  · rw [escape_cons_of_notMem hc]
    exact List.cons_ne_nil _ _

theorem zero_notMem_escape {t : Str} (ht : 0 ∉ t) : 0 ∉ escape set t := by
  unfold escape
  intro hmem
  obtain ⟨c, hc, hzero⟩ := List.mem_flatMap.mp hmem
  have hne : c ≠ 0 := fun h => ht (h ▸ hc)
  split at hzero
  · rcases List.mem_pair.mp hzero with h | h
    · cases h
    · exact hne h.symm
  · exact hne (List.mem_singleton.mp hzero).symm

theorem dangling_escape (h : Protects delim set) (t rest : Str) :
    dangling (escape set t ++ rest) = dangling rest := by
  induction t with
  | nil => rfl
  | cons c t ih =>
    by_cases hc : c ∈ set
    · rw [escape_cons_of_mem hc]
      exact ih
    · rw [escape_cons_of_notMem hc, List.cons_append,
        dangling_cons fun hmeta => hc ((h.mem_iff c).mpr (.inr (.inr hmeta))), ih]

/-- Nothing in an escaped token is a delimiter or a quote. -/
theorem cutPiece_escape (h : Protects delim set) (t rest : Str) :
    cutPiece false delim false (escape set t ++ rest) =
    (escape set t ++ (cutPiece false delim false rest).1, (cutPiece false delim false rest).2) := by
  induction t with
  | nil => rfl
  | cons c t ih =>
    by_cases hc : c ∈ set
    · rw [escape_cons_of_mem hc]
      show (92 :: c :: (cutPiece false delim false (escape set t ++ rest)).1,
        (cutPiece false delim false (escape set t ++ rest)).2) = _
      rw [ih]
      rfl
    · have hplain := hc ∘ (h.mem_iff c).mpr
      rw [escape_cons_of_notMem hc, List.cons_append,
        cutPiece_cons fun hmeta => hplain (.inr (.inr hmeta)),
        if_neg fun hquote => hplain (.inr (.inl hquote.1)), if_neg fun hcut => hplain (.inl hcut.1), ih]
      rfl

theorem Protects.escaped (h : Protects delim set) {c : UInt8} (hc : c ∈ set) :
    escaped delim c = some c := by
  apply if_pos
  rcases (h.mem_iff c).mp hc with rfl | rfl | rfl
  · exact .inr (.inr (.inl ⟨h.delim_ne_zero, rfl⟩))
  · exact .inl rfl
  · exact .inr (.inr (.inr rfl))

theorem Protects.ne_space (h : Protects delim set) {c : UInt8} (hc : c ∈ set) : c ≠ 32 := by
  rcases (h.mem_iff c).mp hc with rfl | rfl | rfl
  · exact h.delim_ne_space
  · decide
  · decide

/-- The second loop keeps a character of the token, escaped or not. -/
theorem cleanRun_escape_cons (h : Protects delim set) (c : UInt8) (t rest out : Str)
    (endp : Option Nat) :
    cleanRun delim false out endp (escape set (c :: t) ++ rest) =
      cleanRun delim false (out ++ [c]) (if c ≠ 32 then some (out.length + 1) else endp)
        (escape set t ++ rest) := by
  by_cases hc : c ∈ set
  · rw [escape_cons_of_mem hc, if_pos (h.ne_space hc)]
    show cleanRun delim false out endp (92 :: c :: (escape set t ++ rest)) = _
    rw [cleanRun.eq_def]
    simp only [h.escaped hc, if_true]
  · have hplain := hc ∘ (h.mem_iff c).mpr
    rw [escape_cons_of_notMem hc, List.cons_append, cleanRun.eq_def]
    simp only
    rw [if_neg fun hmeta => hplain (.inr (.inr hmeta)),
      if_neg fun hquote => hplain (.inr (.inl hquote.1))]
    simp

theorem cleanRun_escape (h : Protects delim set) (t rest out : Str) (endp : Option Nat) :
    ∃ endp', cleanRun delim false out endp (escape set t ++ rest) =
      cleanRun delim false (out ++ t) endp' rest := by
  induction t generalizing out endp with
  | nil => exact ⟨endp, by rw [List.append_nil]; rfl⟩
  | cons c t ih =>
    rw [cleanRun_escape_cons h, show out ++ c :: t = out ++ [c] ++ t by simp]
    exact ih (out ++ [c]) _

theorem behindGap_escape {t : Str} (hhead : t.head? ≠ some 32) :
    behindGap true (escape set t) = escape set t := by
  show (escape set t).dropWhile (· == 32) = escape set t
  cases t with
  | nil => rfl
  | cons c t =>
    by_cases hc : c ∈ set
    · rw [escape_cons_of_mem hc, List.dropWhile_cons_of_neg (by decide)]
    · have hne : c ≠ 32 := fun h => hhead (congrArg some h)
      rw [escape_cons_of_notMem hc, List.dropWhile_cons_of_neg (by simpa using hne)]

/-- What is left of an escaped token is the token. -/
theorem cleaned_escape (h : Protects delim set) {t : Str} (hne : t ≠ []) (hhead : t.head? ≠ some 32)
    (hlast : t.getLast? ≠ some 32) : cleaned delim (escape set t) = t := by
  unfold cleaned
  rw [behindGap_escape hhead]
  obtain ⟨u, c, rfl⟩ : ∃ u c,
    t = u ++ [c] := ⟨t.dropLast, t.getLast hne, (List.dropLast_append_getLast hne).symm⟩
  have hc : c ≠ 32 := fun hc => hlast (by simp [hc])
  obtain ⟨endp, heq⟩ := cleanRun_escape h u (escape set [c]) [] none
  have hend := cleanRun_escape_cons h c [] [] ([] ++ u) endp
  rw [List.append_nil] at hend
  rw [escape_append, heq, hend, if_pos hc]
  show (u ++ [c]).take (u.length + 1) = u ++ [c]
  exact List.take_of_length_le (by simp)

end Escape

/-! ## Tokens -/

section Tokens

variable {delim : UInt8} {set : Str}

/-- The escaped tokens, with the delimiter between them. -/
def joined (delim : UInt8) (set : Str) (ts : List Str) : Str :=
  [delim].intercalate (ts.map fun t => switchEscapeChar t set 92)

/-- A token: not empty, and without a space at either end. -/
def IsToken (t : Str) : Prop := t ≠ [] ∧ 0 ∉ t ∧ t.head? ≠ some 32 ∧ t.getLast? ≠ some 32

instance (t : Str) : Decidable (IsToken t) := inferInstanceAs (Decidable (_ ∧ _ ∧ _ ∧ _))

theorem joined_singleton (hset : set.Nodup) (t : Str) : joined delim set [t] = escape set t := by
  rw [← switchEscapeChar_eq hset]
  simp [joined, List.intercalate]

theorem joined_cons_cons (hset : set.Nodup) (t u : Str) (ts : List Str) :
    joined delim set (t :: u :: ts) = escape set t ++ delim :: joined delim set (u :: ts) := by
  rw [← switchEscapeChar_eq hset]
  simp [joined, List.intercalate]

theorem zero_notMem_joined (h : Protects delim set) (hset : set.Nodup) :
    ∀ {ts : List Str}, (∀ t ∈ ts, IsToken t) →
    0 ∉ joined delim set ts
  | [], _ => by simp [joined, List.intercalate]
  | [t], hts => by
    rw [joined_singleton hset]
    exact zero_notMem_escape (hts t List.mem_cons_self).2.1
  | t :: u :: ts, hts => by
    rw [joined_cons_cons hset]
    intro hmem
    rcases List.mem_append.mp hmem with hmem | hmem
    · exact zero_notMem_escape (hts t List.mem_cons_self).2.1 hmem
    · rcases List.mem_cons.mp hmem with hzero | hmem
      · exact h.delim_ne_zero hzero.symm
      · exact zero_notMem_joined h hset (fun t' ht' => hts t' (List.mem_cons_of_mem t ht')) hmem

theorem dangling_joined (h : Protects delim set) (hset : set.Nodup) (hmeta : delim ≠ 92) :
    ∀ ts : List Str, dangling (joined delim set ts) = false
  | [] => rfl
  | [t] => by
    rw [joined_singleton hset, ← List.append_nil (escape set t), dangling_escape h]
    rfl
  | t :: u :: ts => by
    rw [joined_cons_cons hset, dangling_escape h, dangling_cons hmeta, dangling_joined h hset hmeta]

/-- The pieces of the joined text are the escaped tokens. -/
theorem pieces_joined (h : Protects delim set) (hset : set.Nodup) (hmeta : delim ≠ 92)
    (hquote : delim ≠ 39) :
    ∀ {ts : List Str} {n : Nat}, (∀ t ∈ ts, t ≠ []) → ts.length ≤ n →
      pieces false delim n (joined delim set ts) = ts.map (escape set)
  | [], n, _, _ => pieces_nil false delim n
  | [t], 1, hts, _ => by
    rw [joined_singleton hset, pieces, if_neg (escape_ne_nil (hts t List.mem_cons_self))]
    rfl
  | [t], n + 2, hts, _ => by
    have hcut := cutPiece_escape h t []
    rw [List.append_nil] at hcut
    rw [cutPiece, List.append_nil] at hcut
    rw [joined_singleton hset]
    exact pieces_last false delim n (escape_ne_nil (hts t List.mem_cons_self)) hcut
  | t :: u :: ts, n + 2, hts, hlen => by
    have hcut := cutPiece_escape h t (delim :: joined delim set (u :: ts))
    have hdelim : cutPiece false delim false (delim :: joined delim set (u :: ts)) =
        ([], some (joined delim set (u :: ts))) := by
      rw [cutPiece_cons hmeta, if_neg fun hquotes => hquote hquotes.1, if_pos ⟨rfl, rfl⟩]
    rw [hdelim, List.append_nil] at hcut
    have hrest :=
      pieces_joined h hset hmeta hquote (n := n + 1) (fun t' ht' => hts t' (List.mem_cons_of_mem t ht'))
      (Nat.le_of_succ_le_succ hlen)
    have hne : escape set t ++ delim :: joined delim set (u :: ts) ≠ [] :=
      List.append_ne_nil_of_right_ne_nil _ (List.cons_ne_nil _ _)
    rw [joined_cons_cons hset]
    exact (pieces_cut false delim n hne hcut).trans (congrArg (List.cons _) hrest)

/-- Tokens that are escaped and joined are found again, whatever stands behind the text. -/
theorem separate_escape (delim : UInt8) (set : Str) (ts : List Str) (arraylen : Nat) (post : Str)
    (hdelim : delim ≠ 0 ∧ delim ≠ 32 ∧ delim ≠ 92 ∧ delim ≠ 39) (hset : set.Perm [delim, 39, 92])
    (hts : ∀ t ∈ ts, IsToken t)
    (hlen : ts.length ≤ arraylen) (hown : ¬[94, 94] <+: joined delim set ts) :
    ∃ out, switchSeparateString (joined delim set ts ++ 0 :: post) 0 delim arraylen = .of (.ok out) ∧
      tokens out = ts := by
  obtain ⟨hzero, hspace, hmeta, hquote⟩ := hdelim
  have hnodup : set.Nodup := hset.nodup_iff.mpr (by simp [hmeta, hquote])
  have h : Protects delim set := ⟨hzero, hspace, fun c => by rw [hset.mem_iff]; simp⟩
  have hownText : ownText (joined delim set ts) delim = (joined delim set ts, delim) := by
    unfold ownText
    split
    · next a b d c rest heq =>
      apply if_neg
      rintro ⟨rfl, rfl⟩
      exact hown ⟨d :: c :: rest, heq.symm⟩
    · rfl
  have hseparated : separated (joined delim set ts) delim arraylen = ts := by
    unfold separated cleanDelim
    rw [hownText, decide_eq_false hspace, if_neg hspace,
      pieces_joined h hnodup hmeta hquote (fun t ht => (hts t ht).1) hlen, List.map_map]
    refine (List.map_congr_left fun t ht => ?_).trans (List.map_id ts)
    obtain ⟨hne, -, hhead, hlast⟩ := hts t ht
    exact cleaned_escape h hne hhead hlast
  have hok : ¬Overruns (joined delim set ts) delim arraylen := by
    rintro ⟨hd, -⟩
    rw [hownText, dangling_joined h hnodup hmeta] at hd
    cases hd
  obtain ⟨mem, starts, heq, hstarts, -, -, htexts⟩ :=
    switchSeparateString_eq (zero_notMem_joined h hnodup hts) post hok
  rw [hseparated] at hstarts htexts
  exact ⟨(mem, starts), heq, htexts.map_text hstarts⟩

theorem separate_escape_three :
    ((44 : UInt8) ≠ 0 ∧ (44 : UInt8) ≠ 32 ∧ (44 : UInt8) ≠ 92 ∧ (44 : UInt8) ≠ 39) ∧
    (bytes ",'\\").Perm [44, 39, 92] ∧
    (∀ t ∈ [bytes "a,b\\", bytes "'n\\n' x", bytes "\\,"], IsToken t) ∧
      3 ≤ 3 ∧ ¬[94, 94] <+: joined 44 (bytes ",'\\") [bytes "a,b\\", bytes "'n\\n' x", bytes "\\,"] ∧
        ∃ out,
          switchSeparateString (joined 44 (bytes ",'\\") [bytes "a,b\\", bytes "'n\\n' x",
            bytes "\\,"] ++ 0 :: [97]) 0
          44 3 = .of (.ok out) ∧ tokens out = [bytes "a,b\\", bytes "'n\\n' x", bytes "\\,"] := by
  have hts : ∀ t ∈ [bytes "a,b\\", bytes "'n\\n' x", bytes "\\,"], IsToken t := by decide +kernel
  have hown : ¬[94, 94] <+: joined 44 (bytes ",'\\") [bytes "a,b\\", bytes "'n\\n' x",
      bytes "\\,"] := by decide +kernel
  exact ⟨by decide, .refl _, hts, le_rfl, hown,
    separate_escape 44 (bytes ",'\\") _ 3 [97] (by decide) (.refl _) hts le_rfl hown⟩

end Tokens

end FreeSwitch.Separate
