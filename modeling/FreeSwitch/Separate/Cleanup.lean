import FreeSwitch.Separate.Pieces

/-!
# What is left of a piece

`cleanup_separated_string` moves the characters of a piece to the left, over the ones it has read. Since
it never writes behind the place it reads, the text it leaves depends on the piece only.

* **`cleaned`** — the text that is left of a piece.
* **`cleanupSeparatedString_eq`** — the text stands in the place of the piece afterwards, and nothing
  else changes.
* **`cleanAll_eq`** — the same for pieces one behind the other.
-/

namespace FreeSwitch.Separate

open CString TextMemory Bounded

/-! ## Texts -/

section Texts

variable (delim : UInt8)

/-- The characters that are kept of a piece, with `out` kept already, and how many of them count. -/
def cleanRun : Bool → Str → Option Nat → Str → Str × Option Nat
  | _, out, endp, [] => (out, endp)
  | inside, out, endp, c :: s =>
    if c = 92 then
      match s with
      | [] => (out ++ [92], some (out.length + 1))
      | e :: s =>
        match escaped delim e with
        | some x => cleanRun inside (out ++ [x]) (some (out.length + 1)) s
        | none => cleanRun inside (out ++ [92]) (some (out.length + 1)) (e :: s)
    else if Quotes false inside c s then
      cleanRun (!inside) out (if inside then endp else some out.length) s
    else cleanRun inside (out ++ [c]) (if c ≠ 32 ∨ inside = true then some (out.length + 1) else endp) s

/-- The text that is left of a piece. -/
def cleaned (piece : Str) : Str :=
  (cleanRun delim false [] none (behindGap true piece)).1.take
    ((cleanRun delim false [] none (behindGap true piece)).2.getD 0)

end Texts

/-! ## Memory -/

section Steps

variable {delim : UInt8}

/-- The loop has kept `out`, and `junk` is what it has read and not written over. -/
def cleanAt (pre out junk s post : Str) (inside : Bool) (endp : Option Nat) : Clean :=
  ⟨pre ++ (out ++ (junk ++ (s ++ 0 :: post))), pre.length + out.length + junk.length,
    pre.length + out.length,
    endp.map (pre.length + ·), inside⟩

theorem read_cleanAt (pre out junk s : Str) (c : UInt8) :
    read (pre ++ (out ++ (junk ++ c :: s))) (pre.length + out.length + junk.length) = .ok c := by
  have h := read_append (pre ++ out ++ junk) c s
  rw [List.length_append, List.length_append] at h
  simpa only [List.append_assoc] using h

theorem read_cleanAt_next (pre out junk s : Str) (c d : UInt8) :
    read (pre ++ (out ++ (junk ++ c :: d :: s))) (pre.length + out.length + junk.length + 1) =
      .ok d := by
  have h := read_cleanAt pre out (junk ++ [c]) s d
  rw [List.length_append, ← Nat.add_assoc] at h
  rwa [List.append_assoc] at h

theorem quotes_cleanAt (pre out junk post : Str) {s : Str} (c : UInt8) (inside : Bool) (hzero : 0 ∉ s) :
    quotes (pre ++ (out ++ (junk ++ (c :: s ++ 0 :: post))))
      (pre.length + out.length + junk.length) inside c =
      .ok (decide (Quotes false inside c s)) := by
  have h := quotes_eq (pre ++ out ++ junk) s post c inside hzero
  rw [List.length_append, List.length_append] at h
  simpa only [List.append_assoc] using h

/-- One character is written for those that were read. -/
theorem write_cleanAt (pre out junk : Str) {x : Str} (hx : x ≠ []) (rest : Str) (y : UInt8) :
    write (pre ++ (out ++ (junk ++ (x ++ rest)))) (pre.length + out.length) y =
      .ok (pre ++ ((out ++ [y]) ++ ((junk ++ x).tail ++ rest))) := by
  obtain ⟨z, zs, hzs⟩ := List.exists_cons_of_ne_nil (List.append_ne_nil_of_right_ne_nil junk hx)
  have h := write_append (pre ++ out) z (zs ++ rest) y
  rw [List.length_append] at h
  rw [← List.append_assoc junk, hzs, ← List.append_assoc pre]
  refine h.trans ?_
  simp

theorem length_junk (junk : Str) {x : Str} (hx : x ≠ []) :
    (junk ++ x).tail.length + 1 = junk.length + x.length := by
  obtain ⟨z, zs, hzs⟩ := List.exists_cons_of_ne_nil (List.append_ne_nil_of_right_ne_nil junk hx)
  rw [← List.length_append, hzs]
  rfl

theorem cleanStep_last {s : Clean} (hread : read s.mem s.ptr = .ok 0) :
    cleanStep delim s = .ok (.inr s) := by
  unfold cleanStep
  rw [hread]
  rfl

theorem cleanStep_escape {s : Clean} {e y : UInt8} {mem : Str} (hread : read s.mem s.ptr = .ok 92)
    (hread' : read s.mem (s.ptr + 1) = .ok e) (he : escaped delim e = some y)
    (hwrite : write s.mem s.dest y = .ok mem) :
    Next (cleanStep delim) s
      { s with mem, dest := s.dest + 1, ptr := s.ptr + 2, endp := some (s.dest + 1) } := by
  unfold Next cleanStep
  rw [hread, hread']
  show (match escaped delim e with | some _ => _ | none => _) = _
  rw [he]
  show (write s.mem s.dest y >>= _) = _
  rw [hwrite]
  rfl

theorem cleanStep_plain {s t : Clean} {c : UInt8} (hread : read s.mem s.ptr = .ok c) (hc : c ≠ 0)
    (hesc : c = 92 → ∃ e, read s.mem (s.ptr + 1) = .ok e ∧ escaped delim e = none)
    (ht : cleanPlain s c = .ok t) :
    Next (cleanStep delim) s t := by
  unfold Next cleanStep
  rw [hread]
  refine (if_neg hc).trans ?_
  by_cases hmeta : c = 92
  · obtain ⟨e, hread', he⟩ := hesc hmeta
    rw [if_pos hmeta, hread']
    show (match escaped delim e with | some _ => _ | none => _) = _
    rw [he]
    show (cleanPlain s c >>= _) = _
    rw [ht]
    rfl
  · rw [if_neg hmeta, ht]
    rfl

theorem cleanPlain_quote {s : Clean} {c : UInt8} (h : quotes s.mem s.ptr s.insideQuotes c = .ok true) :
    cleanPlain s c = .ok { s with
      insideQuotes := !s.insideQuotes, endp := if s.insideQuotes then s.endp else some s.dest,
      ptr := s.ptr + 1 } := by
  unfold cleanPlain
  rw [h]
  rfl

theorem cleanPlain_keep {s : Clean} {c : UInt8} {mem : Str}
    (h : quotes s.mem s.ptr s.insideQuotes c = .ok false) (hwrite : write s.mem s.dest c = .ok mem) :
    cleanPlain s c = .ok { s with
      mem, dest := s.dest + 1, ptr := s.ptr + 1
      endp := if c ≠ 32 ∨ s.insideQuotes = true then some (s.dest + 1) else s.endp } := by
  unfold cleanPlain
  rw [h]
  show (write s.mem s.dest c >>= _) = _
  rw [hwrite]
  rfl

theorem clean_escape (pre out junk s post : Str) (inside : Bool) (endp : Option Nat) {e y : UInt8}
    (he : escaped delim e = some y) :
    Next (cleanStep delim) (cleanAt pre out junk (92 :: e :: s) post inside endp)
      (cleanAt pre (out ++ [y]) (junk ++ [92, e]).tail s post inside (some (out.length + 1))) := by
  have hnext := cleanStep_escape (s := cleanAt pre out junk (92 :: e :: s) post inside endp)
    (read_cleanAt pre out junk _ 92) (read_cleanAt_next pre out junk _ 92 e) he
    (write_cleanAt pre out junk (x := [92, e]) (by simp) (s ++ 0 :: post) y)
  have hlen := length_junk junk (x := [92, e]) (by simp)
  refine hnext.trans (congrArg (fun t : Clean => (.ok (.inl t) : Except Nat (Clean ⊕ Clean))) ?_)
  simp only [cleanAt, List.length_append, List.length_cons, List.length_nil, Option.map_some] at hlen ⊢
  congr 1
  omega

theorem clean_plain (delim : UInt8) (pre out junk s post : Str) (inside : Bool) (endp : Option Nat)
    {c : UInt8} (hc : c ≠ 0) (hzero : 0 ∉ s) (hesc : c = 92 → escaped delim (s.headD 0) = none) :
    Next (cleanStep delim) (cleanAt pre out junk (c :: s) post inside endp)
      (if Quotes false inside c s then
        cleanAt pre out (junk ++ [c]) s post (!inside) (if inside then endp else some out.length)
      else cleanAt pre (out ++ [c]) (junk ++ [c]).tail s post inside
        (if c ≠ 32 ∨ inside = true then some (out.length + 1) else endp)) := by
  have hquotes := quotes_cleanAt pre out junk post c inside hzero
  have hread : ∃ e, read (pre ++ (out ++ (junk ++ (c :: s ++ 0 :: post))))
      (pre.length + out.length + junk.length + 1) = .ok e ∧
      s.headD 0 = e := by
    cases s with
    | nil => exact ⟨0, read_cleanAt_next pre out junk post c 0, rfl⟩
    | cons e s => exact ⟨e, read_cleanAt_next pre out junk _ c e, rfl⟩
  have hesc' : c = 92 → ∃ e, read (pre ++ (out ++ (junk ++ (c :: s ++ 0 :: post))))
      (pre.length + out.length + junk.length + 1) = .ok e ∧ escaped delim e = none := by
    obtain ⟨e, hread, rfl⟩ := hread
    exact fun hmeta => ⟨_, hread, hesc hmeta⟩
  by_cases hquote : Quotes false inside c s
  · rw [decide_eq_true hquote] at hquotes
    rw [if_pos hquote]
    refine (cleanStep_plain (s := cleanAt pre out junk (c :: s) post inside endp)
      (read_cleanAt pre out junk _ c) hc hesc'
      (cleanPlain_quote hquotes)).trans
        (congrArg (fun t : Clean => (.ok (.inl t) : Except Nat (Clean ⊕ Clean))) ?_)
    cases inside <;> simp [cleanAt, Nat.add_assoc]
  · rw [decide_eq_false hquote] at hquotes
    rw [if_neg hquote]
    have hlen := length_junk junk (x := [c]) (by simp)
    refine (cleanStep_plain (s := cleanAt pre out junk (c :: s) post inside endp)
      (read_cleanAt pre out junk _ c) hc hesc'
      (cleanPlain_keep hquotes
        (write_cleanAt pre out junk (x := [c]) (by simp) (s ++ 0 :: post) c))).trans
        (congrArg (fun t : Clean => (.ok (.inl t) : Except Nat (Clean ⊕ Clean))) ?_)
    simp only [cleanAt, List.length_append, List.length_cons, List.length_nil] at hlen ⊢
    congr 1
    · omega
    · rw [apply_ite (Option.map (pre.length + ·))]
      rfl

theorem not_quotes_meta (inside : Bool) (s : Str) :
    ¬Quotes false inside 92 s := fun h => absurd h.1 (by decide)

/-- Nothing stands for the end of the text. -/
theorem escaped_zero (delim : UInt8) : escaped delim 0 = none := by
  have hmeta : ¬isMeta delim 0 := by
    rintro (h | h | ⟨hne, h⟩ | h)
    · cases h
    · cases h
    · exact hne h.symm
    · cases h
  unfold escaped
  rw [if_neg hmeta]
  rfl

/-- The whole loop: it comes to the end of the piece with what is kept of it. -/
theorem clean_run (delim : UInt8) (pre out junk s post : Str) (inside : Bool) (endp : Option Nat)
    (hzero : 0 ∉ s) :
    ∃ junk' inside', Reaches (cleanStep delim) (cleanAt pre out junk s post inside endp)
      (cleanAt pre (cleanRun delim inside out endp s).1 junk' [] post inside'
        (cleanRun delim inside out endp s).2) := by
  fun_induction cleanRun delim inside out endp s generalizing junk with
  | case1 inside out endp => exact ⟨junk, inside, .refl⟩
  | case2 inside out endp =>
    have hnext := clean_plain delim pre out junk [] post inside endp (c := 92)
      (by decide) (by simp) fun _ => escaped_zero delim
    rw [if_neg (not_quotes_meta inside _), if_pos (Or.inl (by decide))] at hnext
    exact ⟨_, inside, .single hnext⟩
  | case3 inside out endp e s x he ih =>
    have hs : 0 ∉ s := fun hmem => hzero (List.mem_cons_of_mem _ (List.mem_cons_of_mem _ hmem))
    obtain ⟨junk', inside', hreach⟩ := ih (junk ++ [92, e]).tail hs
    exact ⟨junk', inside', hreach.head (clean_escape pre out junk s post inside endp he)⟩
  | case4 inside out endp e s he ih =>
    have hs : 0 ∉ e :: s := fun hmem => hzero (List.mem_cons_of_mem _ hmem)
    have hnext :=
      clean_plain delim pre out junk (e :: s) post inside endp (c := 92) (by decide) hs fun _ => he
    rw [if_neg (not_quotes_meta inside _), if_pos (Or.inl (by decide))] at hnext
    obtain ⟨junk', inside', hreach⟩ := ih (junk ++ [92]).tail hs
    exact ⟨junk', inside', hreach.head hnext⟩
  | case5 inside out endp c s hne hquote ih =>
    have hs : 0 ∉ s := fun hmem => hzero (List.mem_cons_of_mem _ hmem)
    have hnext :=
      clean_plain delim pre out junk s post inside endp (fun hc => hzero (hc ▸ List.mem_cons_self)) hs
      fun hmeta => absurd hmeta hne
    rw [if_pos hquote] at hnext
    obtain ⟨junk', inside', hreach⟩ := ih (junk ++ [c]) hs
    exact ⟨junk', inside', hreach.head hnext⟩
  | case6 inside out endp c s hne hquote ih =>
    have hs : 0 ∉ s := fun hmem => hzero (List.mem_cons_of_mem _ hmem)
    have hnext :=
      clean_plain delim pre out junk s post inside endp (fun hc => hzero (hc ▸ List.mem_cons_self)) hs
      fun hmeta => absurd hmeta hne
    rw [if_neg hquote] at hnext
    obtain ⟨junk', inside', hreach⟩ := ih (junk ++ [c]).tail hs
    exact ⟨junk', inside', hreach.head hnext⟩

end Steps

/-! ## What is kept -/

section Kept

variable {delim : UInt8}

theorem ne_zero_of_escaped {e x : UInt8} (he : e ≠ 0) (h : escaped delim e = some x) : x ≠ 0 := by
  unfold escaped at h
  split at h
  · exact Option.some.inj h ▸ he
  · split at h
    · obtain rfl := Option.some.inj h
      unfold unescapeChar
      repeat' split
      · decide
      · decide
      · decide
      · decide
      · exact he
    · cases h

theorem zero_notMem_cleanRun {inside : Bool} {out s : Str} {endp : Option Nat} (hout : 0 ∉ out)
    (hs : 0 ∉ s) :
    0 ∉ (cleanRun delim inside out endp s).1 := by
  have hsnoc : ∀ {out : Str} {x : UInt8}, 0 ∉ out → x ≠ 0 → 0 ∉ out ++ [x] := by
    intro out x hout hx hmem
    rcases List.mem_append.mp hmem with hmem | hmem
    · exact hout hmem
    · exact hx (List.mem_singleton.mp hmem).symm
  fun_induction cleanRun delim inside out endp s with
  | case1 => exact hout
  | case2 => exact hsnoc hout (by decide)
  | case3 inside out endp e s x he ih =>
    have hne : e ≠ 0 := fun hzero => hs (hzero ▸ List.mem_cons_of_mem _ List.mem_cons_self)
    exact ih (hsnoc hout (ne_zero_of_escaped hne he)) fun hmem =>
      hs (List.mem_cons_of_mem _ (List.mem_cons_of_mem _ hmem))
  | case4 inside out endp e s he ih =>
    exact ih (hsnoc hout (by decide)) fun hmem => hs (List.mem_cons_of_mem _ hmem)
  | case5 inside out endp c s hne hquote ih =>
    exact ih hout fun hmem => hs (List.mem_cons_of_mem _ hmem)
  | case6 inside out endp c s hne hquote ih =>
    exact ih (hsnoc hout fun hzero => hs (hzero ▸ List.mem_cons_self)) fun hmem =>
      hs (List.mem_cons_of_mem _ hmem)

/-- The mark is never behind what is kept. -/
theorem cleanRun_le (delim : UInt8) (inside : Bool) (out s : Str) (endp : Option Nat)
    (h : ∀ k ∈ endp, k ≤ out.length) :
    ∀ k ∈ (cleanRun delim inside out endp s).2, k ≤ (cleanRun delim inside out endp s).1.length := by
  have hmark : ∀ {out : Str} {x : UInt8}, ∀ k ∈ some (out.length + 1), k ≤ (out ++ [x]).length := by
    intro out x k hk
    obtain rfl := Option.some.inj hk
    simp
  fun_induction cleanRun delim inside out endp s with
  | case1 => exact h
  | case2 => exact hmark
  | case3 inside out endp e s x he ih => exact ih hmark
  | case4 inside out endp e s he ih => exact ih hmark
  | case5 inside out endp c s hne hquote ih =>
    refine ih fun k hk => ?_
    split at hk
    · exact h k hk
    · exact (Option.some.inj hk).symm.le
  | case6 inside out endp c s hne hquote ih =>
    refine ih fun k hk => ?_
    split at hk
    · exact hmark k hk
    · exact (h k hk).trans (by simp)

theorem cleanRun_isSome {inside : Bool} {out s : Str} {endp : Option Nat} (h : endp.isSome = true) :
    (cleanRun delim inside out endp s).2.isSome = true := by
  fun_induction cleanRun delim inside out endp s with
  | case1 => exact h
  | case2 => rfl
  | case3 inside out endp e s x he ih => exact ih rfl
  | case4 inside out endp e s he ih => exact ih rfl
  | case5 inside out endp c s hne hquote ih =>
    apply ih
    split
    · exact h
    · rfl
  | case6 inside out endp c s hne hquote ih =>
    apply ih
    split
    · rfl
    · exact h

/-- A text that does not begin with a space has a mark, unless it is empty. -/
theorem cleanRun_isSome_of_ne (delim : UInt8) {inside : Bool} (out : Str) (endp : Option Nat) {s : Str}
    (hinside : inside = false) (hs : s ≠ [])
    (hhead : s.head? ≠ some 32) : (cleanRun delim inside out endp s).2.isSome = true := by
  fun_cases cleanRun delim inside out endp s with
  | case1 => exact absurd rfl hs
  | case2 => rfl
  | case3 => exact cleanRun_isSome rfl
  | case4 => exact cleanRun_isSome rfl
  | case5 =>
    apply cleanRun_isSome
    rw [hinside]
    rfl
  | case6 c s hne hquote =>
    apply cleanRun_isSome
    rw [if_pos (Or.inl fun hc => hhead (congrArg some hc))]
    rfl

end Kept

/-! ## A piece -/

section Piece

variable {delim : UInt8}

theorem skipStep_of_read {mem : Str} {p : Nat} {c : UInt8} (h : read mem p = .ok c) :
    skipStep mem p = .ok (if c = 32 then .inl (p + 1) else .inr p) := by
  unfold skipStep
  rw [h]
  rfl

theorem skip_run (pre t post : Str) (hzero : 0 ∉ t) :
    Reaches (skipStep (pre ++ (t ++ 0 :: post))) pre.length (pre.length + (gap true t).length) ∧
      skipStep (pre ++ (t ++ 0 :: post)) (pre.length + (gap true t).length) =
        .ok (.inr (pre.length + (gap true t).length)) := by
  induction t generalizing pre with
  | nil => exact ⟨.refl, skipStep_of_read (read_append pre 0 post)⟩
  | cons c t ih =>
    have hstep := skipStep_of_read (read_append pre c (t ++ 0 :: post))
    by_cases hc : c = 32
    · subst hc
      obtain ⟨hreach, hlast⟩ := ih (pre ++ [32]) fun hmem => hzero (List.mem_cons_of_mem _ hmem)
      have hgap : (gap true (32 :: t)).length = 1 + (gap true t).length := Nat.add_comm _ 1
      rw [List.length_append, List.append_assoc, Nat.add_assoc] at hreach hlast
      rw [hgap]
      exact ⟨hreach.head hstep, hlast⟩
    · have hgap : gap true (c :: t) = [] := by
        show (c :: t).takeWhile (· == 32) = []
        rw [List.takeWhile_cons_of_neg (by simpa using hc)]
      rw [if_neg hc] at hstep
      rw [hgap]
      exact ⟨.refl, hstep⟩

theorem skip_isSome (mem : Str) (p : Nat) :
    (iterate (skipStep mem) (mem.length + 2) p).isSome = true := by
  refine iterate_isSome (I := fun _ => True) (μ := fun p => mem.length + 1 - p) (fun _ _ _ _ => trivial)
    (fun p p' _ hnext => ?_) _ p trivial (by omega)
  obtain ⟨c, hread, h⟩ := bind_eq_ok_iff.mp hnext
  have hlt := lt_of_read hread
  split at h
  · cases h
    omega
  · cases h

theorem cleanPlain_advances {s t : Clean} {c : UInt8} (h : cleanPlain s c = .ok t) :
    t.mem.length = s.mem.length ∧ s.ptr < t.ptr := by
  obtain ⟨quote, -, h⟩ := bind_eq_ok_iff.mp h
  split at h
  · cases h
    exact ⟨rfl, by simp⟩
  · obtain ⟨mem, hwrite, h⟩ := bind_eq_ok_iff.mp h
    cases h
    exact ⟨length_of_write hwrite, by simp⟩

theorem cleanStep_advances {s t : Clean} (h : Next (cleanStep delim) s t) :
    s.ptr < s.mem.length ∧ t.mem.length = s.mem.length ∧ s.ptr < t.ptr := by
  obtain ⟨c, hread, h⟩ := bind_eq_ok_iff.mp h
  refine ⟨lt_of_read hread, ?_⟩
  have hplain : ∀ {t}, (cleanPlain s c >>= fun t => pure (.inl t)) =
      Except.ok (Sum.inl t : Clean ⊕ Clean) →
      t.mem.length = s.mem.length ∧ s.ptr < t.ptr := by
    intro t ht
    obtain ⟨t', ht', heq⟩ := bind_eq_ok_iff.mp ht
    cases heq
    exact cleanPlain_advances ht'
  split at h
  · cases h
  · split at h
    · obtain ⟨e, -, h⟩ := bind_eq_ok_iff.mp h
      split at h
      · obtain ⟨mem, hwrite, h⟩ := bind_eq_ok_iff.mp h
        cases h
        exact ⟨length_of_write hwrite, by simp⟩
      · exact hplain h
    · exact hplain h

theorem clean_isSome (s : Clean) : (iterate (cleanStep delim) (s.mem.length + 2) s).isSome = true := by
  refine iterate_isSome (I := fun _ => True) (μ := fun s => s.mem.length + 1 - s.ptr)
    (fun _ _ _ _ => trivial)
    (fun s t _ hnext => ?_) _ s trivial (by omega)
  obtain ⟨hlt, hlen, hptr⟩ := cleanStep_advances hnext
  omega

/-- Behind the spaces there is no space. -/
theorem head?_behindGap (t : Str) : (behindGap true t).head? ≠ some 32 := by
  intro hhead
  have hnot := List.head?_dropWhile_not (· == (32 : UInt8)) t
  rw [show (t.dropWhile (· == 32)).head? = some 32 from hhead] at hnot
  simp at hnot

/-- Both loops, up to the last NUL. -/
theorem clean_loops (delim : UInt8) (pre t post : Str) (hzero : 0 ∉ t) :
    ∃ junk inside, loop (cleanStep delim) ((pre ++ (t ++ 0 :: post)).length + 2)
        ⟨pre ++ (t ++ 0 :: post), pre.length + (gap true t).length, pre.length + (gap true t).length,
          none, false⟩ =
          .of
            (.ok (cleanAt (pre ++ gap true t) (cleanRun delim false [] none (behindGap true t)).1 junk
              [] post inside
            (cleanRun delim false [] none (behindGap true t)).2)) ∧
      (cleanRun delim false [] none (behindGap true t)).1.length + junk.length =
        (behindGap true t).length := by
  have hsplit := gap_append true t
  have hbehind : 0 ∉ behindGap true t := fun hmem => hzero (hsplit ▸ List.mem_append_right _ hmem)
  obtain ⟨junk, inside, hreach⟩ :=
    clean_run delim (pre ++ gap true t) [] [] (behindGap true t) post false none hbehind
  -- no step changes the size of the memory
  have hsize := hreach.invariant
    (I := fun s => s.mem.length = (cleanAt (pre ++ gap true t) [] [] (behindGap true t) post false
    none).mem.length) (fun s t hs hnext => (cleanStep_advances hnext).2.1.trans hs) rfl
  simp only [cleanAt, List.length_append, List.length_cons, List.length_nil] at hsize
  have hstart : (⟨pre ++ (t ++ 0 :: post), pre.length + (gap true t).length,
      pre.length + (gap true t).length, none,
      false⟩ : Clean) = cleanAt (pre ++ gap true t) [] [] (behindGap true t) post false none := by
    simp only [cleanAt, List.nil_append, List.length_append, List.length_nil, Nat.add_zero,
      Option.map_none,
      List.append_assoc]
    rw [← List.append_assoc (gap true t), hsplit]
  rw [← hstart] at hreach
  exact ⟨junk, inside,
    loop_of_reaches (clean_isSome _) hreach (cleanStep_last (read_cleanAt _ _ junk post 0)),
    by omega⟩

/-- The text that is left of a piece stands in its place, and what is around the piece stays as it
is. -/
theorem cleanupSeparatedString_eq (delim : UInt8) (pre t post : Str) (hzero : 0 ∉ t) :
    ∃ m, cleanupSeparatedString (pre ++ (t ++ 0 :: post)) pre.length delim =
        .of (.ok (pre ++ (m ++ post), pre.length + (gap true t).length)) ∧
      m.length = t.length + 1 ∧ cleaned delim t ++ [0] <+: m.drop (gap true t).length ∧
      0 ∉ cleaned delim t := by
  have hsplit := gap_append true t
  have hbehind : 0 ∉ behindGap true t := fun hmem => hzero (hsplit ▸ List.mem_append_right _ hmem)
  have hlen := congrArg List.length hsplit
  rw [List.length_append] at hlen
  obtain ⟨hskip, hskipped⟩ := skip_run pre t post hzero
  obtain ⟨junk, inside, hloop, hkept⟩ := clean_loops delim pre t post hzero
  have hkeeps : 0 ∉ (cleanRun delim false [] none (behindGap true t)).1 :=
    zero_notMem_cleanRun List.not_mem_nil hbehind
  unfold cleanupSeparatedString
  rw [loop_of_reaches (skip_isSome _ _) hskip hskipped, Access.of_ok_bind, hloop, Access.of_ok_bind]
  unfold cleaned
  cases hend : (cleanRun delim false [] none (behindGap true t)).2 with
  | none =>
    -- nothing was read
    have hempty : behindGap true t = [] := by
      by_contra hne
      have hsome := cleanRun_isSome_of_ne delim [] none rfl hne (head?_behindGap t)
      rw [hend] at hsome
      cases hsome
    rw [hempty] at hkept hlen ⊢
    have hjunk : junk = [] := List.length_eq_zero_iff.mp (by rw [List.length_nil] at hkept; omega)
    refine ⟨gap true t ++ [0], ?_, ?_, ?_, List.not_mem_nil⟩
    · show (pure (pre ++ gap true t ++ ([] ++ (junk ++ ([] ++ 0 :: post))), _) : Access (Str × Nat)) = _
      rw [hjunk]
      simp
    · rw [List.length_append, List.length_singleton]
      rw [List.length_nil] at hlen
      omega
    · rw [List.drop_left]
      exact List.prefix_rfl
  | some k =>
    have hk := cleanRun_le delim false [] (behindGap true t) none (by simp) k hend
    generalize (cleanRun delim false [] none (behindGap true t)).1 = out at *
    -- the NUL behind the text falls on something that was read
    have hwrite := write_cleanAt (pre ++ gap true t) (out.take k) (out.drop k ++ junk) (x := [0])
      (by simp) post 0
    have hjunk := length_junk (out.drop k ++ junk) (x := [0]) (by simp)
    rw [List.length_take_of_le hk, List.append_assoc (out.drop k), ← List.append_assoc (out.take k),
      List.take_append_drop] at hwrite
    refine ⟨gap true t ++ (out.take k ++ 0 :: (out.drop k ++ junk ++ [0]).tail), ?_, ?_, ?_, ?_⟩
    · show (Access.of (write (pre ++ gap true t ++ (out ++ (junk ++ ([0] ++ post))))
        ((pre ++ gap true t).length + k) 0) >>= _)
        = _
      rw [hwrite, Access.of_ok_bind]
      simp
    · simp only [List.length_append, List.length_cons, List.length_nil, List.length_take,
        List.length_drop] at hjunk hkept ⊢
      omega
    · rw [List.drop_left]
      exact ⟨(out.drop k ++ junk ++ [0]).tail, by simp⟩
    · exact fun hmem => hkeeps (List.mem_of_mem_take hmem)

end Piece

/-- All pieces, one after the other: each text stands where its piece was. -/
theorem cleanAll_eq (delim : UInt8) :
    ∀ {mem : Str} {lo : Nat} {qs : List Nat} {ts : List Str}, qs.length = ts.length →
    Texts mem lo (qs.zip ts) → ∃ mem' starts, cleanAll delim mem qs = .of (.ok (mem', starts)) ∧
      starts.length = ts.length ∧
      (∀ q ∈ qs.head?, ∀ t ∈ ts.head?, starts.head? = some (q + (gap true t).length)) ∧
        mem'.take lo = mem.take lo ∧ mem'.length = mem.length ∧
        Texts mem' lo (starts.zip (ts.map (cleaned delim)))
  | mem, _, [], [], _, _ => ⟨mem, [], rfl, rfl, by simp, rfl, rfl, trivial⟩
  | mem, lo, q :: qs, t :: ts, hlen, h => by
    obtain ⟨hle, hzero, htext, hrest⟩ := h
    obtain ⟨a, b, rfl, rfl⟩ := exists_append_of_isPrefix htext
    obtain ⟨m, heq, hm, hclean, hkept⟩ := cleanupSeparatedString_eq delim a t b hzero
    have hbehind : ∀ x : Str, x.length = t.length + 1 →
        (a ++ (x ++ b)).drop (a.length + t.length + 1) = b := by
      intro x hx
      rw [Nat.add_assoc, ← hx, ← List.append_assoc, ← List.length_append, List.drop_left]
    have hframe : Texts (a ++ (m ++ b)) (a.length + t.length + 1) (qs.zip ts) := by
      refine hrest.frame ?_
      rw [hbehind m hm, show a ++ (t ++ 0 :: b) = a ++ ((t ++ [0]) ++ b) by simp,
        hbehind (t ++ [0]) (by simp)]
    obtain ⟨mem', starts, hall, hstarts, -, htake, hlength, htexts⟩ :=
      cleanAll_eq delim (Nat.succ.inj hlen) hframe
    -- the first text is before everything that changes afterwards
    have hfirst : cleaned delim t ++ [0] <+: (a ++ (m ++ b)).drop (a.length + (gap true t).length) := by
      rw [← List.drop_drop, List.drop_left, List.drop_append]
      exact hclean.trans (List.prefix_append _ _)
    have hfits : a.length + (gap true t).length + (cleaned delim t).length + 1 ≤ a.length +
        t.length + 1 := by
      have hle' := hclean.length_le
      have hgap := congrArg List.length (gap_append true t)
      simp only [List.length_append, List.length_cons, List.length_nil, List.length_drop] at hle' hgap
      omega
    refine ⟨mem', (a.length + (gap true t).length) :: starts, ?_, ?_, ?_, ?_, ?_, ?_, hkept, ?_, ?_⟩
    · show (cleanupSeparatedString (a ++ (t ++ 0 :: b)) a.length delim >>= _) = _
      rw [heq, Access.of_ok_bind]
      show (cleanAll delim (a ++ (m ++ b)) qs >>= _) = _
      rw [hall]
      rfl
    · rw [List.length_cons, hstarts, List.length_cons]
    · rintro q ⟨⟩ u ⟨⟩
      rfl
    · have hlo : lo ≤ a.length + t.length + 1 := hle.trans (by omega)
      have h := congrArg (List.take lo) htake
      rw [List.take_take, List.take_take, Nat.min_eq_left hlo, List.take_append_of_le_length hle] at h
      rw [h, List.take_append_of_le_length hle]
    · rw [hlength]
      simp only [List.length_append, List.length_cons, hm]
      omega
    · omega
    · exact isPrefix_drop_of_take hfirst hfits htake
    · exact htexts.mono hfits

end FreeSwitch.Separate
