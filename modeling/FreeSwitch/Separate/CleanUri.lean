import FreeSwitch.Separate.InBounds

/-!
# Cleaning a request URI — `clean_uri` in `src/switch_utils.c`

The path is separated at `/` with the general tokenizer, into at most 64 pieces; empty pieces and `.`
are dropped, `..` takes back the piece before it, and the rest is written over the path. The tokenizer
honours quotes and backslashes, and the last place of the array takes all the rest, so a piece may still
have slashes in it.

* **`keepSegments_eq`** — which pieces stay, read from the end.
* **`rewriteUri_eq`** — they are written one behind the other, each before the place it is read from.
* **`cleanUri_iff`** — the result has no `..`, `.` or empty segment exactly if no piece that stays hides
  one.
-/

namespace FreeSwitch.Separate

open CString TextMemory

/-! ## The code -/

/-- `strcmp` with what is to be left out. -/
def isIgnored (t : Str) : Prop := t = [] ∨ t = bytes "."

instance (t : Str) : Decidable (isIgnored t) := inferInstanceAs (Decidable (_ ∨ _))

/-- The first loop: `kept` is `argv` from 1 up to `last`. -/
def keepSegments (mem : Str) : List Nat → List Nat → List Nat
  | kept, [] => kept
  | kept, p :: argv =>
    if isIgnored (text mem p) then keepSegments mem kept argv
    else if text mem p = bytes ".." then keepSegments mem kept.dropLast argv
    else keepSegments mem (kept ++ [p]) argv

/-- Bytes are written one behind the other. -/
def writes (mem : Str) (p : Nat) (s : Str) : Except Nat Str :=
  if p + s.length ≤ mem.length then
    .ok (mem.take p ++ (s ++ mem.drop (p + s.length))) else .error (p + s.length - 1)

/-- The second loop: `sprintf(uri + uri_len, "/%s", argv[i])`. -/
def rewriteUri : Str → Nat → List Nat → Except Nat Str
  | mem, _, [] => .ok mem
  | mem, uriLen, p :: argv => do
    let mem' ← writes mem uriLen (47 :: text mem p ++ [0])
    rewriteUri mem' (uriLen + ((text mem p).length + 1)) argv

/-- Whether `SWITCH_STATUS_SUCCESS` is returned, and the memory then. The path is at its beginning. The
number of pieces is compared with the size of the array in bytes. -/
def cleanUri (mem : Str) : Access (Bool × Str) := do
  let (mem, argv) ← switchSeparateString mem 0 47 64
  if argv.length = 64 * 8 then return (false, mem)
  else return (true, ← Access.of (rewriteUri mem 0 (keepSegments mem [] argv.tail)))

/-! ## Which segments stay -/

/-- How many segments before these ones are taken back. -/
def pending : List Str → Nat
  | [] => 0
  | t :: ts => if isIgnored t then pending ts else if t = bytes ".." then pending ts + 1
    else pending ts - 1

/-- The places of the segments that stay. -/
def staying (mem : Str) : List Nat → List Nat
  | [] => []
  | p :: ps =>
    if isIgnored (text mem p) ∨ text mem p = bytes ".." ∨ 0 < pending (ps.map (text mem)) then
      staying mem ps
    else p :: staying mem ps

theorem keepSegments_eq (mem : Str) (ps kept : List Nat) :
    keepSegments mem kept ps = kept.take (kept.length - pending (ps.map (text mem))) ++
      staying mem ps := by
  induction ps generalizing kept with
  | nil => simp [keepSegments, pending, staying]
  | cons p ps ih =>
    rw [keepSegments, staying, List.map_cons, pending]
    by_cases hign : isIgnored (text mem p)
    · rw [if_pos hign, if_pos hign, if_pos (.inl hign), ih]
    · rw [if_neg hign, if_neg hign]
      by_cases hup : text mem p = bytes ".."
      · rw [if_pos hup, if_pos hup, if_pos (.inr (.inl hup)), ih, List.length_dropLast,
          List.dropLast_eq_take, List.take_take]
        congr 2
        omega
      · rw [if_neg hup, if_neg hup, ih, List.length_append, List.length_singleton]
        by_cases hback : pending (ps.map (text mem)) = 0
        · rw [if_neg (by simp [hign, hup, hback]), hback, List.take_of_length_le (by simp)]
          simp
        · rw [if_pos (.inr (.inr (Nat.pos_of_ne_zero hback))), List.take_append_of_le_length (by omega)]
          congr 2
          omega

theorem staying_sublist (mem : Str) (ps : List Nat) : (staying mem ps).Sublist ps := by
  induction ps with
  | nil => exact .slnil
  | cons p ps ih =>
    rw [staying]
    split
    · exact ih.cons p
    · exact ih.cons_cons p

/-- A segment stays if it is neither left out nor `..`, and what comes behind it does not take it
back. -/
theorem mem_staying_iff {mem : Str} {ps : List Nat} {t : Str} : t ∈ (staying mem ps).map (text mem) ↔
    ∃ front back, ps.map (text mem) = front ++ t :: back ∧ ¬isIgnored t ∧ t ≠ bytes ".." ∧
      pending back = 0 := by
  induction ps with
  | nil =>
    refine iff_of_false (by simp [staying]) ?_
    rintro ⟨front, back, heq, -⟩
    exact List.append_ne_nil_of_right_ne_nil front (List.cons_ne_nil t back) heq.symm
  | cons p ps ih =>
    have hbehind : (∃ front back, ps.map (text mem) = front ++ t :: back ∧ ¬isIgnored t ∧
        t ≠ bytes ".." ∧ pending back = 0) →
        ∃ front back, (p :: ps).map (text mem) = front ++ t :: back ∧ ¬isIgnored t ∧ t ≠ bytes ".." ∧
          pending back = 0 := by
      rintro ⟨front, back, heq, hstays⟩
      exact ⟨text mem p :: front, back, by rw [List.map_cons, heq, List.cons_append], hstays⟩
    rw [staying]
    split
    · next hgone =>
      rw [ih]
      refine ⟨hbehind, ?_⟩
      rintro ⟨front, back, heq, hign, hup, hback⟩
      rw [List.map_cons] at heq
      cases front with
      | nil =>
        obtain ⟨rfl, rfl⟩ := List.cons.inj heq
        rcases hgone with hgone | hgone | hgone
        · exact absurd hgone hign
        · exact absurd hgone hup
        · omega
      | cons u front => exact ⟨front, back, (List.cons.inj heq).2, hign, hup, hback⟩
    · next hstays =>
      rw [List.map_cons, List.mem_cons, ih]
      constructor
      · rintro (rfl | h)
        · refine ⟨[], ps.map (text mem), rfl, fun h => hstays (.inl h),
            fun h => hstays (.inr (.inl h)), ?_⟩
          exact Nat.eq_zero_of_not_pos fun h => hstays (.inr (.inr h))
        · exact hbehind h
      · rintro ⟨front, back, heq, hrest⟩
        rw [List.map_cons] at heq
        cases front with
        | nil => exact .inl (List.cons.inj heq).1.symm
        | cons u front => exact .inr ⟨front, back, (List.cons.inj heq).2, hrest⟩

/-! ## Writing them -/

/-- The segments are written one behind the other, each of them before its own place. -/
theorem rewriteUri_eq : ∀ {ps : List Nat} {ts : List Str} {mem : Str} {n : Nat}, ps.length = ts.length →
    Texts mem (n + 1) (ps.zip ts) → [0] <+: mem.drop n → ∃ mem', rewriteUri mem n ps = .ok mem' ∧
    mem'.take n = mem.take n ∧
      ts.flatMap (47 :: ·) ++ [0] <+: mem'.drop n
  | [], [], mem, n, _, _, hnul => ⟨mem, rfl, rfl, hnul⟩
  | p :: ps, t :: ts, mem, n, hlen, ⟨hp, hzero, htext, hrest⟩, _ => by
    have hread : text mem p = t := text_of_isPrefix hzero htext
    have hfits : p + t.length + 1 ≤ mem.length := by
      have hle := htext.length_le
      simp only [List.length_append, List.length_cons, List.length_nil, List.length_drop] at hle
      omega
    have htake : (mem.take n).length = n := List.length_take_of_le (by omega)
    have hwrites : writes mem n (47 :: t ++ [0]) =
        .ok (mem.take n ++ ((47 :: t ++ [0]) ++ mem.drop (n + (t.length + 2)))) := by
      refine (if_pos ?_).trans (by simp)
      simp only [List.length_append, List.length_cons, List.length_nil]
      omega
    obtain ⟨mem₁, hmem₁⟩ : ∃ mem₁,
      mem₁ = mem.take n ++ ((47 :: t ++ [0]) ++ mem.drop (n + (t.length + 2))) := ⟨_, rfl⟩
    have hnul₁ : mem₁.drop (n + (t.length + 1)) = 0 :: mem.drop (n + (t.length + 2)) := by
      rw [hmem₁, ← List.drop_drop, List.drop_left' htake, List.append_assoc]
      exact List.drop_left' rfl
    have hsame : mem₁.drop (p + t.length + 1) = mem.drop (p + t.length + 1) := by
      obtain ⟨k, rfl⟩ := Nat.exists_eq_add_of_le hp
      rw [show n + 1 + k + t.length + 1 = n + (t.length + 1) + (k + 1) by omega, ← List.drop_drop,
        hnul₁, List.drop_succ_cons,
        List.drop_drop]
      congr 1
      omega
    have hrest₁ : Texts mem₁ (n + (t.length + 1) + 1) (ps.zip ts) := (hrest.frame hsame).mono (by omega)
    obtain ⟨mem', hmem', htake', hout⟩ := rewriteUri_eq (Nat.succ.inj hlen) hrest₁ (hnul₁ ▸ ⟨_, rfl⟩)
    refine ⟨mem', ?_, ?_, ?_⟩
    · rw [rewriteUri, hread, hwrites, ← hmem₁]
      exact hmem'
    · have hcut := congrArg (List.take n) htake'
      rwa [List.take_take, List.take_take, Nat.min_eq_left (by omega), hmem₁,
        List.take_left' htake] at hcut
    · have hcut : mem'.take (n + (t.length + 1)) = mem.take n ++ 47 :: t := by
        rw [htake', hmem₁, List.take_add, List.take_left' htake, List.drop_left' htake,
          List.append_assoc]
        exact congrArg _ (List.take_left' rfl)
      rw [← List.take_append_drop (n + (t.length + 1)) mem', hcut, List.append_assoc,
        List.drop_left' htake,
        List.flatMap_cons, List.append_assoc]
      exact (List.prefix_append_right_inj _).mpr hout

/-! ## The whole -/

/-- The segments of a path as the tokenizer reads them: those behind the first slash. -/
def segments (uri : Str) : List Str := (separated uri 47 64).tail

/-- A segment that is not to be left out, but has a slash with such a part before or behind it. -/
def Hides (seg : Str) : Prop :=
  ¬isIgnored seg ∧ seg ≠ bytes ".." ∧ ∃ part ∈ seg.splitOn 47, isIgnored part ∨ part = bytes ".."

/-- No segment but the one before the first slash is empty, and none is `.` or `..`. -/
def Proper (uri : Str) : Prop := ∀ part ∈ (uri.splitOn 47).tail, ¬isIgnored part ∧ part ≠ bytes ".."

instance (uri : Str) : Decidable (Proper uri) := inferInstanceAs (Decidable (∀ part ∈ _, _))

theorem splitOn_segments (s : Str) (ts : List Str) :
    (s ++ ts.flatMap (47 :: ·)).splitOn 47 = s.splitOn 47 ++ ts.flatMap (List.splitOn 47) := by
  induction ts generalizing s with
  | nil => simp
  | cons t ts ih =>
    rw [List.flatMap_cons, List.cons_append, List.splitOn_append_cons_self, ih, List.flatMap_cons]

/-- Nothing improper is in what is written, unless a segment hides it. -/
theorem proper_iff {ts : List Str} (hts : ∀ t ∈ ts, ¬isIgnored t ∧ t ≠ bytes "..") :
    Proper (ts.flatMap (47 :: ·)) ↔ ∀ t ∈ ts, ¬Hides t := by
  have hsplit := splitOn_segments [] ts
  rw [List.nil_append, List.splitOn_nil] at hsplit
  unfold Proper
  rw [hsplit]
  show (∀ part ∈ ts.flatMap (List.splitOn 47), _) ↔ _
  constructor
  · rintro hproper t ht ⟨-, -, part, hpart, hbad⟩
    obtain ⟨hign, hup⟩ := hproper part (List.mem_flatMap.mpr ⟨t, ht, hpart⟩)
    exact hbad.elim hign hup
  · intro hhides part hpart
    obtain ⟨t, ht, hpart⟩ := List.mem_flatMap.mp hpart
    refine ⟨fun hign => ?_, fun hup => ?_⟩
    · exact hhides t ht ⟨(hts t ht).1, (hts t ht).2, part, hpart, .inl hign⟩
    · exact hhides t ht ⟨(hts t ht).1, (hts t ht).2, part, hpart, .inr hup⟩

theorem zip_map_self (f : Nat → Str) (ps : List Nat) :
    ps.zip (ps.map f) = ps.map fun p => (p, f p) := by
  simpa using List.zip_map' (f := id) (g := f) (l := ps)

theorem pieces_slash (rest : Str) :
    pieces false 47 64 (47 :: rest) = [] :: pieces false 47 63 rest := by
  have hcut : cutPiece false 47 false (47 :: rest) = ([], some rest) := by
    rw [cutPiece_cons (by decide), if_neg fun h => absurd h.1 (by decide), if_pos ⟨rfl, rfl⟩]
  exact pieces_cut false 47 62 (List.cons_ne_nil _ _) hcut

theorem ownText_slash (rest : Str) (delim : UInt8) :
    ownText (47 :: rest) delim = (47 :: rest, delim) := by
  unfold ownText
  split
  · next heq =>
    obtain ⟨rfl, -⟩ := List.cons.inj heq
    exact if_neg fun h => absurd h.1 (by decide)
  · rfl

theorem separated_slash (rest : Str) : separated (47 :: rest) 47 64 = [] :: segments (47 :: rest) := by
  unfold segments separated
  rw [ownText_slash]
  show (pieces false 47 64 (47 :: rest)).map (cleaned 47) =
    [] :: ((pieces false 47 64 (47 :: rest)).map (cleaned 47)).tail
  rw [pieces_slash]
  rfl

/-- What `clean_uri` leaves of a path, with anything behind it. -/
theorem cleanUri_eq {rest : Str} (hzero : 0 ∉ (47 : UInt8) :: rest) (post : Str)
    (hok : ¬Overruns (47 :: rest) 47 64) :
    ∃ (mem : Str) (kept : List Str), cleanUri (47 :: rest ++ 0 :: post) = .of (.ok (true, mem)) ∧
      text mem 0 = kept.flatMap (47 :: ·) ∧
      ∀ t, t ∈ kept ↔ ∃ front back, segments (47 :: rest) = front ++ t :: back ∧ ¬isIgnored t ∧
        t ≠ bytes ".." ∧
        pending back = 0 := by
  obtain ⟨mem, starts, heq, hlen, hhead, hlength, htexts⟩ := switchSeparateString_eq hzero post hok
  rw [ownText_slash] at hhead
  have hfirst := hhead [] (by rw [show decide ((47 : UInt8) = 32) = false from rfl, pieces_slash]; rfl)
  rw [separated_slash] at hlen htexts
  obtain ⟨ps, rfl⟩ : ∃ ps, starts = 0 :: ps := by
    cases starts with
    | nil => cases hlen
    | cons p ps => exact ⟨ps, by rw [Option.some.inj hfirst]; simp [gap]⟩
  obtain ⟨hnul, hrest⟩ : [0] <+: mem.drop 0 ∧ Texts mem 1 (ps.zip (segments (47 :: rest))) :=
    ⟨htexts.2.2.1, htexts.2.2.2⟩
  have hlen' : ps.length = (segments (47 :: rest)).length := Nat.succ.inj hlen
  have hmap : ps.map (text mem) = segments (47 :: rest) := hrest.map_text hlen'
  -- the segments that stay are still in the order of the memory, so they can be moved to the front
  have hstaying : Texts mem 1 ((staying mem ps).zip ((staying mem ps).map (text mem))) := by
    rw [← hmap, zip_map_self] at hrest
    rw [zip_map_self]
    exact hrest.sublist ((staying_sublist mem ps).map _)
  obtain ⟨mem', hmem', -, hout⟩ := rewriteUri_eq (List.length_map _).symm hstaying hnul
  have hshort : (0 :: ps).length ≠ 64 * 8 := by
    have hle : ([] :: segments (47 :: rest)).length ≤ 64 := by
      rw [← separated_slash, separated, List.length_map]
      exact length_pieces_le _ _ _ _
    omega
  refine ⟨mem', (staying mem ps).map (text mem), ?_, text_of_isPrefix ?_ hout, fun t => ?_⟩
  · unfold cleanUri
    rw [heq, Access.of_ok_bind]
    show (if (0 :: ps).length = 64 * 8 then _ else _) = _
    rw [if_neg hshort, show keepSegments mem [] (0 :: ps).tail =
      staying mem ps by rw [keepSegments_eq]; simp, hmem']
    rfl
  · intro hmem
    obtain ⟨t, ht, hzero'⟩ := List.mem_flatMap.mp hmem
    obtain ⟨p, -, rfl⟩ := List.mem_map.mp ht
    rcases List.mem_cons.mp hzero' with h | h
    · cases h
    · exact zero_notMem_text mem p h
  · rw [mem_staying_iff, hmap]

/-- The path is proper afterwards exactly if it was not left, and what a segment hides is taken back. -/
theorem cleanUri_iff (rest : Str) (hzero : 0 ∉ (47 : UInt8) :: rest) :
    (∃ mem, cleanUri (47 :: rest ++ [0]) = .of (.ok (true, mem)) ∧ Proper (text mem 0)) ↔
      ¬Overruns (47 :: rest) 47 64 ∧
        ∀ front seg back, segments (47 :: rest) = front ++ seg :: back → Hides seg →
          0 < pending back := by
  constructor
  · rintro ⟨mem, hmem, hproper⟩
    have hok : ¬Overruns (47 :: rest) 47 64 := by
      intro hover
      obtain ⟨e, he⟩ := switchSeparateString_error hzero hover
      unfold cleanUri at hmem
      rw [he] at hmem
      cases hmem
    obtain ⟨mem', kept, heq, htext, hkept⟩ := cleanUri_eq hzero [] hok
    cases heq.symm.trans hmem
    rw [htext, proper_iff fun t ht => ?_] at hproper
    · refine ⟨hok, fun front seg back hsplit hhides => Nat.pos_of_ne_zero fun hback => ?_⟩
      exact hproper seg ((hkept seg).mpr ⟨front, back, hsplit, hhides.1, hhides.2.1, hback⟩) hhides
    · obtain ⟨-, -, -, hign, hup, -⟩ := (hkept t).mp ht
      exact ⟨hign, hup⟩
  · rintro ⟨hok, hhides⟩
    obtain ⟨mem, kept, heq, htext, hkept⟩ := cleanUri_eq hzero [] hok
    refine ⟨mem, heq, ?_⟩
    rw [htext, proper_iff fun t ht => ?_]
    · intro t ht hhide
      obtain ⟨front, back, hsplit, -, -, hback⟩ := (hkept t).mp ht
      have hpos := hhides front t back hsplit hhide
      omega
    · obtain ⟨-, -, -, hign, hup, -⟩ := (hkept t).mp ht
      exact ⟨hign, hup⟩

/-- No segment has a slash in it, so none hides anything. -/
theorem cleanUri_iff_up : 0 ∉ (47 : UInt8) :: bytes "a/./b/../c" ∧
    ∃ mem, cleanUri (47 :: bytes "a/./b/../c" ++ [0]) = .of (.ok (true, mem)) ∧
      Proper (text mem 0) := by
  refine ⟨by decide, (cleanUri_iff (bytes "a/./b/../c") (by decide)).mpr
    ⟨by decide +kernel, fun front seg back hsplit hhides => ?_⟩⟩
  have hsegments : (segments (47 :: bytes "a/./b/../c")).all
      (fun seg => decide (seg.splitOn 47 = [seg])) = true := by
    decide +kernel
  have hseg := List.all_eq_true.mp hsegments seg (hsplit ▸ List.mem_append_right _ List.mem_cons_self)
  obtain ⟨hign, hup, part, hpart, hbad⟩ := hhides
  rw [of_decide_eq_true hseg, List.mem_singleton] at hpart
  subst hpart
  rcases hbad with hbad | hbad
  · exact absurd hbad hign
  · exact absurd hbad hup

/-- Of `/'a/../b'`, `/a/../b` is left. -/
theorem cleanUri_hidden :
    ∃ mem, cleanUri (bytes "/'a/../b'" ++ [0]) = .of (.ok (true, mem)) ∧ ¬Proper (text mem 0) :=
  ⟨[47, 97, 47, 46, 46, 47, 98, 0, 39, 0], rfl, by decide⟩

end FreeSwitch.Separate
