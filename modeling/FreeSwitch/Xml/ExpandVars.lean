import FreeSwitch.Lib.CString

/-!
# `expand_vars` — `src/switch_xml.c`

A line of a configuration file is copied into a buffer of `elen` bytes, with the values of global
variables in place of `$${name}`. A character of the line is copied only if there is room for it and for
the NUL; a value is copied up to the last byte of the buffer. The test for a full buffer is an equality,
which a value can jump over.

The buffer is modelled by the bytes written so far, `elen` is `ep + 1`, and a write outside of it is an
error.

* **`expandLoop_eq`** — the loop goes through the characters and references of the line.
* **`run_cases`** — how it ends.
* **`expand_vars_iff`** — the lines for which all is well; **`expand_vars_overrun`** — one for which it
  is not.
-/

namespace FreeSwitch.Xml.ExpandVars

open CString

/-! ## The code -/

/-- The loop of `switch_find_end_paren`, for brackets that differ: how far the closing one is away. -/
def closing (openCh closeCh : UInt8) : Nat → Str → Option Nat
  | _, [] => none
  | depth, c :: s =>
    if c = openCh then (closing openCh closeCh (depth + 1) s).map (· + 1)
    else if c = closeCh then
      if depth = 1 then some 0 else (closing openCh closeCh (depth - 1) s).map (· + 1)
    else (closing openCh closeCh depth s).map (· + 1)

def switchFindEndParen (s : Str) (openCh closeCh : UInt8) : Option Nat :=
  let blanks := (s.takeWhile (· == 32)).length
  match s.drop blanks with
  | c :: rest => if c = openCh then (closing openCh closeCh 1 rest).map (blanks + 1 + ·) else none
  | [] => none

/-- `*wp++ = c`. -/
def put (ep : Nat) (out : Str) (c : UInt8) : Except Nat Str :=
  if out.length < ep + 1 then .ok (out ++ [c]) else .error out.length

/-- `for (p = val; p && *p && wp <= ep; p++)`. -/
def copyValue (ep : Nat) : Str → Str → Except Nat Str
  | [], out => .ok out
  | c :: val, out =>
    if out.length ≤ ep then do
      let out ← put ep out c
      copyValue ep val out
    else .ok out

/-- `switch_core_get_variable_dup`, and what is done with the value. -/
def writeVariable (vars : Str → Option Str) (ep : Nat) (name out : Str) : Except Nat Str :=
  match vars name with
  | some val => copyValue ep val out
  | none => .ok out

/-- `$${`. -/
def mark : Str := [36, 36, 123]

/-- The text written and whether `*err` is set. A round consumes a byte of the line at least, so that
its length is fuel enough. -/
def expandLoop (vars : Str → Option Str) (ep : Nat) : Nat → Str → Str → Bool → Except Nat (Str × Bool)
  | 0, _, out, err => .ok (out, err)
  | _ + 1, [], out, err => .ok (out, err)
  | fuel + 1, c :: rp, out, err =>
    if out.length < ep then
      if mark.isPrefixOf (c :: rp) then
        match switchFindEndParen ((c :: rp).drop 2) 123 125 with
        | some e => do
          let out ← writeVariable vars ep (((c :: rp).drop 3).take (e - 1)) out
          expandLoop vars ep fuel ((c :: rp).drop (e + 3)) out err
        | none => do
          let out ← put ep out c
          expandLoop vars ep fuel rp out true
      else do
        let out ← put ep out c
        expandLoop vars ep fuel rp out err
    else .ok (out, err)

/-- The text that is returned, or `none` for `NULL`, and whether `*err` is set. -/
def expandVars (vars : Str → Option Str) (buf : Str) (ep : Nat) : Except Nat (Option Str × Bool) :=
  if ¬mark <:+: buf then .ok (some buf, false)
  else do
    let (out, err) ← expandLoop vars ep buf.length buf [] false
    if out.length = ep then return (none, err)
    let _ ← put ep out 0
    return (some out, err)

/-! ## The line by its parts -/

inductive Piece where
  | char (c : UInt8)
  | var (name : Str)

/-- What a line consists of. A reference that does not end is a text. -/
def pieces : Str → List Piece
  | [] => []
  | c :: rp =>
    if mark.isPrefixOf (c :: rp) then
      match switchFindEndParen ((c :: rp).drop 2) 123 125 with
      | some e => .var (((c :: rp).drop 3).take (e - 1)) :: pieces ((c :: rp).drop (e + 3))
      | none => .char c :: pieces rp
    else .char c :: pieces rp
termination_by s => s.length
decreasing_by all_goals simp

def Piece.text (vars : Str → Option Str) : Piece → Str
  | char c => [c]
  | var name => (vars name).getD []

/-- The complete expansion. -/
def textOf (vars : Str → Option Str) (ps : List Piece) : Str := ps.flatMap (Piece.text vars)

/-- A part that begins before the last byte of the buffer does not end behind it. -/
def Fits (vars : Str → Option Str) (ep written : Nat) (ps : List Piece) : Prop :=
  ∀ done p rest, ps = done ++ p :: rest → written + (textOf vars done).length < ep →
    written + (textOf vars (done ++ [p])).length ≤ ep

def writePiece (vars : Str → Option Str) (ep : Nat) : Piece → Str → Except Nat Str
  | .char c, out => put ep out c
  | .var name, out => writeVariable vars ep name out

def run (vars : Str → Option Str) (ep : Nat) : List Piece → Str → Except Nat Str
  | [], out => .ok out
  | p :: ps, out => if out.length < ep then writePiece vars ep p out >>= run vars ep ps else .ok out

variable {vars : Str → Option Str} {ep : Nat}

theorem expandLoop_eq {fuel : Nat} {s : Str} (hlen : s.length ≤ fuel) (out : Str) (err : Bool) :
    (expandLoop vars ep fuel s out err).map Prod.fst = run vars ep (pieces s) out := by
  have hbind : ∀ {x : Except Nat Str} {f : Str → Except Nat (Str × Bool)} {g : Str → Except Nat Str},
      (∀ out, (f out).map Prod.fst = g out) → (x >>= f).map Prod.fst = x >>= g := by
    intro x f g h
    cases x with
    | error e => rfl
    | ok out => exact h out
  induction fuel generalizing s out err with
  | zero =>
    rw [List.eq_nil_of_length_eq_zero (Nat.le_zero.mp hlen), pieces]
    rfl
  | succ fuel ih =>
    cases s with
    | nil =>
      rw [pieces]
      rfl
    | cons c rp =>
      have hrp : rp.length ≤ fuel := Nat.le_of_succ_le_succ hlen
      rw [expandLoop, pieces]
      split
      · next hroom =>
        split
        · split
          · rw [run, if_pos hroom]
            exact hbind fun out => ih (by simp; omega) out err
          · rw [run, if_pos hroom]
            exact hbind fun out => ih hrp out true
        · rw [run, if_pos hroom]
          exact hbind fun out => ih hrp out err
      · next hfull =>
        split
        · split <;> rw [run, if_neg hfull] <;> rfl
        · rw [run, if_neg hfull]
          rfl

/-! ## How it ends -/

theorem put_of_lt {out : Str} (h : out.length < ep + 1) (c : UInt8) :
    put ep out c = .ok (out ++ [c]) := if_pos h

/-- A value is cut where the buffer ends. -/
theorem copyValue_eq (val out : Str) (h : out.length ≤ ep + 1) :
    copyValue ep val out = .ok (out ++ val.take (ep + 1 - out.length)) := by
  induction val generalizing out with
  | nil => rw [copyValue, List.take_nil, List.append_nil]
  | cons c val ih =>
    rw [copyValue]
    split
    · next hle =>
      rw [put_of_lt (by omega)]
      show copyValue ep val (out ++ [c]) = _
      rw [ih _ (by simp; omega), List.length_append, List.append_assoc,
        show ep + 1 - out.length = ep + 1 - (out.length + 1) + 1 by omega, List.take_succ_cons]
      rfl
    · rw [show ep + 1 - out.length = 0 by omega, List.take_zero, List.append_nil]

theorem writePiece_eq (p : Piece) {out : Str} (h : out.length < ep) :
    writePiece vars ep p out = .ok (out ++ (p.text vars).take (ep + 1 - out.length)) := by
  cases p with
  | char c =>
    rw [writePiece, put_of_lt (by omega), Piece.text, List.take_of_length_le (by simp; omega)]
  | var name =>
    rw [writePiece, writeVariable, Piece.text]
    cases vars name with
    | none => simp
    | some val => exact copyValue_eq val out (by omega)

theorem textOf_cons (p : Piece) (ps : List Piece) :
    textOf vars (p :: ps) = p.text vars ++ textOf vars ps :=
  List.flatMap_cons

theorem fits_cons {written : Nat} {p : Piece} {ps : List Piece} (hlt : written < ep) :
    Fits vars ep written (p :: ps) ↔
      written + (p.text vars).length ≤ ep ∧ Fits vars ep (written + (p.text vars).length) ps := by
  constructor
  · intro h
    refine ⟨?_, fun done q rest heq hbefore => ?_⟩
    · have hfirst := h [] p ps rfl (by simpa [textOf] using hlt)
      simpa [textOf] using hfirst
    · have hrest :=
        h (p :: done) q rest (by rw [heq]; rfl) (by rw [textOf_cons, List.length_append]; omega)
      rw [List.cons_append, textOf_cons, List.length_append] at hrest
      omega
  · rintro ⟨hfirst, hrest⟩ done q rest heq hbefore
    cases done with
    | nil =>
      obtain ⟨rfl, rfl⟩ := List.cons.inj heq
      simpa [textOf] using hfirst
    | cons p' done =>
      obtain ⟨rfl, htail⟩ := List.cons.inj heq
      rw [textOf_cons, List.length_append] at hbefore
      have hle := hrest done q rest htail (by omega)
      rw [List.cons_append, textOf_cons, List.length_append]
      omega

/-- Either the buffer gets full, or the whole line is written, or a value has gone up to the last
byte. -/
theorem run_cases (ps : List Piece) (out : Str) (h : out.length ≤ ep) :
    ∃ out', run vars ep ps out = .ok out' ∧
      ((Fits vars ep out.length ps ∧
        (out'.length = ep ∨ out'.length < ep ∧ out' = out ++ textOf vars ps))
        ∨ (¬Fits vars ep out.length ps ∧ out'.length = ep + 1)) := by
  induction ps generalizing out with
  | nil =>
    refine ⟨out, rfl, Or.inl ⟨?_, ?_⟩⟩
    · intro done p rest heq
      simp at heq
    · simp only [textOf, List.flatMap_nil, List.append_nil, and_true]
      omega
  | cons p ps ih =>
    rw [run]
    by_cases hlt : out.length < ep
    · rw [if_pos hlt, writePiece_eq p hlt, fits_cons hlt]
      show ∃ out', run vars ep ps _ = _ ∧ _
      by_cases hfits : out.length + (p.text vars).length ≤ ep
      · rw [List.take_of_length_le (by omega)]
        obtain ⟨out', hrun, hend⟩ := ih (out ++ p.text vars) (by rw [List.length_append]; exact hfits)
        refine ⟨out', hrun, ?_⟩
        rw [List.length_append, List.append_assoc, ← textOf_cons] at hend
        simpa only [hfits, true_and] using hend
      · -- nothing is written behind the value
        have hlen : (out ++ (p.text vars).take (ep + 1 - out.length)).length = ep + 1 := by
          rw [List.length_append, List.length_take]
          omega
        refine ⟨_, ?_, Or.inr ⟨fun h => hfits h.1, hlen⟩⟩
        cases ps with
        | nil => rfl
        | cons q ps => rw [run, if_neg (by omega)]
    · rw [if_neg hlt]
      refine ⟨out, rfl, Or.inl ⟨?_, Or.inl (by omega)⟩⟩
      intro done q rest heq hbefore
      omega

/-- Without the mark there are characters only. -/
theorem textOf_of_no_mark {s : Str} (hmark : ¬mark <:+: s) :
    textOf vars (pieces s) = s ∧ ∀ name, .var name ∉ pieces s := by
  induction s with
  | nil =>
    rw [pieces]
    exact ⟨rfl, fun name => List.not_mem_nil⟩
  | cons c rp ih =>
    have hbegins : ¬mark.isPrefixOf (c :: rp) = true :=
      fun h => hmark (List.isPrefixOf_iff_prefix.mp h).isInfix
    obtain ⟨htext, hvars⟩ := ih fun h => hmark (h.trans (List.suffix_cons c rp).isInfix)
    rw [pieces, if_neg hbegins]
    refine ⟨congrArg (c :: ·) htext, fun name hmem => ?_⟩
    rcases List.mem_cons.mp hmem with heq | hmem
    · cases heq
    · exact hvars name hmem

/-- A character always fits. -/
theorem fits_iff {ps : List Piece} :
    Fits vars ep 0 ps ↔ ∀ done name rest, ps = done ++ .var name :: rest →
    (textOf vars done).length < ep →
      (textOf vars done).length + ((vars name).getD []).length ≤ ep := by
  have hsnoc : ∀ done p, (textOf vars (done ++ [p])).length = (textOf vars done).length +
      (p.text vars).length := by
    intro done p
    simp [textOf]
  constructor
  · intro h done name rest heq hbefore
    have hle := h done (.var name) rest heq (by omega)
    rw [hsnoc] at hle
    simpa [Piece.text] using hle
  · intro h done p rest heq hbefore
    rw [hsnoc]
    cases p with
    | char c =>
      rw [Piece.text, List.length_singleton]
      omega
    | var name =>
      rw [Nat.zero_add]
      exact h done name rest heq (by omega)

theorem expandVars_of_mark {buf : Str} (hmark : mark <:+: buf) :
    ∃ out err, run vars ep (pieces buf) [] = .ok out ∧ expandVars vars buf ep =
      if out.length = ep then .ok (none, err) else put ep out 0 >>= fun _ => .ok (some out, err) := by
  obtain ⟨out, hrun, -⟩ := @run_cases vars ep (pieces buf) [] (Nat.zero_le ep)
  have hloop := @expandLoop_eq vars ep _ buf (Nat.le_refl _) [] false
  rw [hrun] at hloop
  cases hcase : expandLoop vars ep buf.length buf [] false with
  | error e =>
    rw [hcase] at hloop
    cases hloop
  | ok r =>
    rw [hcase] at hloop
    obtain rfl := Except.ok.inj hloop
    refine ⟨r.1, r.2, hrun, ?_⟩
    rw [expandVars, if_neg (not_not_intro hmark), hcase]
    rfl

/-- No write is outside of the buffer, and what is returned is the complete expansion, exactly if no
value begins before the last byte of the buffer and ends behind it. -/
theorem expand_vars_iff (vars : Str → Option Str) (buf : Str) (ep : Nat) :
    (∃ text err, expandVars vars buf ep = .ok (text, err) ∧ ∀ t,
      text = some t → t = textOf vars (pieces buf))
      ↔ ∀ done name rest, pieces buf = done ++ .var name :: rest → (textOf vars done).length < ep →
          (textOf vars done).length + ((vars name).getD []).length ≤ ep := by
  by_cases hmark : mark <:+: buf
  · rw [← fits_iff]
    obtain ⟨out, err, hrun, heq⟩ := @expandVars_of_mark vars ep buf hmark
    obtain ⟨out', hrun', hend⟩ := @run_cases vars ep (pieces buf) [] (Nat.zero_le ep)
    obtain rfl : out = out' := Except.ok.inj (hrun.symm.trans hrun')
    rw [heq]
    rcases hend with ⟨hfits, hfull | ⟨hlt, htext⟩⟩ | ⟨hfits, hpast⟩
    · rw [if_pos hfull]
      exact iff_of_true ⟨none, err, rfl, fun t ht => nomatch ht⟩ hfits
    · rw [if_neg (by omega), put_of_lt (by omega)]
      exact iff_of_true ⟨some out, err, rfl, fun t ht => (Option.some.inj ht).symm.trans htext⟩ hfits
    · -- the NUL is written behind the buffer
      rw [if_neg (by omega), put, if_neg (by omega)]
      refine iff_of_false ?_ hfits
      rintro ⟨text, err', hok, -⟩
      cases hok
  · obtain ⟨htext, hvars⟩ := @textOf_of_no_mark vars buf hmark
    rw [expandVars, if_pos hmark]
    refine iff_of_true ⟨some buf, false, rfl, fun t ht => (Option.some.inj ht).symm.trans htext.symm⟩ ?_
    intro done name rest heq
    have hmem : Piece.var name ∈ pieces buf := by
      rw [heq]
      exact List.mem_append_right done List.mem_cons_self
    exact absurd hmem (hvars name)

/-- `$${a}` with the value `bcd` in a buffer of two bytes: the NUL is the third. -/
theorem expand_vars_overrun :
    expandVars (fun name => if name = [97] then some [98, 99, 100] else none) [36, 36, 123, 97, 125] 1 =
      .error 2 := by
  decide

end FreeSwitch.Xml.ExpandVars
