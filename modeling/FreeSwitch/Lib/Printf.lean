import FreeSwitch.Lib.CString

/-!
# `printf` with strings for arguments

A format is read byte by byte. A directive is a percent sign, flags, a width, a precision and `s`;
or two percent signs. Everything else that C leaves undefined for string arguments, a directive
without an argument included, is `none`.

* **`onlyPlain_of_printf_eq_self`** — the formats that come out as they are, whatever the
  directives in them. Padding is spaces, so what counts are the other bytes: a directive has at
  least two of them, and a short argument no more.
-/

namespace CString

/-- A directive that is being read. -/
structure Directive where
  left : Bool
  width : Option Nat
  precision : Option Nat
  deriving DecidableEq

namespace Directive

/-- Just behind the percent sign. -/
def fresh : Directive := ⟨false, none, none⟩

/-- One more byte of it. Of the flags, a space and `+` are about numbers, and `0`, which stands in
front of a width, is not for strings. -/
def next (d : Directive) (c : UInt8) : Option Directive :=
  if c = 45 ∧ d.width = none ∧ d.precision = none then some { d with left := true }
  else if (c = 32 ∨ c = 43) ∧ d.width = none ∧ d.precision = none then some d
  else if c = 46 ∧ d.precision = none then some { d with precision := some 0 }
  else if isDigit c then
    match d.precision, d.width with
    | some p, _ => some { d with precision := some (p * 10 + (c.toNat - 48)) }
    | none, some w => some { d with width := some (w * 10 + (c.toNat - 48)) }
    | none, none => if c = 48 then none else some { d with width := some (c.toNat - 48) }
  else none

/-- The argument, cut off at the precision and padded to the width. -/
def print (d : Directive) (arg : Str) : Str :=
  let shown := match d.precision with
    | some p => arg.take p
    | none => arg
  let padding := List.replicate (d.width.getD 0 - shown.length) 32
  if d.left then shown ++ padding else padding ++ shown

end Directive

/-- `d` is the directive that is being read, if any. -/
def printfFrom : Option Directive → Str → List Str → Option Str
  | none, [], _ => some []
  | some _, [], _ => none
  | none, c :: fmt, args =>
    if c = 37 then printfFrom (some .fresh) fmt args
    else (printfFrom none fmt args).map (c :: ·)
  | some d, c :: fmt, args =>
    if c = 37 then
      if d = .fresh then (printfFrom none fmt args).map (37 :: ·) else none
    else if c = 115 then
      match args with
      | [] => none
      | arg :: args => (printfFrom none fmt args).map (d.print arg ++ ·)
    else
      match d.next c with
      | some d => printfFrom (some d) fmt args
      | none => none

theorem printfFrom_some (d : Directive) (c : UInt8) (fmt : Str) (args : List Str) :
    printfFrom (some d) (c :: fmt) args =
      if c = 37 then
        if d = .fresh then (printfFrom none fmt args).map (37 :: ·) else none
      else if c = 115 then
        match args with
        | [] => none
        | arg :: args => (printfFrom none fmt args).map (d.print arg ++ ·)
      else
        match d.next c with
        | some d => printfFrom (some d) fmt args
        | none => none := by
  cases args <;> rfl

def printf (fmt : Str) (args : List Str) : Option Str := printfFrom none fmt args

/-! ## Formats without percent signs -/

theorem printf_append {pre : Str} (h : 37 ∉ pre) (fmt : Str) (args : List Str) :
    printf (pre ++ fmt) args = (printf fmt args).map (pre ++ ·) := by
  induction pre with
  | nil => simp
  | cons c pre ih =>
    have hc : c ≠ 37 := fun heq => h (heq ▸ List.mem_cons_self)
    have hpre : 37 ∉ pre := fun hmem => h (List.mem_cons_of_mem _ hmem)
    rw [List.cons_append, printf, printfFrom, if_neg hc]
    show Option.map _ (printf (pre ++ fmt) args) = _
    rw [ih hpre, Option.map_map]
    rfl

variable {fmt : Str}

theorem printf_text (h : 37 ∉ fmt) (args : List Str) : printf fmt args = some fmt := by
  have happend := printf_append h [] args
  rw [List.append_nil] at happend
  rw [happend]
  simp [printf, printfFrom]

/-- Without arguments, percent signs only make a text shorter. -/
theorem length_printf_nil : ∀ {out : Str}, printf fmt [] = some out →
    out.length ≤ fmt.length ∧ (37 ∈ fmt → out.length < fmt.length) := by
  have hboth : ∀ (fmt : Str) {d : Option Directive} {out : Str}, printfFrom d fmt [] = some out →
      out.length ≤ fmt.length ∧ (d = none → 37 ∈ fmt → out.length < fmt.length) := by
    intro fmt
    induction fmt with
    | nil =>
      intro d out h
      cases d with
      | none => exact Option.some.inj h ▸ ⟨le_rfl, fun _ hmem => absurd hmem List.not_mem_nil⟩
      | some d => exact absurd h nofun
    | cons c fmt ih =>
      intro d out h
      cases d with
      | none =>
        rw [printfFrom] at h
        split at h
        · have := (ih h).1
          exact ⟨by simp only [List.length_cons]; omega,
            fun _ _ => by simp only [List.length_cons]; omega⟩
        · next hc =>
          obtain ⟨rest, hrest, rfl⟩ := Option.map_eq_some_iff.mp h
          obtain ⟨hle, hlt⟩ := ih hrest
          refine ⟨by simp only [List.length_cons]; omega, fun _ hmem => ?_⟩
          have := hlt rfl ((List.mem_cons.mp hmem).resolve_left (Ne.symm hc))
          simp only [List.length_cons]
          omega
      | some d =>
        refine ⟨?_, nofun⟩
        rw [printfFrom_some] at h
        simp only [List.length_cons]
        split at h
        · split at h
          · obtain ⟨rest, hrest, rfl⟩ := Option.map_eq_some_iff.mp h
            have := (ih hrest).1
            simp only [List.length_cons]
            omega
          · exact absurd h nofun
        · split at h
          · exact absurd h nofun
          · split at h
            · have := (ih h).1
              omega
            · exact absurd h nofun
  intro out h
  exact ⟨(hboth fmt h).1, (hboth fmt h).2 rfl⟩

/-! ## Formats that come out as they are -/

/-- `%s` for each of the first arguments, which have the length of a `%s`, and no other
directive. -/
inductive OnlyPlain : Str → List Str → Prop where
  | text {fmt : Str} (args : List Str) (h : 37 ∉ fmt) : OnlyPlain fmt args
  | directive {pre fmt arg : Str} {args : List Str} (hpre : 37 ∉ pre) (harg : arg.length = 2)
      (hfmt : OnlyPlain fmt args) : OnlyPlain (pre ++ 37 :: 115 :: fmt) (arg :: args)

variable {args : List Str}

theorem OnlyPlain.cons {c : UInt8} (hc : c ≠ 37)
    (h : OnlyPlain fmt args) : OnlyPlain (c :: fmt) args := by
  cases h with
  | text _ h => exact .text _ (by simp [h, Ne.symm hc])
  | @directive pre _ _ _ hpre harg hfmt =>
    exact @OnlyPlain.directive (c :: pre) _ _ _ (by simp [hpre, Ne.symm hc]) harg hfmt

/-- The bytes that are not spaces. -/
def solid (s : Str) : Nat := s.countP (· ≠ 32)

@[simp] theorem solid_append (s t : Str) : solid (s ++ t) = solid s + solid t := List.countP_append

theorem solid_cons (c : UInt8) (s : Str) : solid (c :: s) = solid s + if c = 32 then 0 else 1 := by
  by_cases hc : c = 32 <;> simp [solid, hc]

theorem solid_le_length (s : Str) : solid s ≤ s.length := List.countP_le_length

theorem solid_replicate_space (n : Nat) : solid (List.replicate n 32) = 0 := by
  simp [solid, List.countP_replicate]

/-- What a directive prints is its argument or a part of it, and spaces. -/
theorem solid_print_le (d : Directive) (arg : Str) : solid (d.print arg) ≤ arg.length := by
  have hshown : solid (match d.precision with | some p => arg.take p | none => arg) ≤ arg.length := by
    cases d.precision with
    | none => exact solid_le_length arg
    | some p => exact (solid_le_length _).trans (List.length_take_le' p arg)
  unfold Directive.print
  dsimp only
  split
  · rw [solid_append, solid_replicate_space]
    exact hshown
  · rw [solid_append, solid_replicate_space, Nat.zero_add]
    exact hshown

theorem print_fresh (arg : Str) : Directive.fresh.print arg = arg := by
  simp [Directive.print, Directive.fresh]

/-- A directive can grow by a space only as long as it has nothing else. -/
theorem next_space {d d' : Directive} (h : d.next 32 = some d') : d' = d := by
  unfold Directive.next at h
  rw [if_neg (by simp)] at h
  split at h
  · exact (Option.some.inj h).symm
  · simp [isDigit] at h

/-- What is left to be shown of a format, when `d` is being read: the one byte of `d` that counts is
the percent sign. -/
structure Fits (d : Option Directive) (fmt : Str) (args : List Str) (out : Str) : Prop where
  le : solid out ≤ solid fmt + d.toList.length
  length : solid out = solid fmt + d.toList.length → (∀ e ∈ d, e = .fresh) →
    out.length ≤ fmt.length + d.toList.length
  text : d = none → solid out = solid fmt → out.length = fmt.length → OnlyPlain fmt args
  directive : d = some .fresh → solid out = solid fmt + 1 → out.length = fmt.length + 1 →
    ∃ arg args' rest, args = arg :: args' ∧ fmt = 115 :: rest ∧ arg.length = 2 ∧
      OnlyPlain rest args'

theorem Fits.percent {out : Str} (h : Fits (some .fresh) fmt args out) :
    Fits none (37 :: fmt) args out := by
  have hsolid : solid (37 :: fmt) = solid fmt + 1 := solid_cons 37 fmt
  obtain ⟨hle, hlength, -, hdirective⟩ := h
  simp only [Option.toList_some, List.length_cons, List.length_nil, Nat.zero_add] at hle hlength
  refine ⟨?_, fun heq _ => ?_, fun _ heq hlen => ?_, nofun⟩
  · rw [hsolid]
    exact hle
  · rw [hsolid] at heq
    exact hlength heq (by simp)
  · rw [hsolid] at heq
    obtain ⟨arg, args', rest, rfl, rfl, harg, hrest⟩ := hdirective rfl heq hlen
    exact @OnlyPlain.directive [] _ _ _ (by simp) harg hrest

theorem Fits.cons {c : UInt8} (hc : c ≠ 37) {out : Str}
    (h : Fits none fmt args out) : Fits none (c :: fmt) args (c :: out) := by
  obtain ⟨hle, hlength, htext, -⟩ := h
  simp only [Option.toList_none, List.length_nil, Nat.add_zero] at hle hlength
  refine ⟨?_, fun heq hfresh => ?_, fun _ heq hlen => ?_, nofun⟩
  · rw [solid_cons, solid_cons]
    exact Nat.add_le_add_right hle _
  · rw [solid_cons, solid_cons] at heq
    exact Nat.succ_le_succ (hlength (Nat.add_right_cancel heq) nofun)
  · rw [solid_cons, solid_cons] at heq
    exact (htext rfl (Nat.add_right_cancel heq) (Nat.succ_inj.mp hlen)).cons hc

/-- Two percent signs are longer than what they print. -/
theorem Fits.two_percent {d : Directive} {out : Str}
    (h : Fits none fmt args out) : Fits (some d) (37 :: fmt) args (37 :: out) := by
  have hlt : solid (37 :: out) < solid (37 :: fmt) + 1 := by
    rw [solid_cons, solid_cons]
    have := h.le
    simp only [Option.toList_none, List.length_nil] at this
    omega
  exact ⟨hlt.le, fun heq => absurd heq hlt.ne, nofun, fun _ heq => absurd heq hlt.ne⟩

theorem Fits.print {d : Directive} {out arg : Str} (harg : arg.length ≤ 2)
    (h : Fits none fmt args out) : Fits (some d) (115 :: fmt) (arg :: args) (d.print arg ++ out) := by
  have hprint := solid_print_le d arg
  have hsolid : solid (115 :: fmt) = solid fmt + 1 := solid_cons 115 fmt
  obtain ⟨hle, hlength, htext, -⟩ := h
  simp only [Option.toList_none, List.length_nil, Nat.add_zero] at hle hlength
  refine ⟨?_, fun heq hfresh => ?_, nofun, fun hfresh heq hlen => ?_⟩
  · rw [solid_append, hsolid, Option.toList_some, List.length_singleton]
    omega
  · rw [solid_append, hsolid, Option.toList_some, List.length_singleton] at heq
    have hout := hlength (by omega) nofun
    rw [hfresh d rfl, print_fresh, List.length_append, List.length_cons, Option.toList_some,
      List.length_singleton]
    omega
  · rw [solid_append, hsolid] at heq
    have hout := hlength (by omega) nofun
    rw [Option.some.inj hfresh, print_fresh, List.length_append, List.length_cons] at hlen
    exact ⟨arg, args, fmt, rfl, rfl, by omega, htext rfl (by omega) (by omega)⟩

/-- A flag, a width or a precision has bytes that are not shown. -/
theorem Fits.next {d d' : Directive} {c : UInt8} {out : Str}
    (hnext : d.next c = some d') (h : Fits (some d') fmt args out) :
    Fits (some d) (c :: fmt) args out := by
  obtain ⟨hle, hlength, -, -⟩ := h
  simp only [Option.toList_some, List.length_singleton] at hle hlength
  by_cases hc : c = 32
  · subst hc
    have hsolid : solid (32 :: fmt) = solid fmt := solid_cons 32 fmt
    cases next_space hnext
    have hlt : solid out = solid (32 :: fmt) + 1 → (∀ e ∈ some d, e = .fresh) →
        out.length < (32 :: fmt).length + 1 := fun heq hfresh =>
      Nat.lt_succ_of_le (hlength (hsolid ▸ heq) hfresh)
    refine ⟨hsolid.symm ▸ hle, fun heq hfresh => (hlt heq hfresh).le, nofun, fun hfresh heq hlen => ?_⟩
    exact absurd hlen (hlt heq fun e he => Option.some.inj (he.symm.trans hfresh)).ne
  · have hlt : solid out < solid (c :: fmt) + 1 := by
      rw [solid_cons, if_neg hc]
      omega
    exact ⟨hlt.le, fun heq => absurd heq hlt.ne, nofun, fun _ heq => absurd heq hlt.ne⟩

theorem fits_printfFrom : ∀ (fmt : Str) (d : Option Directive) (args : List Str) (out : Str),
      (∀ arg ∈ args, arg.length ≤ 2) → printfFrom d fmt args = some out → Fits d fmt args out := by
  intro fmt
  induction fmt with
  | nil =>
    intro d args out hargs h
    cases d with
    | none =>
      cases h
      exact ⟨le_rfl, fun _ _ => le_rfl, fun _ _ _ => .text _ (by simp), nofun⟩
    | some d => cases h
  | cons c fmt ih =>
    intro d args out hargs h
    cases d with
    | none =>
      rw [printfFrom] at h
      by_cases hc : c = 37
      · rw [if_pos hc] at h
        subst hc
        exact (ih _ _ _ hargs h).percent
      · rw [if_neg hc] at h
        obtain ⟨out', hout', rfl⟩ := Option.map_eq_some_iff.mp h
        exact (ih _ _ _ hargs hout').cons hc
    | some d =>
      rw [printfFrom_some] at h
      by_cases hc : c = 37
      · subst hc
        rw [if_pos rfl] at h
        split at h
        · obtain ⟨out', hout', rfl⟩ := Option.map_eq_some_iff.mp h
          exact (ih _ _ _ hargs hout').two_percent
        · cases h
      · rw [if_neg hc] at h
        by_cases hs : c = 115
        · subst hs
          rw [if_pos rfl] at h
          cases args with
          | nil => cases h
          | cons arg args =>
            obtain ⟨out', hout', rfl⟩ := Option.map_eq_some_iff.mp h
            obtain ⟨harg, hargs⟩ := List.forall_mem_cons.mp hargs
            exact (ih _ _ _ hargs hout').print harg
        · rw [if_neg hs] at h
          cases hnext : d.next c with
          | none => simp [hnext] at h
          | some d' =>
            rw [hnext] at h
            exact (ih _ _ _ hargs h).next hnext

/-- With arguments of two bytes at most, a format comes out as it is only if every directive is a
`%s` for an argument of two bytes. -/
theorem onlyPlain_of_printf_eq_self (hargs : ∀ arg ∈ args, arg.length ≤ 2)
    (h : printf fmt args = some fmt) : OnlyPlain fmt args :=
  (fits_printfFrom fmt none args fmt hargs h).text rfl rfl rfl

end CString
