import FreeSwitch.Event.Headers
import Mathlib.Data.List.TakeWhile

/-!
# Expansion of `${...}` — the text

`switch_channel_expand_variables_check` and `switch_event_expand_headers_check` walk over a text in
the same way, and call themselves for the names and the values in it. They differ in what a name
stands for, which is a parameter here.

* **`nextToken`** — one round of the loop: bytes that are copied, or what stands in `${...}`.
* **`expand`** — the text with every variable replaced, to a depth.
* **`expand_congr`** — two readings of names that agree give the same text.
-/

namespace FreeSwitch.Expand

open CString

/-! ## Texts that need no expansion -/

/-- `switch_string_var_check_const`: whether there is a `${`, with backslashes between or without. -/
def varCheckConst : Bool → Str → Bool
  | _, [] => false
  | dol, c :: s =>
    if c = 36 then varCheckConst true s
    else if dol then
      if c = 123 then true else varCheckConst (c = 92) s
    else varCheckConst false s

/-- `switch_string_has_escaped_data`. -/
def hasEscapedData : Str → Bool
  | [] => false
  | c :: s =>
    (c = 92 && (s.head?.any fun d => d = 92 || d = 110 || d = 115 || d = 116 || d = 39))
      || hasEscapedData s

def needsExpansion (s : Str) : Bool := varCheckConst false s || hasEscapedData s

/-! ## Rounds -/

/-- What is in the braces: `br` is the depth, and a brace at the start does not count. Also the depth
at the end, which is 0 if the last brace was found, and the text behind. -/
def scanName : Bool → Nat → Str → Str × Nat × Str
  | _, br, [] => ([], br, [])
  | start, br, c :: s =>
    if br = 1 ∧ c = 125 then ([], 0, s)
    else
      let br' := if ¬ start ∧ c = 123 then br + 1 else if 1 < br ∧ c = 125 then br - 1 else br
      let (inside, br, rest) := scanName false br' s
      (c :: inside, br, rest)

inductive Token where
  | copy (s : Str)
  /-- `tail`: the byte behind the brace is copied without a look at it, unless it is a `$`. -/
  | braces (global : Bool) (inside : Str) (br : Nat) (tail : Str)
  deriving DecidableEq

def bracesToken (global : Bool) (s : Str) : Token × Str :=
  match scanName true 1 s with
  | (inside, br, []) => (.braces global inside br [], [])
  | (inside, br, c :: rest) =>
    if c = 36 then (.braces global inside br [], c :: rest) else (.braces global inside br [c], rest)

/-- One round of the loop, and the text that is left. -/
def nextToken : Str → Token × Str
  | [] => (.copy [], [])
  | 92 :: 36 :: 36 :: s => (.copy [36], s)
  | 92 :: 36 :: s => (.copy [36], s)
  | 92 :: 39 :: s => (.copy [], s)
  | 92 :: 92 :: s => (.copy [92], s)
  | 36 :: 36 :: 123 :: s => bracesToken true s
  | 36 :: 36 :: s => (.copy [36], s)
  | 36 :: 123 :: s => bracesToken false s
  | c :: s => (.copy [c], s)

/-- The rounds; the first `skip` bytes belong to the one before. -/
def tokens : Nat → Str → List Token
  | _, [] => []
  | skip + 1, _ :: s => tokens skip s
  | 0, c :: s => (nextToken (c :: s)).1 :: tokens (s.length - (nextToken (c :: s)).2.length) s

/-! ## Calls -/

/-- The argument of an API call up to the parenthesis that closes it. -/
def callArgument : Nat → Str → Str
  | _, [] => []
  | br, c :: s =>
    if c = 40 then c :: callArgument (br + 1) s
    else if 1 < br ∧ c = 41 then c :: callArgument (br - 1) s
    else if br = 1 ∧ c = 41 then []
    else c :: callArgument br s

/-- A name with a space or a parenthesis in it is an API call. -/
def splitCall (inside : Str) (br : Nat) : Option (Str × Str) :=
  match inside.dropWhile fun c => c ≠ 32 && c ≠ 40 with
  | [] => none
  | c :: arg =>
    some (inside.takeWhile fun c => c ≠ 32 && c ≠ 40, callArgument (if c = 40 then 1 else br) arg)

theorem splitCall_of_plain {inside : Str} (h : ∀ c ∈ inside, c ≠ 32 ∧ c ≠ 40) (br : Nat) :
    splitCall inside br = none := by
  rw [splitCall, List.dropWhile_eq_nil_iff.mpr]
  intro c hc
  simp [h c hc]

/-! ## Names -/

/-- `name[idx]:offset:ooffset`. -/
structure Subscript where
  name : Str
  idx : Int
  offset : Int
  ooffset : Int
  deriving DecidableEq

/-- What stands behind the first `c`, if there is one. -/
def behind (c : UInt8) (s : Str) : Option Str :=
  match s.dropWhile (· ≠ c) with
  | [] => none
  | _ :: rest => some rest

def parseName (vname : Str) : Subscript :=
  let offsets := behind 58 vname
  let vname := vname.takeWhile (· ≠ 58)
  let index := (behind 91 vname).filter fun rest => 93 ∈ rest
  { name := if index.isSome then vname.takeWhile (· ≠ 91) else vname
    idx := (index.map atoi).getD (-1)
    offset := (offsets.map atoi).getD 0
    ooffset := ((offsets.bind (behind 58)).map atoi).getD 0 }

/-- A negative offset counts from the end, if the value is that long. -/
def fromEnd (s : Str) (offset : Int) : Str :=
  if offset.natAbs ≤ s.length then s.drop (s.length - offset.natAbs) else s

def cutLength (s : Str) (ooffset : Int) : Str :=
  if 0 < ooffset ∧ ooffset < s.length then s.take ooffset.toNat else s

/-! ## Expansion -/

/-- What names and calls stand for. `none` where C does not define the result. -/
structure Expander where
  /-- The value of what is in the braces; the first argument expands a text. -/
  value : (Str → Option Str) → Bool → Str → Option Str
  api : Str → Str → Str

def evalBraces (ex : Expander) (expand : Str → Option Str) (global : Bool) (inside : Str) (br : Nat) :
    Option Str :=
  match splitCall inside br with
  | none => ex.value expand global inside
  | some (vname, vval) =>
    (expand vname).bind fun vname => (expand vval).map fun vval => ex.api vname vval

def evalTokens (eval : Bool → Str → Nat → Option Str) : List Token → Option Str
  | [] => some []
  | .copy s :: ts => (evalTokens eval ts).map (s ++ ·)
  | .braces global inside br tail :: ts =>
    (eval global inside br).bind fun value => (evalTokens eval ts).map (value ++ tail ++ ·)

/-- The number is how deep the calls may still go. -/
def expand (ex : Expander) : Nat → Str → Option Str
  | 0, s => some s
  | depth + 1, s =>
    if needsExpansion s then evalTokens (evalBraces ex (expand ex depth)) (tokens 0 s) else some s

theorem expand_of_plain (ex : Expander) (depth : Nat) {s : Str} (h : needsExpansion s = false) :
    expand ex depth s = some s := by
  cases depth with
  | zero => rfl
  | succ depth => rw [expand, if_neg (by simp [h])]

/-- Expanders with the same calls, whose values agree as long as the texts inside are expanded in the
same way. -/
theorem expand_congr {ex ex' : Expander} (hapi : ex.api = ex'.api) (hvalue : ∀ depth global inside,
      ex.value (expand ex depth) global inside = ex'.value (expand ex depth) global inside) :
    ∀ depth s, expand ex depth s = expand ex' depth s := by
  intro depth
  induction depth with
  | zero => intro s; rfl
  | succ depth ih =>
    intro s
    have hexpand : expand ex' depth = expand ex depth := funext fun t => (ih t).symm
    have heval : evalBraces ex (expand ex depth) = evalBraces ex' (expand ex' depth) := by
      funext global inside br
      unfold evalBraces
      rw [hexpand, hapi]
      split
      · exact hvalue depth global inside
      · rfl
    rw [expand, expand, heval]

/-- The rounds have a result if every brace among them has one. -/
theorem evalTokens_isSome_iff {eval : Bool → Str → Nat → Option Str} (ts : List Token) :
    (evalTokens eval ts).isSome
      ↔ ∀ global inside br tail,
      .braces global inside br tail ∈ ts → (eval global inside br).isSome := by
  induction ts with
  | nil => simp [evalTokens]
  | cons t ts ih =>
    cases t with
    | copy s => simp [evalTokens, ih]
    | braces global inside br tail =>
      cases heval : eval global inside br with
      | none =>
        refine ⟨fun h => by simp [evalTokens, heval] at h, fun h => ?_⟩
        have hsome := h global inside br tail List.mem_cons_self
        simp [heval] at hsome
      | some value =>
        simp only [evalTokens, heval, Option.bind_some, Option.isSome_map, ih, List.mem_cons]
        refine ⟨fun h global' inside' br' tail' hmem => ?_, fun h g i b t hmem => h g i b t (.inr hmem)⟩
        rcases hmem with heq | hmem
        · cases heq
          rw [heval]
          rfl
        · exact h _ _ _ _ hmem

/-- A reading of names that always has a result. -/
theorem expand_isSome {ex : Expander}
    (h : ∀ f : Str → Option Str, (∀ s, (f s).isSome) → ∀ global inside,
      (ex.value f global inside).isSome) :
    ∀ depth s, (expand ex depth s).isSome := by
  intro depth
  induction depth with
  | zero => intro s; rfl
  | succ depth ih =>
    intro s
    rw [expand]
    split
    · refine (evalTokens_isSome_iff _).mpr fun global inside br tail _ => ?_
      unfold evalBraces
      split
      · exact h _ ih global inside
      · rename_i vname vval _
        obtain ⟨vname', hvname⟩ := Option.isSome_iff_exists.mp (ih vname)
        obtain ⟨vval', hvval⟩ := Option.isSome_iff_exists.mp (ih vval)
        simp [hvname, hvval]
    · rfl

/-! ## A name as it is written -/

/-- None of the bytes that have a meaning somewhere: `$ \ { } ( : [` and the space. -/
def Literal (s : Str) : Prop := ∀ c ∈ s, c ∉ [36, 92, 123, 125, 32, 40, 58, 91]

instance (s : Str) : Decidable (Literal s) := inferInstanceAs (Decidable (∀ c ∈ s, _))

/-- `${name[index]}`. -/
def written (name index : Str) : Str := bytes "$\x7b" ++ (name ++ 91 :: (index ++ [93]) ++ [125])

theorem needsExpansion_of_no_mark {s : Str} (h : ∀ c ∈ s, c ≠ 36 ∧ c ≠ 92) :
    needsExpansion s = false := by
  have hvar : varCheckConst false s = false ∧ hasEscapedData s = false := by
    induction s with
    | nil => exact ⟨rfl, rfl⟩
    | cons c s ih =>
      obtain ⟨⟨hdollar, hslash⟩, hs⟩ := List.forall_mem_cons.mp h
      obtain ⟨hvar, hescaped⟩ := ih hs
      simp [varCheckConst, hasEscapedData, hdollar, hslash, hvar, hescaped]
  rw [needsExpansion, hvar.1, hvar.2]
  rfl

theorem scanName_of_no_brace (rest : Str) : ∀ (s : Str) (start : Bool), (∀ c ∈ s, c ≠ 123 ∧ c ≠ 125) →
      scanName start 1 (s ++ 125 :: rest) = (s, 0, rest) := by
  intro s
  induction s with
  | nil => intro start _; simp [scanName]
  | cons c s ih =>
    intro start h
    obtain ⟨⟨hopen, hclose⟩, hs⟩ := List.forall_mem_cons.mp h
    rw [List.cons_append, scanName, if_neg (by simp [hclose])]
    simp [hopen, ih false hs]

theorem tokens_all (s : Str) : tokens s.length s = [] := by
  induction s with
  | nil => rfl
  | cons c s ih => exact ih

/-- The name that is written, without its braces. -/
theorem literal_content {name index : Str} (hname : Literal name) (hindex : Literal index) :
    ∀ c ∈ name ++ 91 :: (index ++ [93]), c ∉ [36, 92, 123, 125, 32, 40, 58] := by
  intro c hmem
  have hsub : ∀ c : UInt8,
      c ∉ [36, 92, 123, 125, 32, 40, 58, 91] → c ∉ [36, 92, 123, 125, 32, 40, 58] :=
    fun c h hc => h (List.mem_append_left [91] hc)
  rcases List.mem_append.mp hmem with h | h
  · exact hsub c (hname c h)
  · rcases List.mem_cons.mp h with rfl | h
    · decide
    · rcases List.mem_append.mp h with h | h
      · exact hsub c (hindex c h)
      · rw [List.mem_singleton.mp h]
        decide

theorem expand_written (ex : Expander) (depth : Nat) {name index : Str} (hname : Literal name)
    (hindex : Literal index) :
    expand ex (depth + 1) (written name index)
      = ex.value (expand ex depth) false (name ++ 91 :: (index ++ [93])) := by
  have hcontent := literal_content hname hindex
  rw [written]
  generalize name ++ 91 :: (index ++ [93]) = content at *
  have htoken : nextToken (bytes "$\x7b" ++ (content ++ [125])) = (.braces false content 0 [], []) := by
    show bracesToken false (content ++ [125]) = _
    rw [bracesToken, scanName_of_no_brace]
    intro c hmem
    exact ⟨fun h => hcontent c hmem (by simp [h]), fun h => hcontent c hmem (by simp [h])⟩
  have htokens : tokens 0 (bytes "$\x7b" ++ (content ++ [125])) = [.braces false content 0 []] := by
    show (nextToken (bytes "$\x7b" ++ (content ++ [125]))).1
      :: tokens ((123 :: (content ++ [125])).length
          - (nextToken (bytes "$\x7b" ++ (content ++ [125]))).2.length) (123 :: (content ++ [125])) = _
    rw [htoken]
    exact congrArg (List.cons _) (tokens_all _)
  have hcall : splitCall content 0 = none := splitCall_of_plain (fun c hmem =>
    ⟨fun h => hcontent c hmem (by simp [h]), fun h => hcontent c hmem (by simp [h])⟩) 0
  have hneeds : needsExpansion (bytes "$\x7b" ++ (content ++ [125])) = true := rfl
  rw [expand, if_pos hneeds, htokens]
  simp only [evalTokens, evalBraces, hcall, List.append_nil, Option.map_some]
  exact Option.bind_fun_some _

theorem expand_content (ex : Expander) (depth : Nat) {name index : Str} (hname : Literal name)
    (hindex : Literal index) :
    expand ex depth (name ++ 91 :: (index ++ [93])) = some (name ++ 91 :: (index ++ [93])) := by
  refine expand_of_plain ex depth (needsExpansion_of_no_mark fun c hmem => ?_)
  have hcontent := literal_content hname hindex c hmem
  exact ⟨fun h => hcontent (by simp [h]), fun h => hcontent (by simp [h])⟩

theorem parseName_written {name index : Str} (hname : Literal name) (hindex : Literal index) :
    parseName (name ++ 91 :: (index ++ [93])) = ⟨name, atoi (index ++ [93]), 0, 0⟩ := by
  have hcontent := literal_content hname hindex
  have hcolon : ∀ c ∈ name ++ 91 :: (index ++ [93]), (c ≠ 58 : Bool) := fun c hmem => by
    have hne : c ≠ 58 := fun h => hcontent c hmem (by simp [h])
    simpa using hne
  have hbracket : ∀ c ∈ name, (c ≠ 91 : Bool) := fun c hmem => by
    have hne : c ≠ 91 := fun h => hname c hmem (by simp [h])
    simpa using hne
  have htake : (name ++ 91 :: (index ++ [93])).takeWhile (· ≠ 58) = name ++ 91 :: (index ++ [93]) :=
    List.takeWhile_eq_self_iff.mpr hcolon
  have hoffsets : behind 58 (name ++ 91 :: (index ++ [93])) = none := by
    rw [behind, List.dropWhile_eq_nil_iff.mpr hcolon]
  have hindex : behind 91 (name ++ 91 :: (index ++ [93])) = some (index ++ [93]) := by
    rw [behind, List.dropWhile_append_of_pos hbracket]
    simp
  have hcut : (name ++ 91 :: (index ++ [93])).takeWhile (· ≠ 91) = name := by
    rw [List.takeWhile_append_of_pos hbracket]
    simp
  have hclosed : (some (index ++ [93])).filter (fun rest => 93 ∈ rest) = some (index ++ [93]) := by
    simp [Option.filter]
  simp only [parseName, hoffsets, htake, hindex, hclosed, hcut]
  simp

end FreeSwitch.Expand
