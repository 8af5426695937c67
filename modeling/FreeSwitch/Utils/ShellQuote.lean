import FreeSwitch.Lib.CString

/-!
# Quoting for a shell — `switch_util_quote_shell_arg_pool`

The text is put between single quotes, and a single quote in it is written as `'\''`: the quotes are
closed, a quote is written behind a backslash, and the quotes are opened again.

* **`shellRead`** — how a POSIX shell takes a text apart into words.
* **`shellRead_quote`** — a quoted text is read into the word it stands in, whatever comes before it and
  behind it.
* **`quote_shell_arg_one_word`** — so it is one word by itself.
-/

namespace FreeSwitch.ShellQuote

open CString

/-! ## The shell -/

/-- Where the shell stands in a text. -/
inductive Quoting where
  | unquoted
  | escaped
  | single
  | double
  | doubleEscaped
deriving DecidableEq, Repr

/-- The bytes with a meaning of their own outside of quotes: operators, expansions, patterns and
comments. -/
def special : Str := bytes "|&;<>()$`*?[]#~=%!" ++ [10]

/-- The words of a text from a state on; `word` is the one that has been begun. There is no result where
a quote is left open and where the shell would do more than to collect words. -/
def shellRead : Quoting → Option Str → Str → Option (List Str)
  | .unquoted, word, [] => some word.toList
  | _, _, [] => none
  | .unquoted, word, c :: s =>
    if c = 39 then shellRead .single (some (word.getD [])) s
    else if c = 34 then shellRead .double (some (word.getD [])) s
    else if c = 92 then shellRead .escaped word s
    else if c = 32 ∨ c = 9 then (shellRead .unquoted none s).map (word.toList ++ ·)
    else if c ∈ special then none
    else shellRead .unquoted (some (word.getD [] ++ [c])) s
  | .escaped, word, c :: s =>
    -- a line feed behind a backslash is dropped with it
    shellRead .unquoted (if c = 10 then word else some (word.getD [] ++ [c])) s
  | .single, word, c :: s =>
    if c = 39 then shellRead .unquoted word s else shellRead .single (some (word.getD [] ++ [c])) s
  | .double, word, c :: s =>
    if c = 34 then shellRead .unquoted word s
    else if c = 92 then shellRead .doubleEscaped word s
    else if c = 36 ∨ c = 96 then none
    else shellRead .double (some (word.getD [] ++ [c])) s
  | .doubleEscaped, word, c :: s =>
    if c = 10 then shellRead .double word s
    else if c = 36 ∨ c = 96 ∨ c = 34 ∨ c = 92 then shellRead .double (some (word.getD [] ++ [c])) s
    else shellRead .double (some (word.getD [] ++ [92, c])) s

/-! ## The function -/

/-- What is written for a byte between the quotes. -/
def quoteByte (c : UInt8) : Str := if c = 39 then [39, 92, 39, 39] else [c]

/-- The first pass: the size of the allocation. -/
def destLen (string : Str) : Nat :=
  string.foldl (fun destLen c => if c = 39 then destLen + 3 else destLen) (string.length + 1 + 1) + 1

/-- The second pass: the bytes that are written, with the zero. -/
def dest (string : Str) : Str := string.foldl (fun dest c => dest ++ quoteByte c) [39] ++ [39] ++ [0]

/-- The string at `dest`; `none` if the assertion `n == dest_len` fails. -/
def switchUtilQuoteShellArgPool (string : Str) : Option Str :=
  if (dest string).length = destLen string then some ((dest string).takeWhile (· ≠ 0)) else none

/-! ## What it writes -/

/-- The quoted text. -/
def quote (s : Str) : Str := 39 :: s.flatMap quoteByte ++ [39]

theorem dest_eq (s : Str) : dest s = quote s ++ [0] := by
  rw [dest, List.foldl_append_eq_append, ← List.flatMap_def]
  rfl

theorem length_dest (s : Str) : (dest s).length = destLen s := by
  have hfold : ∀ n, s.foldl (fun destLen c => if c = 39 then destLen + 3 else destLen) (s.length + n)
      = (s.flatMap quoteByte).length + n := by
    induction s with
    | nil => exact fun _ => rfl
    | cons c s ih =>
      intro n
      have hstep : (if c = 39 then (c :: s).length + n + 3 else (c :: s).length + n) = s.length +
          ((quoteByte c).length + n) := by
        unfold quoteByte
        split <;> simp <;> omega
      rw [List.foldl_cons, hstep, ih, List.flatMap_cons, List.length_append]
      omega
  rw [destLen, Nat.add_assoc s.length, hfold, dest_eq]
  simp [quote]

theorem zero_notMem_quote {s : Str} (hs : 0 ∉ s) : 0 ∉ quote s := by
  simp only [quote, List.cons_append, List.mem_cons, List.mem_append, List.mem_flatMap, not_or]
  refine ⟨by decide, ?_, by decide⟩
  rintro ⟨c, hc, hzero⟩
  unfold quoteByte at hzero
  split at hzero
  · exact absurd hzero (by decide)
  · exact hs (List.mem_singleton.mp hzero ▸ hc)

theorem switchUtilQuoteShellArgPool_eq {s : Str} (hs : 0 ∉ s) :
    switchUtilQuoteShellArgPool s = some (quote s) := by
  rw [switchUtilQuoteShellArgPool, if_pos (length_dest s), dest_eq,
    takeWhile_append_stop]
  · intro c hc
    exact decide_eq_true fun hzero => zero_notMem_quote hs (hzero ▸ hc)
  · intro c hc
    rw [← Option.some.inj hc]
    rfl

/-! ## How it is read -/

/-- Between the quotes: each byte leaves the shell in single quotes again. -/
theorem shellRead_quoteByte (word : Str) (c : UInt8) (rest : Str) :
    shellRead .single (some word) (quoteByte c ++ rest) =
      shellRead .single (some (word ++ [c])) rest := by
  unfold quoteByte
  split
  case isTrue hc =>
    subst hc
    rfl
  case isFalse hc => exact if_neg hc

theorem shellRead_single (s rest : Str) :
    ∀ word, shellRead .single (some word) (s.flatMap quoteByte ++ 39 :: rest) =
      shellRead .unquoted (some (word ++ s)) rest := by
  induction s with
  | nil =>
    intro word
    rw [List.append_nil]
    rfl
  | cons c s ih =>
    intro word
    rw [List.flatMap_cons, List.append_assoc, shellRead_quoteByte, ih, List.append_assoc]
    rfl

/-- A quoted text goes into the word that it stands in. -/
theorem shellRead_quote (word : Option Str) (s rest : Str) :
    shellRead .unquoted word (quote s ++ rest) =
      shellRead .unquoted (some (word.getD [] ++ s)) rest := by
  rw [← shellRead_single, quote, List.append_assoc]
  rfl

/-- **A quoted text is one word, and the assertion holds.** -/
theorem quote_shell_arg_one_word (s : Str) (hs : 0 ∉ s) :
    ∃ text, switchUtilQuoteShellArgPool s = some text ∧ shellRead .unquoted none text = some [s] := by
  refine ⟨quote s, switchUtilQuoteShellArgPool_eq hs, ?_⟩
  have hread := shellRead_quote none s []
  rw [List.append_nil] at hread
  exact hread

theorem quote_shell_arg_one_word_quotes :
    (0 : UInt8) ∉ bytes "'; rm -rf '" ∧
      ∃ text, switchUtilQuoteShellArgPool (bytes "'; rm -rf '") = some text ∧
        shellRead .unquoted none text = some [bytes "'; rm -rf '"] :=
  ⟨by decide, quote_shell_arg_one_word (bytes "'; rm -rf '") (by decide)⟩

end FreeSwitch.ShellQuote
