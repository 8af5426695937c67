import FreeSwitch.Lib.CString

/-!
# Replacing a text — `switch_string_replace`

The loop goes through the string with the index `i`. Where the searched text stands, the replacement is
written and `i` is moved on by `search_len - 1`, and then by one more as in every round. For an empty
text the first of these is a step back, so `i` stays where it is.

* **`Replaced`** — the string with the leftmost occurrences replaced that do not overlap.
* **`replaceLoop_spec`** — the loop, from any place on, if the searched text is not empty.
* **`string_replace_iff`** — when it returns the string with the occurrences replaced;
  **`string_replace_stuck`** — where it does not return at all.
-/

namespace FreeSwitch.Replace

open CString

/-! ## The functions -/

/-- The sum of two numbers of type `size_t`. -/
def sizeAdd (a b : Nat) : Nat := (a + b) % 2 ^ 64

def sizePred (a : Nat) : Nat := (a + (2 ^ 64 - 1)) % 2 ^ 64

/-- Whether `search` stands at the beginning of `string`. -/
def switchStringMatch : Str → Str → Bool
  | _, [] => true
  | [], _ :: _ => false
  | c :: string, d :: search => if c ≠ d then false else switchStringMatch string search

/-- The loop from the index `i` on, with what is written at `dest` so far. -/
def replaceLoop (string search replace : Str) : Nat → Nat → Str → Option Str
  | 0, _, _ => none
  | fuel + 1, i, dest =>
    match string.drop i with
    | [] => some dest
    | c :: rest =>
      if switchStringMatch (c :: rest) search then
        replaceLoop string search replace fuel (sizeAdd (sizeAdd i (sizePred search.length)) 1)
          (dest ++ replace)
      else replaceLoop string search replace fuel (sizeAdd i 1) (dest ++ [c])

def switchStringReplace (fuel : Nat) (string search replace : Str) : Option Str :=
  replaceLoop string search replace fuel 0 []

/-! ## Occurrences -/

/-- From the left on, each occurrence that begins behind the one before is replaced. An empty text
occurs before every byte and at the end. -/
inductive Replaced (search replace : Str) : Str → Str → Prop where
  | done (ne : search ≠ []) : Replaced search replace [] []
  | found {rest out : Str} (ne : search ≠ []) (h : Replaced search replace rest out) :
      Replaced search replace (search ++ rest) (replace ++ out)
  | skip {c : UInt8} {rest out : Str} (no : ¬ search <+: c :: rest)
      (h : Replaced search replace rest out) :
      Replaced search replace (c :: rest) (c :: out)
  | emptyDone (empty : search = []) : Replaced search replace [] replace
  | empty {c : UInt8} {rest out : Str} (empty : search = []) (h : Replaced search replace rest out) :
      Replaced search replace (c :: rest) (replace ++ c :: out)

theorem switchStringMatch_iff (string search : Str) :
    switchStringMatch string search = true ↔ search <+: string := by
  induction string, search using switchStringMatch.induct with
  | case1 string => exact ⟨fun _ => List.nil_prefix, fun _ => by unfold switchStringMatch; rfl⟩
  | case2 d search => simp [switchStringMatch]
  | case3 c string d search hne =>
    rw [switchStringMatch, if_pos hne, List.cons_prefix_cons]
    exact ⟨nofun, fun h => absurd h.1.symm hne⟩
  | case4 c string d search heq ih =>
    rw [switchStringMatch, if_neg heq, ih, List.cons_prefix_cons]
    exact ⟨fun h => ⟨(not_not.mp heq).symm, h⟩, fun h => h.2⟩

/-! ## The loop -/

variable {string search replace : Str}

theorem sizeAdd_sizePred {i n : Nat} (h : i + n < 2 ^ 64) :
    sizeAdd (sizeAdd i (sizePred n)) 1 = i + n := by
  unfold sizeAdd sizePred
  omega

/-- What is left of the string gets shorter in every round. -/
theorem replaceLoop_spec (hlen : string.length < 2 ^ 64) (hne : search ≠ []) :
    ∀ (rest : Str) (i : Nat), string.drop i = rest → i ≤ string.length → ∃ out,
      Replaced search replace rest out ∧
      ∀ fuel dest, rest.length < fuel →
        replaceLoop string search replace fuel i dest = some (dest ++ out) := by
  intro rest
  induction hn : rest.length using Nat.strong_induction_on generalizing rest with
  | _ n ih =>
    intro i hrest hi
    have hlength : n = string.length - i := by rw [← hn, ← hrest, List.length_drop]
    cases rest with
    | nil =>
      refine ⟨[], .done hne, fun fuel dest hfuel => ?_⟩
      obtain ⟨fuel, rfl⟩ := Nat.exists_eq_add_one_of_ne_zero (show fuel ≠ 0 by omega)
      rw [replaceLoop, hrest, List.append_nil]
    | cons c rest =>
      rw [List.length_cons] at hn
      -- the next round, wherever it starts
      have hround : ∀ {k : Nat} {piece : Str}, 0 < k → i + k ≤ string.length →
          (∀ fuel dest, replaceLoop string search replace (fuel + 1) i dest =
            replaceLoop string search replace fuel (i + k) (dest ++ piece)) →
          ∃ out, Replaced search replace ((c :: rest).drop k) out ∧ ∀ fuel dest, n < fuel →
            replaceLoop string search replace fuel i dest = some (dest ++ (piece ++ out)) := by
        intro k piece hk hik hstep
        have hdrop : string.drop (i + k) = (c :: rest).drop k := by rw [← hrest, List.drop_drop]
        have hshort : ((c :: rest).drop k).length < n := by
          rw [List.length_drop, List.length_cons]
          omega
        obtain ⟨out, hout, hloop⟩ := ih _ hshort _ rfl (i + k) hdrop hik
        refine ⟨out, hout, fun fuel dest hfuel => ?_⟩
        obtain ⟨fuel, rfl⟩ := Nat.exists_eq_add_one_of_ne_zero (show fuel ≠ 0 by omega)
        rw [hstep, hloop _ _ (by omega), List.append_assoc]
      by_cases hmatch : search <+: c :: rest
      · obtain ⟨tail, htail⟩ := hmatch
        have hle := congrArg List.length htail
        rw [List.length_append, List.length_cons] at hle
        have hpos := List.length_pos_iff.mpr hne
        obtain ⟨out, hout, hloop⟩ := @hround search.length replace hpos (by omega) fun fuel dest => by
          rw [replaceLoop, hrest]
          show (if _ then _ else _) = _
          rw [if_pos ((switchStringMatch_iff _ _).mpr ⟨tail, htail⟩), sizeAdd_sizePred (by omega)]
        rw [← htail, List.drop_left] at hout
        exact ⟨replace ++ out, htail ▸ .found hne hout, hloop⟩
      · obtain ⟨out, hout, hloop⟩ := @hround 1 [c] Nat.one_pos (by omega) fun fuel dest => by
          rw [replaceLoop, hrest]
          show (if _ then _ else _) = _
          rw [if_neg fun h => hmatch ((switchStringMatch_iff _ _).mp h)]
          show replaceLoop _ _ _ _ ((i + 1) % 2 ^ 64) _ = _
          rw [Nat.mod_eq_of_lt (by omega)]
        exact ⟨c :: out, .skip hmatch hout, hloop⟩

/-- With an empty text to search for, a round changes nothing but `dest`. -/
theorem replaceLoop_empty (hne : string ≠ []) :
    ∀ fuel dest, replaceLoop string [] replace fuel 0 dest = none := by
  intro fuel
  induction fuel with
  | zero => exact fun _ => rfl
  | succ fuel ih =>
    intro dest
    obtain ⟨c, rest, rfl⟩ := List.exists_cons_of_ne_nil hne
    exact ih (dest ++ replace)

/-- **When the function returns the string with the occurrences replaced.** -/
theorem string_replace_iff (string search replace : Str) (hlen : string.length < 2 ^ 64) :
    (∃ fuel out, switchStringReplace fuel string search replace = some out ∧
      Replaced search replace string out)
      ↔ search ≠ [] ∨ string = [] ∧ replace = [] := by
  constructor
  · rintro ⟨fuel, out, hout, hreplaced⟩
    by_contra hcon
    obtain ⟨hsearch, hboth⟩ := not_or.mp hcon
    obtain rfl := not_not.mp hsearch
    by_cases hstring : string = []
    · subst hstring
      -- the loop ends at once, but the empty text occurs in the empty string
      cases hreplaced with
      | done hne => exact hne rfl
      | found hne => exact hne rfl
      | emptyDone =>
        cases fuel with
        | zero => cases hout
        | succ fuel => exact hboth ⟨rfl, (Option.some.inj hout).symm⟩
    · rw [switchStringReplace, replaceLoop_empty hstring] at hout
      cases hout
  · rintro (hne | ⟨rfl, rfl⟩)
    · obtain ⟨out, hout, hloop⟩ :=
        @replaceLoop_spec string search replace hlen hne string 0 rfl (Nat.zero_le _)
      exact ⟨string.length + 1, out, hloop _ _ (Nat.lt_succ_self _), hout⟩
    · by_cases hne : search = []
      · exact ⟨1, [], rfl, .emptyDone hne⟩
      · exact ⟨1, [], rfl, .done hne⟩

/-- Of two places that overlap the first is replaced. -/
theorem string_replace_iff_overlap : (bytes "aaa").length < 2 ^ 64 ∧
    ∃ fuel out, switchStringReplace fuel (bytes "aaa") (bytes "aa") (bytes "b") = some out ∧
      Replaced (bytes "aa") (bytes "b") (bytes "aaa") out :=
  ⟨by decide,
    (string_replace_iff (bytes "aaa") (bytes "aa") (bytes "b") (by decide)).mpr (.inl (by decide))⟩

/-- An empty text to search for: the function does not return. -/
theorem string_replace_stuck :
    ¬ ∃ fuel out, switchStringReplace fuel (bytes "a") [] (bytes "b") = some out := by
  rintro ⟨fuel, out, hout⟩
  rw [switchStringReplace, replaceLoop_empty (by decide)] at hout
  cases hout

end FreeSwitch.Replace
