import FreeSwitch.Lib.CString

/-!
# Texts as numbers and truth values — `src/switch_utils.c`, `src/include/switch_utils.h`
-/

namespace FreeSwitch

open CString

def switchIsNumber (s : Str) : Bool :=
  (match s with
    | 45 :: s => s
    | 43 :: s => s
    | s => s).all fun c => c == 46 || isDigit c

theorem switchIsNumber_of_isDigit {text : Str} (h : ∀ c ∈ text, isDigit c) :
    switchIsNumber text = true := by
  have hall : ∀ s : Str, (∀ c ∈ s, isDigit c) →
      s.all (fun c => c == 46 || isDigit c) = true := fun s hs =>
    List.all_eq_true.mpr fun c hc => by rw [hs c hc, Bool.or_true]
  unfold switchIsNumber
  split
  · exact hall _ fun c hc => h c (List.mem_cons_of_mem _ hc)
  · exact hall _ fun c hc => h c (List.mem_cons_of_mem _ hc)
  · exact hall _ h

def trueWords : List Str :=
  [bytes "yes", bytes "on", bytes "true", bytes "t", bytes "enabled", bytes "active", bytes "allow"]

def switchTrue (expr : Option Str) : Bool :=
  match expr with
  | some expr => decide (∃ word ∈ trueWords, ciEq expr word) || (switchIsNumber expr && atoi expr != 0)
  | none => false

end FreeSwitch
