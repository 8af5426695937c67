import FreeSwitch.Lib.CString
import Mathlib.Data.List.Infix
import Mathlib.Logic.Function.Basic

/-!
# The digit machine — `src/switch_ivr_async.c`

Digits are collected until they are those of a binding, or until no binding can be meant any more.
Bindings belong to realms, one of which is in use. A binding whose text begins with `~` is a regular
expression.

* **`bind`** — `switch_ivr_dmachine_bind`.
* **`checkMatch`** — `switch_ivr_dmachine_check_match`: a first loop over the bindings counts those that
  are still possible, a second one looks for the binding that is meant.
* **`ping`**, **`Keys.run`** — `switch_ivr_dmachine_ping` and `switch_ivr_dmachine_feed`. They lock the
  machine, and `ping` runs the callbacks, which may call both again.
* **`Call.run`** — a call with whatever its callbacks call.
-/

namespace FreeSwitch.Ivr

open CString

/-- `DMACHINE_MAX_DIGIT_LEN`. -/
def dmachineMaxDigitLen : Nat := 512

/-- What the PCRE library answers. -/
structure Regex where
  /-- `switch_regex_match(target, expression)` -/
  fits : Str → Str → Bool
  /-- `switch_regex_perform(target, expression)`, and the text that `switch_perform_substitution` then
  makes of the replacement -/
  substitute : Str → Str → Str → Option Str

/-- Those values of `switch_status_t` that are told apart. -/
inductive Status where
  | success
  | false_
  | timeout
  | break_
  | notfound
  | found
  | continue_
  | other
deriving DecidableEq, Repr

/-- `dm_match_t`. -/
inductive DmMatch where
  | matchNone
  | matchExact
  | matchPartial
  | matchBoth
  | matchNever
deriving DecidableEq, Repr

/-- `switch_ivr_dmachine_binding_t`, without the links of the list. -/
structure Binding where
  digits : Str
  repl : Option Str
  firstMatch : Bool
  substituted : Option Str
  key : Int
  rmatch : Bool
  callback : Option Nat
  isRegex : Bool
  isPriority : Bool
  userData : Nat
deriving DecidableEq, Repr

/-- `dm_binding_head_t`: the bindings of a realm and its terminators. -/
structure BindingHead where
  bindingList : List Binding
  terminators : Option Str
deriving DecidableEq, Repr

/-- `realm` is the name under which `binding_hash` has the realm. -/
structure Dmachine where
  digitTimeoutMs : UInt32
  inputTimeoutMs : UInt32
  bindingHash : Str → Option BindingHead
  digits : Str
  lastMatchingDigits : Str
  lastFailedDigits : Str
  curDigitLen : Nat
  maxDigitLen : Nat
  lastDigitTime : Int
  matchCallback : Option Nat
  nonmatchCallback : Option Nat
  realm : Option Str
  lastMatchingBinding : Option Binding
  userData : Nat
  lastReturn : Status
  pinging : Bool

/-- `switch_ivr_dmachine_create`. -/
def create (digitTimeoutMs inputTimeoutMs : UInt32) (matchCallback nonmatchCallback : Option Nat)
    (userData : Nat) : Dmachine :=
  ⟨digitTimeoutMs, inputTimeoutMs, fun _ => none, [], [], [], 0, 0, 0, matchCallback,
    nonmatchCallback, none, none,
    userData, .success, false⟩

/-! ## Binding -/

/-- The binding that is meant by `digits` among those of the realm. -/
def Binding.isFor (digits : Str) (ptr : Binding) : Bool :=
  (ptr.isRegex && ptr.digits == digits.tail) || ptr.digits == digits

/-- The text of a regular expression and its replacement. The text is cut only at a double `~`. -/
def cutRepl (digits : Str) : Str × Option Str :=
  match strchr 126 digits with
  | none => (digits, none)
  | some repl =>
    if repl.tail.head? = some 126 then
      (digits.take (digits.length - repl.length), some (repl.drop 2)) else (digits, some repl)

/-- The arguments of a call of `switch_ivr_dmachine_bind`, without the realm. -/
structure Registration where
  digits : Str
  isPriority : Bool
  key : Int
  callback : Option Nat
  userData : Nat
deriving DecidableEq, Repr

/-- A `=` in front stands for `first_match`. -/
def afterEquals (digits : Str) : Str := if digits.head? = some 61 then digits.tail else digits

/-- What is stored of the digits. -/
structure Text where
  digits : Str
  repl : Option Str
  firstMatch : Bool
  isRegex : Bool
deriving DecidableEq, Repr

def readDigits (digits : Str) : Text :=
  if (afterEquals digits).head? = some 126 then
    ⟨(cutRepl (afterEquals digits).tail).1, (cutRepl (afterEquals digits).tail).2,
      decide (digits.head? = some 61), true⟩
  else ⟨afterEquals digits, none, decide (digits.head? = some 61), false⟩

def newBinding (r : Registration) : Binding where
  digits := (readDigits r.digits).digits
  repl := (readDigits r.digits).repl
  firstMatch := (readDigits r.digits).firstMatch
  substituted := none
  key := r.key
  rmatch := false
  callback := r.callback
  isRegex := (readDigits r.digits).isRegex
  isPriority := r.isPriority
  userData := r.userData

/-- The bindings of the realm after a registration: the first binding that is meant gets the callback
and its data. -/
def register (r : Registration) : List Binding → List Binding
  | [] => [newBinding r]
  | ptr :: rest =>
    if ptr.isFor r.digits then { ptr with callback := r.callback, userData := r.userData } :: rest
    else ptr :: register r rest

def realmName (realm : Str) : Str := if realm = [] then bytes "default" else realm

/-- With a regular expression any number of digits may be wanted. -/
def newMaxDigitLen (r : Registration) (maxDigitLen : Nat) : Nat :=
  if (newBinding r).isRegex ∧ maxDigitLen ≠ dmachineMaxDigitLen - 1 then dmachineMaxDigitLen - 1
  else if maxDigitLen < r.digits.length then r.digits.length else maxDigitLen

/-- `switch_ivr_dmachine_bind`. -/
def bind (dm : Dmachine) (realm : Str) (r : Registration) : Status × Dmachine :=
  if dmachineMaxDigitLen - 1 < r.digits.length then (.false_, dm)
  else
    let name := realmName realm
    let headp := (dm.bindingHash name).getD ⟨[], none⟩
    let dm := { dm with
      bindingHash := Function.update dm.bindingHash name
        (some { headp with bindingList := register r headp.bindingList }) }
    if headp.bindingList.any (Binding.isFor r.digits) then (.success, dm)
    else (.success, { dm with realm := some name, maxDigitLen := newMaxDigitLen r dm.maxDigitLen })

/-! ## Looking for a match -/

/-- `strncmp(digits, bp->digits, strlen(digits)) == 0` -/
def Binding.begins (digits : Str) (bp : Binding) : Bool := digits.isPrefixOf bp.digits

/-- The bindings that the digits begin or are, and the regular expressions. -/
structure Counts where
  pmatches : Nat
  ematches : Nat
  rmatches : Nat
deriving DecidableEq, Repr

/-- A regular expression is tried on the digits. -/
def Binding.tried (rx : Regex) (digits : Str) (bp : Binding) : Binding :=
  match bp.repl with
  | some repl =>
    { bp with
      substituted := rx.substitute digits bp.digits repl
      rmatch := (rx.substitute digits bp.digits repl).isSome }
  | none => { bp with rmatch := rx.fits digits bp.digits }

/-- The first loop. It ends at a regular expression that is taken at once. -/
def countLoop (rx : Regex) (digits : Str)
    (curDigitLen : Nat) : List Binding → Counts → List Binding × Counts
  | [], counts => ([], counts)
  | bp :: rest, counts =>
    if bp.isRegex then
      let counts := { counts with rmatches := counts.rmatches + 1, pmatches := counts.pmatches + 1 }
      if (bp.tried rx digits).rmatch && bp.firstMatch then (bp.tried rx digits :: rest, counts)
      else ((countLoop rx digits curDigitLen rest counts).map (bp.tried rx digits :: ·) id)
    else
      let counts :=
        if bp.begins digits then
          { counts with
            pmatches := counts.pmatches + 1
            ematches := if curDigitLen = bp.digits.length then counts.ematches + 1
              else counts.ematches }
        else counts
      (countLoop rx digits curDigitLen rest counts).map (bp :: ·) id

/-- The digits are cut at the last of the first terminator that they have. -/
def cutTerminated (digits : Str) : Str → Option Str
  | [] => none
  | p :: terminators =>
    if p ∈ digits then some (digits.take (digits.length - 1 - digits.reverse.idxOf p)) else
      cutTerminated digits terminators

/-- The bindings that the second loop has come to. -/
structure Candidates where
  best : DmMatch
  exactBp : Option Binding
  partialBp : Option Binding
  bothBp : Option Binding
deriving DecidableEq, Repr

/-- What the second loop reads. -/
structure Dialled where
  digits : Str
  curDigitLen : Nat
  maxDigitLen : Nat
  isTimeout : Bool
  counts : Counts
  only : Bool
deriving DecidableEq, Repr

/-- The text is that of the digits, and nothing is in the way of taking it. -/
def Dialled.isExact (d : Dialled) (c : Candidates) (bp : Binding) : Bool :=
  c.exactBp.isNone && bp.begins d.digits &&
    (bp.firstMatch || d.counts.rmatches == 0 || bp.isPriority || d.isTimeout) &&
    bp.digits == d.digits

def Candidates.takeExact (c : Candidates) (bp : Binding) : Candidates :=
  { c with best := .matchExact, exactBp := some bp }

/-- A text that goes on behind the digits. -/
def Dialled.withLonger (d : Dialled) (c : Candidates) (bp : Binding) : Candidates :=
  if !(c.bothBp.isSome && c.partialBp.isSome) && bp.digits.length != d.digits.length &&
    bp.begins d.digits then
    if c.exactBp.isSome then { c with best := .matchBoth, bothBp := some bp }
    else { c with best := .matchPartial, partialBp := some bp }
  else c

def Candidates.full (c : Candidates) : Bool := c.bothBp.isSome && c.exactBp.isSome && c.partialBp.isSome

/-- The second loop. -/
def compareLoop (d : Dialled) : List Binding → Candidates → Candidates
  | [], c => c
  | bp :: rest, c =>
    if bp.isRegex then
      if bp.rmatch then
        if bp.firstMatch || (bp.isPriority && d.counts.ematches == 0) || d.isTimeout || d.only then
          c.takeExact bp
        else compareLoop d rest { c with best := .matchPartial }
      else compareLoop d rest c
    else if d.isExact c bp then
      if bp.firstMatch || bp.isPriority || d.curDigitLen == d.maxDigitLen then c.takeExact bp
      else if (d.withLonger (c.takeExact bp) bp).full then d.withLonger (c.takeExact bp) bp
      else compareLoop d rest (d.withLonger (c.takeExact bp) bp)
    else if (d.withLonger c bp).full then d.withLonger c bp
    else compareLoop d rest (d.withLonger c bp)

/-- The binding that is meant in the end. -/
def Candidates.result (c : Candidates) (isTimeout : Bool) : Option Binding :=
  if c.best = .matchExact ∧ c.exactBp.isSome then c.exactBp
  else if isTimeout ∧ c.bothBp.isSome then (if c.exactBp.isSome then c.exactBp else c.bothBp)
  else none

def setString (s : Str) : Str := s.take (dmachineMaxDigitLen - 1)

/-- The part behind `end`. -/
def settle (dm : Dmachine) (c : Candidates) (isTimeout : Bool) : DmMatch × Dmachine :=
  match c.result isTimeout with
  | some bp =>
    (.matchExact, { dm with
      lastMatchingBinding := some bp
      lastMatchingDigits := setString (bp.substituted.getD dm.digits) })
  | none => (c.best, dm)

def noCandidates : Candidates := ⟨.matchNone, none, none, none⟩

/-- What the loops find among the bindings of a realm, with the digits and the timeout as the
terminators leave them. -/
def searchRealm (rx : Regex) (dm : Dmachine) (head : BindingHead)
    (isTimeout : Bool) : List Binding × Dialled × Candidates :=
  let counted := countLoop rx dm.digits dm.curDigitLen head.bindingList ⟨0, 0, 0⟩
  let cut := cutTerminated dm.digits (head.terminators.getD [])
  let d : Dialled :=
    ⟨cut.getD dm.digits, dm.curDigitLen, dm.maxDigitLen, isTimeout || cut.isSome, counted.2,
      decide (counted.1.length = 1)⟩
  let c := compareLoop d counted.1 noCandidates
  (counted.1, d, if counted.2.pmatches = 0 then { c with best := .matchNever } else c)

/-- `switch_ivr_dmachine_check_match`. -/
def checkMatch (rx : Regex) (dm : Dmachine) (isTimeout : Bool) : DmMatch × Dmachine :=
  match dm.realm.bind fun name => (dm.bindingHash name).map fun head => (name, head) with
  | none => settle dm noCandidates isTimeout
  | some (name, head) =>
    if dm.curDigitLen = 0 then settle dm noCandidates isTimeout
    else
      let found := searchRealm rx dm head isTimeout
      settle { dm with
        digits := found.2.1.digits
        bindingHash := Function.update dm.bindingHash name (some { head with bindingList := found.1 }) }
          found.2.2 found.2.1.isTimeout

def timeoutMs (dm : Dmachine) : UInt32 :=
  if dm.curDigitLen = 0 then dm.inputTimeoutMs else dm.digitTimeoutMs

def startTime (dm : Dmachine) (now : Int) : Int :=
  if dm.lastDigitTime = 0 then now else dm.lastDigitTime

def expired (dm : Dmachine) (now : Int) : Bool :=
  timeoutMs dm != 0 && decide
    (((timeoutMs dm).toNat : Int) < Int.emod (Int.tdiv (now - startTime dm now) 1000) (2 ^ 32))

/-- `switch_ivr_dmachine_check_timeout`: the first check starts the clock. -/
def checkTimeout (dm : Dmachine) (now : Int) : Bool × Dmachine :=
  (expired dm now, { dm with lastDigitTime := startTime dm now })

/-! ## The mutex -/

/-- A nested mutex: `some (t, n)` is held by the thread `t`, `n + 1` times. -/
abbrev Mutex (θ : Type) := Option (θ × Nat)

namespace Mutex

variable {θ : Type} [DecidableEq θ]

/-- Taking it, for a thread that may have to wait for another one. -/
def lock (t : θ) : Mutex θ → Option (Mutex θ)
  | none => some (some (t, 0))
  | some (owner, n) => if owner = t then some (some (t, n + 1)) else none

def unlock : Mutex θ → Mutex θ
  | none => none
  | some (_, 0) => none
  | some (t, n + 1) => some (t, n)

/-- How often a thread holds it. -/
def held (t : θ) : Mutex θ → Nat
  | none => 0
  | some (owner, n) => if owner = t then n + 1 else 0

end Mutex

/-! ## Calls

A call comes with the times at which it looks at the clock and with the calls that its callbacks
make. -/

mutual

inductive Call where
  | ping (now : Int) (does : Reactions)
  | feed (keys : Keys)

/-- The digits of a `feed`, each with the time at which it is stored and with the `ping` behind it. -/
inductive Keys where
  | nil
  | cons (digit : UInt8) (stamp now : Int) (does : Reactions) (rest : Keys)

/-- What the callbacks do, and what they return. -/
inductive Reactions where
  | mk (bound : Calls) (boundStatus : Status) (matched : Calls) (matchedStatus : Status)
      (failed : Calls)
      (failedStatus : Status)

inductive Calls where
  | nil
  | cons (call : Call) (rest : Calls)

end

/-! ## Ping and feed -/

/-- What is reported: `match.type`, with the digits and the data of the match. -/
inductive Report where
  | positive (key : Int) (userData : Nat) (digits : Str)
  | negative (digits : Str)
deriving DecidableEq, Repr

/-- The machine and its mutex. To speak about a run, the reports so far are kept, and the calls that
callbacks made, with the machine as they found it. -/
structure State (θ : Type) where
  dm : Dmachine
  mutex : Mutex θ
  reports : List Report
  nested : List (Call × Dmachine)

/-- A call begins. It is one of a callback if a `ping` is at work. -/
def State.enter {θ : Type} (s : State θ) (call : Call) : State θ :=
  if s.dm.pinging then { s with nested := s.nested ++ [(call, s.dm)] } else s

/-- The callback of a binding and the two of the machine. -/
inductive Callback where
  | bound
  | matched
  | failed
deriving DecidableEq, Repr

/-- `switch_ivr_dmachine_clear`. -/
def clear (dm : Dmachine) : Dmachine := { dm with digits := [], curDigitLen := 0, lastDigitTime := 0 }

/-- The result after a callback. -/
def answered (r : Status) : Status → Status
  | .continue_ => .success
  | .success => r
  | _ => .break_

/-- What `ping` decides before it runs a callback. -/
def verdict (dm : Dmachine) (isMatch : DmMatch) (isTimeout : Bool) : Status :=
  if dm.digits = [] ∧ isTimeout = false then .success
  else if dm.maxDigitLen < dm.curDigitLen then .false_
  else if isMatch = .matchExact ∨ (isMatch = .matchBoth ∧ isTimeout = true) then .found
  else if isTimeout then .timeout
  else if isMatch = .matchNone ∧ dm.curDigitLen = dm.maxDigitLen then .notfound
  else .success

section

variable {θ : Type} [DecidableEq θ] (rx : Regex) (t : θ)

/-- A callback runs, if there is one. It gives nothing if it never returns. -/
def runCallback (reacts : Callback → State θ → Option (Status × State θ)) (which : Callback)
    (callback : Option Nat) (r : Status) (s : State θ) : Option (Status × State θ) :=
  if callback.isSome then (reacts which s).map fun out => (answered r out.1, out.2) else some (r, s)

/-- The branch of a match. -/
def reportMatch (reacts : Callback → State θ → Option (Status × State θ))
    (s : State θ) : Option (Status × State θ) := do
  let bp ← s.dm.lastMatchingBinding
  let (r, s) ← runCallback reacts .bound bp.callback .found
    { s with reports := s.reports ++ [.positive bp.key bp.userData s.dm.lastMatchingDigits] }
  runCallback reacts .matched s.dm.matchCallback r s

/-- The branch of a failure. -/
def reportFailure (reacts : Callback → State θ → Option (Status × State θ)) (r : Status) (s : State θ) :
    Option (Status × State θ) :=
  runCallback reacts .failed s.dm.nonmatchCallback r
    { s with
      dm := { s.dm with lastFailedDigits := setString s.dm.digits }
      reports := s.reports ++ [.negative (setString s.dm.digits)] }

/-- What `ping` does once it has the mutex and no other `ping` is at work. -/
def respond (reacts : Callback → State θ → Option (Status × State θ)) (r : Status)
    (s : State θ) : Option (Status × State θ) :=
  if r = .found then (reportMatch reacts s).map fun out => (out.1, { out.2 with dm := clear out.2.dm })
  else if r = .success then some (r, s)
  else (reportFailure reacts r s).map fun out => (out.1, { out.2 with dm := clear out.2.dm })

/-- What every return of `ping` does, apart from the early ones. -/
def finish (out : Status × State θ) : Status × State θ :=
  (out.1, { out.2 with
    dm := { out.2.dm with lastReturn := out.1, pinging := false }
    mutex := out.2.mutex.unlock })

/-- The timeout and the match of a `ping`, and the machine after these tests. -/
structure Examined where
  isTimeout : Bool
  isMatch : DmMatch
  dm : Dmachine

def examine (dm : Dmachine) (now : Int) : Examined :=
  let checked := checkMatch rx (checkTimeout dm now).2 (checkTimeout dm now).1
  ⟨(checkTimeout dm now).1 || decide (checked.1 = .matchNever), checked.1, checked.2⟩

/-- `ping` after its tests. -/
def pingExamined (reacts : Callback → State θ → Option (Status × State θ)) (e : Examined)
    (s : State θ) :
    Option (Status × State θ) :=
  match s.mutex.lock t with
  | none => some (.success, { s with dm := e.dm })
  | some mutex =>
    if e.dm.pinging then some (.break_, { s with dm := e.dm, mutex })
    else (respond reacts (verdict e.dm e.isMatch e.isTimeout)
      { s with dm := { e.dm with pinging := true }, mutex }).map finish

/-- `reacts` is what the callbacks do. -/
def ping (reacts : Callback → State θ → Option (Status × State θ)) (now : Int)
    (s : State θ) : Option (Status × State θ) :=
  pingExamined t reacts (examine rx s.dm now) s

/-- A digit is put behind the others. -/
def collect (dm : Dmachine) (digit : UInt8) (stamp : Int) : Dmachine :=
  { dm with digits := dm.digits ++ [digit], curDigitLen := dm.curDigitLen + 1, lastDigitTime := stamp }

/-- One digit of a `feed`, which takes the mutex and gives it back before it calls `ping`. -/
def feedDigit (pings : State θ → Option (Status × State θ)) (digit : UInt8) (stamp : Int)
    (status : Status) (s : State θ) :
    Option (Status × State θ) :=
  match s.mutex.lock t with
  | none => none
  | some mutex =>
    if s.dm.curDigitLen < s.dm.maxDigitLen then
      let s := { s with dm := collect s.dm digit stamp, mutex := mutex.unlock }
      if status = .success then pings s else some (status, s)
    else some (.false_, { s with mutex := mutex.unlock })

end

/-! ## Whole calls -/

/-- The status that `feed` starts with. -/
def Keys.status : Keys → Status
  | .nil => .break_
  | .cons .. => .success

section

variable {θ : Type} [DecidableEq θ] (rx : Regex) (t : θ)

mutual

/-- A call by the thread `t`. It gives nothing if it never returns. -/
def Call.run : Call → State θ → Option (Status × State θ)
  | .ping now does => fun s => Ivr.ping rx t does.run now (s.enter (.ping now does))
  | .feed keys => fun s => keys.run keys.status (s.enter (.feed keys))

def Keys.run : Keys → Status → State θ → Option (Status × State θ)
  | .nil => fun status s => some (status, s)
  | .cons digit stamp now does rest => fun status s =>
    (feedDigit t (Ivr.ping rx t does.run now) digit stamp status s).bind fun out => rest.run out.1 out.2

def Reactions.run : Reactions → Callback → State θ → Option (Status × State θ)
  | .mk bound boundStatus matched matchedStatus failed failedStatus => fun
    | .bound => fun s => (bound.run s).map fun s => (boundStatus, s)
    | .matched => fun s => (matched.run s).map fun s => (matchedStatus, s)
    | .failed => fun s => (failed.run s).map fun s => (failedStatus, s)

def Calls.run : Calls → State θ → Option (State θ)
  | .nil => fun s => some s
  | .cons call rest => fun s => (call.run s).bind fun out => rest.run out.2

end

end

end FreeSwitch.Ivr
