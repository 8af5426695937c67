import FreeSwitch.Utils

/-!
# The interpreter of extensions — `src/mod/dialplans/mod_dialplan_xml/mod_dialplan_xml.c`

`parse_exten` goes through the `condition` elements of an extension. Each is tested, its `action`s or
its `anti-action`s are added to the caller's extension, and its `break` attribute tells whether the next
one is looked at. What the dialplan takes from elsewhere is in `Core`: the time check, the expansion of
variables, the caller's profile, PCRE and the variables of the channel.

* **`switchPerformSubstitution`** — the references `$1` and `${1}` in the data of an action.
* **`examine`**, **`examineRegexes`** — the test of a condition, by its own expression or by those of
  its `regex` elements.
* **`perform`** — the actions.
* **`parseConditions`** — the loop over the conditions, nested ones included.
-/

namespace FreeSwitch.Dialplan

open CString

/-! ## Elements -/

/-- An `action` or `anti-action` tag. -/
structure Action where
  application : Str
  loop : Option Str
  inline_ : Str
  txt : Str
  data : Str
  deriving DecidableEq

/-- What a `condition` and a `regex` element have in common. `times` are the date and time
attributes. -/
structure Test where
  times : List (Str × Str)
  field : Option Str
  expressionChild : Option Str
  expressionAttr : Str
  deriving DecidableEq

/-- A `condition` tag. -/
structure Condition where
  test : Test
  breakAttr : Option Str
  regex : Option Str
  requireNested : Option Str
  regexes : List Test
  actions : List Action
  antiActions : List Action
  conditions : List Condition

/-- The attribute `break`. -/
inductive Break where
  | onTrue | onFalse | always | never
  deriving DecidableEq

def Test.expression (t : Test) : Str := t.expressionChild.getD t.expressionAttr

def Condition.doBreak (c : Condition) : Break :=
  match c.breakAttr with
  | some a =>
    if ciEq a (bytes "on-true") then .onTrue
    else if ciEq a (bytes "on-false") then .onFalse
    else if ciEq a (bytes "always") then .always
    else if ciEq a (bytes "never") then .never
    else .onFalse
  | none => .onFalse

/-- Whether the loop over the conditions ends here. -/
def Break.fires : Break → Bool → Bool
  | .onTrue, antiAction => !antiAction
  | .onFalse, antiAction => antiAction
  | .always, _ => true
  | .never, _ => false

def Action.text (a : Action) : Str := if a.txt = [] then a.data else a.txt

/-- The attribute `loop`, 1 if there is none. -/
def Action.loopCount (a : Action) : Nat :=
  match a.loop with
  | some loop => (atoi loop).toNat
  | none => 1

/-! ## The surroundings -/

/-- What a pattern took from a text: all of it, and the groups up to the last one that is set. -/
structure Match where
  whole : Str
  groups : List Str

/-- `σ` is the state of the channel. `stdDatetimeCheck` is `none` for `-1`. `expandVariables` is `none`
where the text comes back as it is. `outside` is the memory around the data of an action. -/
structure Core (σ : Type) where
  stdDatetimeCheck : σ → List (Str × Str) → Option Bool
  stdDatetimeCheck_nil : ∀ channel, stdDatetimeCheck channel [] = none
  expandVariables : σ → Str → Option Str
  callerField : σ → Str → Option Str
  ast2regex : Str → Option Str
  pcreExec : Bool → Bool → Str → Str → Option Match
  setVariable : σ → Str → Option Str → σ
  addVariable : σ → Str → Str → σ
  delVariablePrefix : σ → Str → σ
  execApp : σ → Str → Str → σ
  outside : Nat → UInt8

/-! ## `src/switch_regex.c` -/

/-- An expression as it goes to `pcre_compile`: caseless, dot for all, pattern. It may stand between
slashes, with the options behind the last one. -/
def pattern {σ : Type} (core : Core σ) (expression : Str) : Option (Bool × Bool × Str) :=
  let expression := match expression with
    | 95 :: rest => (core.ast2regex rest).getD expression
    | _ => expression
  match expression with
  | 47 :: tmp =>
    if 47 ∈ tmp then
      let opts := (tmp.reverse.takeWhile (· != 47)).reverse
      some (decide (105 ∈ opts), decide (115 ∈ opts), tmp.take (tmp.length - opts.length - 1))
    else none
  | _ => some (false, false, expression)

def matchOf {σ : Type} (core : Core σ) (field expression : Str) : Option Match :=
  (pattern core expression).bind fun (caseless, dotall, p) => core.pcreExec caseless dotall p field

/-- The vector of a condition has thirty numbers, so PCRE can give ten texts. It returns `0` where there
are more, and that counts as no match. -/
def Match.fits (m : Match) : Bool := m.groups.length < 10

/-- The texts of a match, `[]` where there is none. Their number is what `switch_regex_perform`
returns. -/
def switchRegexPerform {σ : Type} (core : Core σ) (field expression : Str) : List Str :=
  match matchOf core field expression with
  | some m => if m.fits then m.whole :: m.groups else []
  | none => []

section Substitution

variable (outside : Nat → UInt8) (groups : List Str) (data : Str)

def byteAt (i : Nat) : UInt8 := if i ≤ data.length then data.getD i 0 else outside i

/-- The digits that are read at `x`, when `z` are in `index` already. -/
def indexDigits (x z : Nat) : Str := ((data.drop x).takeWhile isDigit).take (9 - z)

/-- A difference of two `switch_size_t`. -/
def sizeSub (a b : Nat) : Nat := (a + 2 ^ 64 - b) % 2 ^ 64

structure Cursor where
  x : Nat
  index : Str
  out : Str

/-- One turn of the loop of `switch_perform_substitution`. The digits in `index` are those of references
that had no closing brace: they stay there, and go before those of the next one. -/
def substituteStep (limit : Nat) (k : Cursor) : Cursor :=
  if data.getD k.x 0 = 36 then
    let brace := decide (data.getD (k.x + 1) 0 = 123)
    let start := if brace then k.x + 2 else k.x + 1
    if isDigit (data.getD start 0) then
      let digits := indexDigits data start k.index.length
      let stop := start + digits.length
      let index := k.index ++ digits
      if brace ∧ data.getD stop 0 ≠ 125 then
        let back := sizeSub stop (index.length - 1)
        ⟨back, index, k.out ++ [byteAt outside data (sizeSub back 1)]⟩
      else
        let num := atoi index
        let replace := if 0 ≤ num ∧ num ≤ 256 then groups.getD num.toNat [] else []
        ⟨if brace then stop + 1 else stop, [], k.out ++ replace.take (limit - k.out.length)⟩
    else ⟨k.x + 1, k.index, k.out ++ [36]⟩
  else ⟨k.x + 1, k.index, k.out ++ [data.getD k.x 0]⟩

/-- A turn writes, or moves on in the data. -/
theorem substituteStep_advances {limit : Nat} {k : Cursor} (hlimit : k.out.length < limit) :
    k.out.length < (substituteStep outside groups data limit k).out.length ∨
      (substituteStep outside groups data limit k).out.length = k.out.length ∧
        k.x < (substituteStep outside groups data limit k).x := by
  have hwrites : ∀ c : UInt8, k.out.length < (k.out ++ [c]).length := fun c => by simp
  fun_cases substituteStep outside groups data limit k with
  | case1 => exact .inl (hwrites _)
  | case2 _ brace start _ digits stop index _ num replace =>
    show k.out.length < (k.out ++ replace.take (limit - k.out.length)).length ∨
      (k.out ++ replace.take (limit - k.out.length)).length = k.out.length ∧
        k.x < if brace then stop + 1 else stop
    have hstart : k.x < start := by
      show k.x < if brace then k.x + 2 else k.x + 1
      split <;> omega
    have hstop : start ≤ stop := Nat.le_add_right _ _
    rw [List.length_append, List.length_take]
    split <;> omega
  | case3 => exact .inl (hwrites _)
  | case4 => exact .inl (hwrites _)

def substituteFrom (limit : Nat) (k : Cursor) : Str :=
  if k.out.length < limit ∧ k.x < data.length then
    substituteFrom limit (substituteStep outside groups data limit k)
  else k.out
termination_by (limit - k.out.length, data.length - k.x)
decreasing_by
  rename_i h
  rw [Prod.lex_def]
  have hstep := substituteStep_advances outside groups data h.1
  omega

/-- `len - 1` is a `switch_size_t`: it is no bound where `len` is `0`. -/
def switchPerformSubstitution (len : Nat) : Str :=
  substituteFrom outside groups data (sizeSub len 1) ⟨0, [], []⟩

end Substitution

/-! ## The channel and the extension -/

/-- `switch_caller_extension_t`. -/
structure Extension where
  name : Str
  applications : List (Str × Str)
  deriving DecidableEq

/-- `buffers` is for the statements only: for each buffer of a substitution, the number of texts that
were matched and the length. -/
structure State (σ : Type) where
  channel : σ
  extension : Option Extension
  buffers : List (Nat × Nat)

section Perform

variable {σ : Type} (core : Core σ)

/-- `switch_caller_extension_add_application` takes no data with a backslash before a quote. -/
def addApplication (e : Extension) (application data : Str) : Extension :=
  if (strstr [92, 39] data).isSome then e
  else { e with applications := e.applications ++ [(application, data)] }

def State.opened (extenName : Str) (st : State σ) : Extension := st.extension.getD ⟨extenName, []⟩

/-- One turn of the loop of an action, with its extension there already. -/
def once (a : Action) (data : Str) (e : Extension) (st : State σ) : State σ :=
  if switchTrue (some a.inline_) then
    { st with channel := core.execApp st.channel a.application data, extension := some e }
  else { st with extension := some (addApplication e a.application data) }

def repeated (extenName : Str) (a : Action) (data : Str) : Nat → State σ → State σ
  | 0, st => st
  | n + 1, st => repeated extenName a data n (once core a data (st.opened extenName) st)

/-- An action with its data, as often as it is repeated. -/
def performAction (extenName : Str) (a : Action) (data : Str) (st : State σ) : State σ :=
  repeated core extenName a data a.loopCount { st with extension := some (st.opened extenName) }

/-! ## The test of a condition -/

/-- What a local variable of `parse_exten` points to. -/
inductive Pointer where
  | null
  | freed
  | text (s : Str)

def Pointer.read : Pointer → Option Str
  | text s => some s
  | _ => none

/-- The local variables when a condition has been tested. -/
structure Verdict where
  antiAction : Bool
  proceed : Nat
  field : Option Str
  expression : Pointer
  fieldData : Pointer
  groups : List Str

/-- The data of a field, and whether it was made for this condition. -/
def fieldData (channel : σ) (field : Str) : Str × Bool :=
  if 36 ∈ field then
    match core.expandVariables channel field with
    | some s => (s, true)
    | none => (field, false)
  else ((core.callerField channel field).getD [], false)

/-- An expression with its variables expanded, and whether it was made for this condition. -/
def expanded (channel : σ) (expression : Str) : Str × Bool :=
  match core.expandVariables channel expression with
  | some s => (s, true)
  | none => (expression, false)

/-- A condition without a `regex` attribute. The time check comes first: what it finds stays where the
expression does not match. -/
def examine (t : Test) (proceed : Nat) (channel : σ) : Verdict :=
  let timeMatch := core.stdDatetimeCheck channel t.times
  let antiAction := decide (timeMatch ≠ some true)
  let proceed := match timeMatch with
    | some true => 1
    | some false => 0
    | none => proceed
  let expression := (expanded core channel t.expression).1
  match t.field with
  | some field =>
    let data := (fieldData core channel field).1
    let groups := switchRegexPerform core data expression
    { antiAction := antiAction && groups.isEmpty, proceed := groups.length, field := some field,
      expression := .text expression, fieldData := .text data, groups := groups }
  | none =>
    if timeMatch = none then
      { antiAction := false, proceed := 1, field := none, expression := .text expression,
        fieldData := .null,
        groups := [] }
    else
      { antiAction, proceed, field := none, expression := .text expression, fieldData := .null,
        groups := [] }

/-- `switch_capture_regex` with `switch_regex_set_var_callback`. -/
def captureRegex (groups : List Str) (var : Str) (channel : σ) : σ :=
  groups.foldl (fun channel value => core.addVariable channel var value)
    (core.setVariable channel var none)

/-- `save_re`, `save_expression`, `save_field_data` and `save_proceed`. They count where `save_re` is
set, and an expression that did not match leaves none. -/
structure Saved where
  expression : Str
  fieldData : Str
  groups : List Str

/-- The local variables of the loop over the `regex` elements. -/
structure Tally (σ : Type) where
  channel : σ
  pass : Nat
  fail : Nat
  total : Nat
  proceed : Nat
  field : Option Str
  expression : Pointer
  fieldData : Pointer
  groups : List Str
  saved : Option Saved

/-- A text that was made for a `regex` element is freed when the loop goes on. -/
def kept (text : Str × Bool) : Pointer := if text.2 then .freed else .text text.1

/-- One turn of the loop over the `regex` elements, and whether it goes on. -/
def examineRegex (all xor : Bool) (t : Test) (k : Tally σ) : Tally σ × Bool :=
  let timeMatch := core.stdDatetimeCheck k.channel t.times
  let expression := expanded core k.channel t.expression
  let k := { k with total := k.total + 1, field := t.field, expression := kept expression }
  match t.field with
  | some field =>
    let data := fieldData core k.channel field
    let groups := switchRegexPerform core data.1 expression.1
    let k := { k with proceed := groups.length, fieldData := kept data, groups := groups }
    let k := if groups.isEmpty then { k with fail := k.fail + 1 } else { k with pass := k.pass + 1 }
    if (!groups.isEmpty && !all && !xor) || (groups.isEmpty && all && !xor) then (k, false)
    else if 40 ∈ expression.1 then
      ({ k with
          channel := captureRegex core groups (bytes "DP_REGEX_MATCH_" ++ printNat k.total) k.channel
          saved := if groups.isEmpty then none else some ⟨expression.1, data.1, groups⟩ }, true)
    else (k, true)
  | none =>
    if timeMatch = some false then ({ k with fail := k.fail + 1 }, !all)
    else ({ k with pass := k.pass + 1, proceed := 1 }, all || xor)

def examineRegexLoop (all xor : Bool) : List Test → Tally σ → Tally σ
  | [], k => k
  | t :: ts, k =>
    if (examineRegex core all xor t k).2 then
      examineRegexLoop all xor ts (examineRegex core all xor t k).1
    else (examineRegex core all xor t k).1

/-- A condition with the `regex` attribute `rule`. -/
def examineRegexes (rule : Str) (c : Condition) (proceed : Nat) (channel : σ) : Verdict × σ :=
  let timeMatch := core.stdDatetimeCheck channel c.test.times
  let all := decide (ciEq rule (bytes "all"))
  let xor := decide (ciEq rule (bytes "xor"))
  let k := examineRegexLoop core all xor c.regexes
    { channel := core.delVariablePrefix channel (bytes "DP_REGEX_MATCH"), pass := 0,
      fail := 0, total := 0,
      proceed := match timeMatch with
        | some true => 1
        | some false => 0
        | none => proceed
      field := c.test.field, expression := .null, fieldData := .null, groups := [], saved := none }
  let passes := if xor then k.pass == 1 else if all then k.fail == 0 else k.pass != 0
  let antiAction := decide (timeMatch ≠ some true) && !passes
  match k.saved with
  | some s =>
    ({ antiAction, proceed := s.groups.length, field := some s.fieldData,
       expression := .text s.expression, fieldData := .text s.fieldData, groups := s.groups },
     k.channel)
  | none =>
    ({ antiAction, proceed := k.proceed, field := k.field, expression := k.expression,
       fieldData := k.fieldData, groups := k.groups }, k.channel)

/-! ## The actions -/

/-- `field && strchr(expression, '(')`, `none` where the expression is no longer there. -/
def Verdict.substitutes (v : Verdict) : Option Bool :=
  match v.field with
  | some _ => v.expression.read.map fun expression => decide (40 ∈ expression)
  | none => some false

/-- The size of the buffer for a substitution, in 32 bits. -/
def bufferLength (data fieldData : Str) (proceed : Nat) : Nat :=
  ((data.length + fieldData.length + 10) % 2 ^ 32 * proceed) % 2 ^ 32

/-- One turn of the loop over the `action`s. -/
def act (extenName : Str) (v : Verdict) (st : State σ) (a : Action) : Option (State σ) :=
  v.substitutes.bind fun
    | true => v.fieldData.read.map fun fieldData =>
        let len := bufferLength a.text fieldData v.proceed
        performAction core extenName a (switchPerformSubstitution core.outside v.groups a.text len)
          { st with buffers := st.buffers ++ [(v.proceed, len)] }
    | false => some (performAction core extenName a a.text st)

def performAntiActions (extenName : Str) (actions : List Action) (st : State σ) : State σ :=
  actions.foldl (fun st a => performAction core extenName a a.text st) st

/-- The match of the condition goes to the variable `DP_MATCH`. -/
def capture (v : Verdict) (st : State σ) : Option (State σ) :=
  v.substitutes.bind fun
    | true =>
      if v.proceed = 0 then
        some { st with channel := core.setVariable st.channel (bytes "DP_MATCH") none }
      else v.fieldData.read.map fun _ =>
        { st with channel := captureRegex core v.groups (bytes "DP_MATCH") st.channel }
    | false => some st

def perform (extenName : Str) (c : Condition) (v : Verdict) (st : State σ) : Option (Nat × State σ) :=
  if v.antiAction then
    some (if c.antiActions = [] then v.proceed else 1,
      performAntiActions core extenName c.antiActions st)
  else
    ((capture core v st).bind fun st => c.actions.foldlM (act core extenName v) st).map fun st =>
      (v.proceed, st)

/-! ## The loop -/

/-- `MAX_RECUR`. -/
def maxRecur : Nat := 100

/-- The name of the extension at a depth: a buffer of 128 bytes. -/
def recurName (extenName : Str) (recur : Nat) : Str :=
  (extenName ++ bytes "_recur_" ++ printNat recur).take 127

def test (c : Condition) (proceed : Nat) (st : State σ) : Verdict × State σ :=
  match c.regex with
  | some rule =>
    let (v, channel) := examineRegexes core rule c proceed st.channel
    (v, { st with channel })
  | none => (examine core c.test proceed st.channel, st)

mutual

/-- The loop over the conditions at one depth. `none` is a read of memory that has been freed. -/
def parseConditions (origName extenName : Str) (recur : Nat) :
    List Condition → Nat → State σ → Option (Nat × State σ)
  | [], proceed, st => some (proceed, st)
  | c :: cs, proceed, st =>
    let (v, st) := test core c proceed st
    (perform core extenName c v st).bind fun (proceed, st) =>
      if c.doBreak.fires v.antiAction then some (proceed, st)
      else if proceed = 0 then parseConditions origName extenName recur cs 0 st
      else (parseNested origName recur c proceed st).bind fun (proceed, st) =>
        if proceed = 0 ∧ c.doBreak ≠ .never then some (0, st)
        else parseConditions origName extenName recur cs proceed st

/-- The call of `parse_exten` for the conditions in a condition. -/
def parseNested (origName : Str) (recur : Nat) : Condition → Nat → State σ → Option (Nat × State σ)
  | ⟨_, _, _, requireNested, _, _, _, conditions⟩, proceed, st =>
    if conditions.isEmpty then some (proceed, st)
    else if maxRecur < recur + 1 then some (0, st)
    else
      (parseConditions origName (recurName origName (recur + 1)) (recur + 1) conditions 0 st).map
        fun (proceed, st) =>
        (if requireNested.any (fun a => !switchTrue (some a)) then 1 else proceed, st)

end

/-- `parse_exten` for an `extension` element. -/
def parseExten (name : Option Str) (extenName : Str) (conditions : List Condition) (st : State σ) :
    Option (Nat × State σ) :=
  parseConditions core extenName (name.getD extenName) 0 conditions 0 st

end Perform

end FreeSwitch.Dialplan
