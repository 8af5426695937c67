import FreeSwitch.Dialplan.ParseExten

/-!
# What a condition means

* **`conjunctive_iff`** — when the actions of a condition are taken exactly if its expression matches
  and its times do not forbid it. The time check and the match are not put together by the code: each of
  them can only take the anti-actions away.
* **`conjunctive_office_hours`** — a condition whose times agree, whose expression does not match, and
  whose actions are substituted in a buffer of no bytes.
-/

namespace FreeSwitch.Dialplan

open CString

variable {σ : Type} (core : Core σ)

/-! ## One condition -/

/-- The expression and the data of the field that a condition is tested with. -/
def Test.pattern (t : Test) (channel : σ) : Str := (expanded core channel t.expression).1

def Test.subject (t : Test) (channel : σ) : Str :=
  match t.field with
  | some field => (fieldData core channel field).1
  | none => []

def Test.found (t : Test) (channel : σ) : Option Match :=
  matchOf core (t.subject core channel) (t.pattern core channel)

/-- The texts that the expression takes from the field. -/
def Test.taken (t : Test) (channel : σ) : List Str :=
  switchRegexPerform core (t.subject core channel) (t.pattern core channel)

theorem Test.taken_eq (t : Test) (channel : σ) : t.taken core channel = match t.found core channel with
      | some m => if m.fits then m.whole :: m.groups else []
      | none => [] := rfl

theorem examine_field {t : Test} {field : Str} (hfield : t.field = some field) (proceed : Nat)
    (channel : σ) :
    examine core t proceed channel =
      { antiAction := decide (core.stdDatetimeCheck channel t.times ≠ some true) &&
        (t.taken core channel).isEmpty
        proceed := (t.taken core channel).length
        field := some field
        expression := .text (t.pattern core channel)
        fieldData := .text (t.subject core channel)
        groups := t.taken core channel } := by
  have hsubject : t.subject core channel = (fieldData core channel field).1 := by
    unfold Test.subject
    rw [hfield]
  unfold Test.taken
  rw [hsubject]
  unfold examine
  rw [hfield]
  rfl

/-- Whether the data of the actions have references. -/
def Test.substituted (t : Test) (channel : σ) : Bool :=
  t.field.isSome && decide (40 ∈ t.pattern core channel)

theorem examine_substitutes (t : Test) (proceed : Nat) (channel : σ) :
    (examine core t proceed channel).substitutes = some (t.substituted core channel) := by
  unfold Test.substituted
  cases hfield : t.field with
  | some field =>
    rw [examine_field core hfield, Option.isSome_some, Bool.true_and]
    rfl
  | none =>
    unfold examine
    rw [hfield]
    dsimp only
    split <;> rfl

/-! ## The actions of a condition -/

variable (extenName : Str)

/-- The data of an action as they go to the extension, and the buffer they are made in. -/
def Test.appData (t : Test) (channel : σ) (a : Action) : Str :=
  if t.substituted core channel then
    switchPerformSubstitution core.outside (t.taken core channel) a.text
      (bufferLength a.text (t.subject core channel) (t.taken core channel).length)
  else a.text

def Test.allocated (t : Test) (channel : σ) (a : Action) : List (Nat × Nat) :=
  if t.substituted core channel then
    [((t.taken core channel).length,
      bufferLength a.text (t.subject core channel) (t.taken core channel).length)]
  else []

def Test.captured (t : Test) (channel : σ) : σ :=
  if t.substituted core channel then
    captureRegex core (t.taken core channel) (bytes "DP_MATCH") channel else channel

def Test.run (t : Test) (channel : σ) (st : State σ) (a : Action) : State σ :=
  performAction core extenName a (t.appData core channel a)
    { st with buffers := st.buffers ++ t.allocated core channel a }

theorem act_examine (t : Test) (proceed : Nat) (channel : σ) (st : State σ) (a : Action) :
    act core extenName (examine core t proceed channel) st a =
      some (t.run core extenName channel st a) := by
  unfold act
  rw [examine_substitutes core t proceed channel]
  unfold Test.run Test.appData Test.allocated
  cases hsubstituted : t.substituted core channel with
  | false => simp
  | true =>
    -- only a condition with a field has references
    obtain ⟨field, hfield⟩ : ∃ field, t.field = some field :=
      Option.isSome_iff_exists.mp (Bool.and_eq_true_iff.mp hsubstituted).1
    rw [examine_field core hfield]
    rfl

theorem acts_examine (t : Test) (proceed : Nat) (channel : σ) (actions : List Action) (st : State σ) :
    actions.foldlM (act core extenName (examine core t proceed channel)) st =
      some (actions.foldl (t.run core extenName channel) st) := by
  induction actions generalizing st with
  | nil => rfl
  | cons a actions ih =>
    rw [List.foldlM_cons, act_examine]
    exact ih _

theorem capture_examine (t : Test) (proceed : Nat) (st : State σ) :
    capture core (examine core t proceed st.channel) st =
      some { st with channel := t.captured core st.channel } := by
  unfold capture
  rw [examine_substitutes core t proceed st.channel]
  unfold Test.captured
  cases hsubstituted : t.substituted core st.channel with
  | false => rfl
  | true =>
    obtain ⟨field, hfield⟩ : ∃ field, t.field = some field :=
      Option.isSome_iff_exists.mp (Bool.and_eq_true_iff.mp hsubstituted).1
    rw [examine_field core hfield]
    cases htaken : t.taken core st.channel with
    | nil => rfl
    | cons text texts => rfl

/-- A condition without a `regex` attribute never goes astray. -/
theorem perform_examine (c : Condition) (proceed : Nat) (st : State σ) :
    perform core extenName c (examine core c.test proceed st.channel) st =
      if (examine core c.test proceed st.channel).antiAction then
        some (if c.antiActions = [] then (examine core c.test proceed st.channel).proceed else 1,
          performAntiActions core extenName c.antiActions st)
      else some ((examine core c.test proceed st.channel).proceed,
        c.actions.foldl (c.test.run core extenName st.channel)
            { st with channel := c.test.captured core st.channel }) := by
  unfold perform
  rw [capture_examine, Option.bind_some, acts_examine]
  rfl

/-! ## The buffers of a condition -/

theorem repeated_buffers (a : Action) (data : Str) (n : Nat) (st : State σ) :
    (repeated core extenName a data n st).buffers = st.buffers := by
  induction n generalizing st with
  | zero => rfl
  | succ n ih =>
    show (repeated core extenName a data n _).buffers = _
    rw [ih]
    unfold once
    split <;> rfl

theorem performAction_buffers (a : Action) (data : Str) (st : State σ) :
    (performAction core extenName a data st).buffers = st.buffers :=
  repeated_buffers core extenName a data _ _

theorem performAntiActions_buffers (actions : List Action) (st : State σ) :
    (performAntiActions core extenName actions st).buffers = st.buffers := by
  induction actions generalizing st with
  | nil => rfl
  | cons a actions ih => exact (ih _).trans (performAction_buffers core extenName a a.text st)

theorem runs_buffers (t : Test) (channel : σ) (actions : List Action) (st : State σ) :
    (actions.foldl (t.run core extenName channel) st).buffers =
      st.buffers ++ actions.flatMap (t.allocated core channel) := by
  induction actions generalizing st with
  | nil => exact (List.append_nil _).symm
  | cons a actions ih =>
    show (actions.foldl _ (t.run core extenName channel st a)).buffers = _
    rw [ih, List.flatMap_cons, ← List.append_assoc]
    unfold Test.run
    rw [performAction_buffers]

/-! ## Time and match -/

/-- The actions are taken exactly if the expression matches and the time check does not fail, and no
buffer is made for a match of no texts, or of no bytes. -/
def Conjunctive (c : Condition) (proceed : Nat) (st : State σ) : Prop :=
  ((test core c proceed st).1.antiAction = false ↔
      (c.test.found core st.channel).isSome ∧
      core.stdDatetimeCheck st.channel c.test.times ≠ some false) ∧
    ∃ result,
      perform core extenName c (test core c proceed st).1 (test core c proceed st).2 = some result ∧
      ∀ b ∈ result.2.buffers.drop st.buffers.length, 0 < b.1 ∧ b.2 ≠ 0

/-- The time check and the match find the same. Where times agree, a match of more than ten texts counts
for one as long as no action is substituted. -/
def Agree (c : Condition) (channel : σ) : Prop :=
  match core.stdDatetimeCheck channel c.test.times, c.test.found core channel with
  | none, none => True
  | none, some m => m.fits = true
  | some true, none => False
  | some true, some m => m.fits = true ∨ (40 ∈ c.test.pattern core channel → c.actions = [])
  | some false, none => True
  | some false, some m => m.fits = false

/-- The length of no buffer is a multiple of `2 ^ 32`. -/
def Sized (c : Condition) (channel : σ) : Prop :=
  ∀ m, c.test.found core channel = some m → m.fits = true → 40 ∈ c.test.pattern core channel →
    ∀ a ∈ c.actions,
    ¬2 ^ 32 ∣ (a.text.length + (c.test.subject core channel).length + 10) * (m.groups.length + 1)

theorem bufferLength_eq_zero {data fieldData : Str} {proceed : Nat} :
    bufferLength data fieldData proceed = 0 ↔
      2 ^ 32 ∣ (data.length + fieldData.length + 10) * proceed := by
  unfold bufferLength
  rw [Nat.mod_mul_mod, Nat.dvd_iff_mod_eq_zero]

theorem test_eq {c : Condition} (hregex : c.regex = none) (proceed : Nat) (st : State σ) :
    test core c proceed st = (examine core c.test proceed st.channel, st) := by
  unfold test
  rw [hregex]

theorem Test.mem_allocated {t : Test} {channel : σ} {a : Action} {b : Nat × Nat}
    (hfield : t.field.isSome = true) :
    b ∈ t.allocated core channel a ↔ 40 ∈ t.pattern core channel ∧ b = ((t.taken core channel).length,
        bufferLength a.text (t.subject core channel) (t.taken core channel).length) := by
  unfold Test.allocated Test.substituted
  rw [hfield, Bool.true_and]
  by_cases hparen : 40 ∈ t.pattern core channel <;> simp [hparen]

/-- The buffers of a condition with a field. -/
theorem buffers_iff {c : Condition} (hregex : c.regex = none) (hfield : c.test.field.isSome = true)
    (proceed : Nat) (st : State σ) {P : Nat × Nat → Prop} :
    (∃ result,
      perform core extenName c (test core c proceed st).1 (test core c proceed st).2 = some result ∧
        ∀ b ∈ result.2.buffers.drop st.buffers.length, P b) ↔
      ((examine core c.test proceed st.channel).antiAction = false →
        40 ∈ c.test.pattern core st.channel →
        ∀ a ∈ c.actions, P ((c.test.taken core st.channel).length,
          bufferLength a.text (c.test.subject core st.channel)
            (c.test.taken core st.channel).length)) := by
  rw [test_eq core hregex, perform_examine]
  cases hanti : (examine core c.test proceed st.channel).antiAction with
  | true =>
    rw [if_pos rfl]
    refine ⟨fun _ h => absurd h (by decide), fun _ => ⟨_, rfl, fun b hb => ?_⟩⟩
    rw [performAntiActions_buffers, List.drop_length] at hb
    exact absurd hb List.not_mem_nil
  | false =>
    rw [if_neg Bool.false_ne_true]
    have hbuffers : ∀ b, b ∈ (c.actions.foldl (c.test.run core extenName st.channel)
          { st with channel := c.test.captured core st.channel }).buffers.drop st.buffers.length ↔
        ∃ a ∈ c.actions, b ∈ c.test.allocated core st.channel a := fun b => by
      rw [runs_buffers, List.drop_left, List.mem_flatMap]
    constructor
    · rintro ⟨_, hresult, hall⟩ _ hparen a ha
      obtain rfl := Option.some.inj hresult
      exact hall _ ((hbuffers _).mpr ⟨a, ha, (Test.mem_allocated core hfield).mpr ⟨hparen, rfl⟩⟩)
    · intro hall
      refine ⟨_, rfl, fun b hb => ?_⟩
      obtain ⟨a, ha, hb⟩ := (hbuffers b).mp hb
      obtain ⟨hparen, rfl⟩ := (Test.mem_allocated core hfield).mp hb
      exact hall rfl hparen a ha

/-- The time check and the match are read one by one, and each of them can give the actions. So they are
taken where times agree and nothing matches, and where times forbid it and the expression matches. -/
theorem conjunctive_iff {c : Condition} (hregex : c.regex = none) (hfield : c.test.field.isSome = true)
    (proceed : Nat) (st : State σ) :
    Conjunctive core extenName c proceed st ↔ Agree core c st.channel ∧ Sized core c st.channel := by
  obtain ⟨field, hfield'⟩ := Option.isSome_iff_exists.mp hfield
  unfold Conjunctive
  rw [buffers_iff core extenName hregex hfield, test_eq core hregex, examine_field core hfield']
  unfold Agree Sized
  have htaken := c.test.taken_eq core st.channel
  cases hfound : c.test.found core st.channel with
  | none =>
    rw [hfound] at htaken
    rw [htaken]
    cases core.stdDatetimeCheck st.channel c.test.times with
    | none => simp
    | some b => cases b <;> simp
  | some m =>
    rw [hfound] at htaken
    rw [htaken]
    cases hfits : m.fits with
    | false =>
      cases core.stdDatetimeCheck st.channel c.test.times with
      | none => simp [hfits]
      | some b => cases b <;> simp [hfits, List.eq_nil_iff_forall_not_mem]
    | true =>
      cases core.stdDatetimeCheck st.channel c.test.times with
      | none => simp [hfits, bufferLength_eq_zero]
      | some b => cases b <;> simp [hfits, bufferLength_eq_zero]

/-- A channel without variables, at a time when the time checks agree, where no expression matches. -/
def idle : Core Unit where
  stdDatetimeCheck _ times := if times = [] then none else some true
  stdDatetimeCheck_nil _ := rfl
  expandVariables _ _ := none
  callerField _ _ := some (bytes "1000")
  ast2regex _ := none
  pcreExec _ _ _ _ := none
  setVariable _ _ _ := ()
  addVariable _ _ _ := ()
  delVariablePrefix _ _ := ()
  execApp _ _ _ := ()
  outside _ := 0

def bridge : Action where
  application := bytes "bridge"
  loop := none
  inline_ := []
  txt := []
  data := bytes "user/$1"

/-- `<condition hour="9-17" field="destination_number" expression="^(2...)$">` with one action. -/
def officeHours : Condition where
  test :=
    { times := [(bytes "hour", bytes "9-17")], field := some (bytes "destination_number"),
      expressionChild := none
      expressionAttr := bytes "^(2...)$" }
  breakAttr := none
  regex := none
  requireNested := none
  regexes := []
  actions := [bridge]
  antiActions := []
  conditions := []

/-- A call to 1000 in office hours: nothing matches, and the action is substituted in a buffer of no
bytes. -/
theorem conjunctive_office_hours :
    ¬Conjunctive idle [] officeHours 0 ⟨(), none, []⟩ ∧
      (perform idle [] officeHours (examine idle officeHours.test 0 ()) ⟨(), none, []⟩).map
        (·.2.buffers) =
        some [(0, 0)] :=
  ⟨fun h => absurd (h.1.mp rfl).1 (by decide), rfl⟩

/-- A channel where every expression matches the number 2000, with one group. -/
def calling : Core Unit :=
  { idle with pcreExec := fun _ _ _ _ => some ⟨bytes "2000", [bytes "2000"]⟩ }

/-- A call to 2000 in office hours. -/
theorem conjunctive_calling : Conjunctive calling [] officeHours 0 ⟨(), none, []⟩ := by
  refine (conjunctive_iff calling [] rfl rfl 0 ⟨(), none, []⟩).mpr ⟨.inl rfl, fun m hm _ _ a ha => ?_⟩
  obtain rfl := Option.some.inj hm
  obtain rfl := List.mem_singleton.mp ha
  decide

end FreeSwitch.Dialplan
