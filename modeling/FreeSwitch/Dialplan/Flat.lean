import FreeSwitch.Dialplan.Conditions

/-!
# The meaning of a flat extension

An extension is flat when its conditions have no conditions, times and `regex` attributes, and when none
of its actions runs inline. It then stands for a list of applications, which is said here without the
loop.

* **`examined`** — the conditions up to the first one whose `break` fires.
* **`contributed`** — what one of them adds.
* **`parseExten_flat`** — `parse_exten` adds that, and returns what the last of them found.
* **`parseExten_quoted`** — an action that is not added.
-/

namespace FreeSwitch.Dialplan

open CString

structure Condition.Flat (c : Condition) : Prop where
  times : c.test.times = []
  regex : c.regex = none
  conditions : c.conditions = []
  inlined : ∀ a ∈ c.actions ++ c.antiActions, switchTrue (some a.inline_) = false

variable {σ : Type} (core : Core σ)

/-! ## The meaning -/

/-- A condition without a field passes always. -/
def Condition.passes (c : Condition) (channel : σ) : Bool :=
  c.test.field.isNone || !(c.test.taken core channel).isEmpty

/-- What a condition adds to the extension. -/
def Condition.contributed (c : Condition) (channel : σ) : List (Str × Str) :=
  if c.passes core channel then
    c.actions.flatMap fun a => List.replicate a.loopCount (a.application, c.test.appData core channel a)
  else c.antiActions.flatMap fun a => List.replicate a.loopCount (a.application, a.text)

/-- The channel after a condition: a match leaves its texts there. -/
def Condition.after (c : Condition) (channel : σ) : σ :=
  if c.passes core channel then c.test.captured core channel else channel

/-- The conditions up to and including the first one whose `break` fires, each with the channel as it
then is. -/
def examined : σ → List Condition → List (σ × Condition)
  | _, [] => []
  | channel, c :: cs =>
    (channel, c) ::
      if c.doBreak.fires (!c.passes core channel) then [] else examined (c.after core channel) cs

/-- Whether a condition lets `parse_exten` return a number other than zero. -/
def Condition.proceeds (c : Condition) (channel : σ) : Prop :=
  c.passes core channel = true ∨ c.antiActions ≠ []

/-- What the last condition of a list found, `p` where there is none. -/
def lastProceeds (p : Prop) (l : List (σ × Condition)) : Prop :=
  match l.getLast? with
  | some (channel, c) => c.proceeds core channel
  | none => p

/-- `switch_caller_extension_add_application` adds this one. -/
def admitted (x : Str × Str) : Bool := (strstr [92, 39] x.2).isNone

def State.applications (st : State σ) : List (Str × Str) :=
  match st.extension with
  | some e => e.applications
  | none => []

/-! ## The loop of an action -/

variable (extenName : Str)

theorem applications_opened (st : State σ) : (st.opened extenName).applications = st.applications := by
  unfold State.opened State.applications
  cases st.extension <;> rfl

theorem addApplication_applications (e : Extension) (application data : Str) :
    (addApplication e application data).applications = e.applications ++
      [(application, data)].filter admitted := by
  unfold addApplication
  by_cases hquoted : (strstr [92, 39] data).isSome = true
  · have hnot : admitted (application, data) = false := by
      show (strstr [92, 39] data).isNone = false
      rw [Option.isNone_eq_false_iff]
      exact hquoted
    rw [if_pos hquoted, List.filter_singleton, hnot]
    exact (List.append_nil _).symm
  · have hadmitted : admitted (application, data) = true := by
      show (strstr [92, 39] data).isNone = true
      rw [Option.not_isSome_iff_eq_none.mp hquoted]
      rfl
    rw [if_neg hquoted, List.filter_singleton, hadmitted]
    rfl

/-- The effect of a part of `parse_exten` that runs nothing inline: it adds applications. -/
structure Adds (st st' : State σ) (added : List (Str × Str)) : Prop where
  applications : st'.applications = st.applications ++ added.filter admitted
  channel : st'.channel = st.channel

theorem Adds.trans {st st' st'' : State σ} {added added' : List (Str × Str)} (h : Adds st st' added)
    (h' : Adds st' st'' added') : Adds st st'' (added ++ added') where
  applications := by rw [h'.applications, h.applications, List.filter_append, List.append_assoc]
  channel := h'.channel.trans h.channel

theorem Adds.nil {st st' : State σ} (happlications : st'.applications = st.applications)
    (hchannel : st'.channel = st.channel) : Adds st st' [] where
  applications := by rw [happlications, List.filter_nil, List.append_nil]
  channel := hchannel

theorem adds_once {a : Action} (hinline : switchTrue (some a.inline_) = false) (data : Str)
    (st : State σ) :
    Adds st (once core a data (st.opened extenName) st) [(a.application, data)] := by
  unfold once
  rw [hinline, if_neg Bool.false_ne_true]
  refine ⟨?_, rfl⟩
  show (addApplication (st.opened extenName) a.application data).applications = _
  rw [addApplication_applications, applications_opened]

theorem adds_repeated {a : Action} (hinline : switchTrue (some a.inline_) = false)
    (data : Str) (n : Nat) (st : State σ) :
    Adds st (repeated core extenName a data n st) (List.replicate n (a.application, data)) := by
  induction n generalizing st with
  | zero => exact Adds.nil rfl rfl
  | succ n ih => exact (adds_once core extenName hinline data st).trans (ih _)

theorem adds_performAction {a : Action} (hinline : switchTrue (some a.inline_) = false) (data : Str)
    (st : State σ) :
    Adds st (performAction core extenName a data st)
      (List.replicate a.loopCount (a.application, data)) := by
  have hopened : Adds st { st with extension := some (st.opened extenName) } [] :=
    Adds.nil (applications_opened extenName st) rfl
  exact hopened.trans (adds_repeated core extenName hinline data a.loopCount _)

/-! ## One condition -/

theorem adds_performAntiActions {actions : List Action}
    (hinline : ∀ a ∈ actions, switchTrue (some a.inline_) = false) (st : State σ) :
    Adds st (performAntiActions core extenName actions st)
      (actions.flatMap fun a => List.replicate a.loopCount (a.application, a.text)) := by
  induction actions generalizing st with
  | nil => exact Adds.nil rfl rfl
  | cons a actions ih =>
    have ha := adds_performAction core extenName (hinline a List.mem_cons_self) a.text st
    exact ha.trans (ih (fun b hb => hinline b (List.mem_cons_of_mem _ hb)) _)

theorem adds_runs {actions : List Action} (hinline : ∀ a ∈ actions, switchTrue (some a.inline_) = false)
    (t : Test) (channel : σ) (st : State σ) : Adds st (actions.foldl (t.run core extenName channel) st)
      (actions.flatMap fun a =>
        List.replicate a.loopCount (a.application, t.appData core channel a)) := by
  induction actions generalizing st with
  | nil => exact Adds.nil rfl rfl
  | cons a actions ih =>
    have hbuffers : Adds st { st with buffers := st.buffers ++ t.allocated core channel a } [] :=
      Adds.nil rfl rfl
    have ha := hbuffers.trans
      (adds_performAction core extenName (hinline a List.mem_cons_self) (t.appData core channel a) _)
    exact ha.trans (ih (fun b hb => hinline b (List.mem_cons_of_mem _ hb)) _)

theorem Condition.Flat.datetimeCheck {c : Condition} (hflat : c.Flat) (channel : σ) :
    core.stdDatetimeCheck channel c.test.times = none := by
  rw [hflat.times]
  exact core.stdDatetimeCheck_nil channel

theorem examine_antiAction {c : Condition} (hflat : c.Flat) (proceed : Nat) (channel : σ) :
    (examine core c.test proceed channel).antiAction = !c.passes core channel := by
  have htime := hflat.datetimeCheck core channel
  unfold Condition.passes
  cases hfield : c.test.field with
  | some field =>
    rw [examine_field core hfield, htime]
    simp
  | none =>
    unfold examine
    rw [hfield, htime]
    rfl

theorem examine_proceed {c : Condition} (hflat : c.Flat) (proceed : Nat) (channel : σ) :
    (examine core c.test proceed channel).proceed ≠ 0 ↔ c.passes core channel = true := by
  have htime := hflat.datetimeCheck core channel
  unfold Condition.passes
  cases hfield : c.test.field with
  | some field =>
    rw [examine_field core hfield]
    simp
  | none =>
    unfold examine
    rw [hfield, htime]
    simp

/-- What a flat condition does. -/
theorem perform_flat {c : Condition} (hflat : c.Flat) (proceed : Nat) (st : State σ) :
    ∃ proceed' st', perform core extenName c (examine core c.test proceed st.channel) st =
      some (proceed', st') ∧
      st'.applications = st.applications ++ (c.contributed core st.channel).filter admitted ∧
      st'.channel = c.after core st.channel ∧ (proceed' ≠ 0 ↔ c.proceeds core st.channel) := by
  have hanti := examine_antiAction core hflat proceed st.channel
  have hproceed := examine_proceed core hflat proceed st.channel
  rw [perform_examine, hanti]
  unfold Condition.contributed Condition.after Condition.proceeds
  cases hpasses : c.passes core st.channel with
  | true =>
    have hadds := adds_runs core extenName
      (fun a ha => hflat.inlined a (List.mem_append_left _ ha)) c.test st.channel
      { st with channel := c.test.captured core st.channel }
    exact ⟨_, _, rfl, hadds.applications, hadds.channel, by simp [hproceed, hpasses]⟩
  | false =>
    have hadds := adds_performAntiActions core extenName
      (fun a ha => hflat.inlined a (List.mem_append_right _ ha)) st
    refine ⟨_, _, rfl, hadds.applications, hadds.channel, ?_⟩
    rw [hpasses] at hproceed
    by_cases hnone : c.antiActions = [] <;> simp [hnone, hproceed]

/-! ## The loop over the conditions -/

theorem lastProceeds_cons {p : Prop} (channel : σ) (c : Condition) (l : List (σ × Condition)) :
    lastProceeds core p ((channel, c) :: l) = lastProceeds core (c.proceeds core channel) l := by
  unfold lastProceeds
  cases l with
  | nil => rfl
  | cons x l => rw [List.getLast?_cons_cons, List.getLast?_cons]

theorem parseNested_flat {c : Condition} (hflat : c.Flat) (origName : Str) (recur proceed : Nat)
    (st : State σ) :
    parseNested core origName recur c proceed st = some (proceed, st) := by
  obtain ⟨_, _, _, _, _, _, _, conditions⟩ := c
  obtain rfl : conditions = [] := hflat.conditions
  rfl

/-- The loop does not look at what an earlier condition found, so it can start from any number. -/
theorem parseConditions_flat (origName : Str) (recur : Nat) {cs : List Condition}
    (hflat : ∀ c ∈ cs, c.Flat) (proceed : Nat) (st : State σ) :
    ∃ proceed' st', parseConditions core origName extenName recur cs proceed st = some (proceed', st') ∧
      st'.applications = st.applications ++
        ((examined core st.channel cs).flatMap fun x => x.2.contributed core x.1).filter admitted ∧
      (proceed' ≠ 0 ↔ lastProceeds core (proceed ≠ 0) (examined core st.channel cs)) := by
  induction cs generalizing proceed st with
  | nil => exact ⟨proceed, st, rfl, (List.append_nil _).symm, Iff.rfl⟩
  | cons c cs ih =>
    have hc := hflat c List.mem_cons_self
    obtain ⟨proceed₁, st₁, hperform, happlications, hchannel, hproceeds⟩ :=
      perform_flat core extenName hc proceed st
    have hloop : parseConditions core origName extenName recur (c :: cs) proceed st =
        if c.doBreak.fires (!c.passes core st.channel) then some (proceed₁, st₁)
        else parseConditions core origName extenName recur cs proceed₁ st₁ := by
      rw [parseConditions, test_eq core hc.regex]
      show (perform core extenName c (examine core c.test proceed st.channel) st).bind _ = _
      rw [hperform, Option.bind_some, examine_antiAction core hc]
      dsimp only
      by_cases hzero : proceed₁ = 0
      · subst hzero
        rw [if_pos rfl]
      · rw [if_neg hzero, parseNested_flat core hc, Option.bind_some]
        dsimp only
        rw [if_neg (c := proceed₁ = 0 ∧ c.doBreak ≠ .never) fun h => hzero h.1]
    have hexamined : examined core st.channel (c :: cs) = (st.channel, c) ::
        if c.doBreak.fires (!c.passes core st.channel) then [] else examined core st₁.channel cs := by
      rw [hchannel]
      rfl
    rw [hloop, hexamined, lastProceeds_cons, List.flatMap_cons, List.filter_append, ← List.append_assoc,
      ← happlications]
    cases c.doBreak.fires (!c.passes core st.channel) with
    | true => exact ⟨proceed₁, st₁, rfl, (List.append_nil _).symm, hproceeds⟩
    | false =>
      obtain ⟨proceed₂, st₂, hrest, happlications₂, hproceeds₂⟩ :=
        ih (fun d hd => hflat d (List.mem_cons_of_mem _ hd)) proceed₁ st₁
      rw [propext hproceeds] at hproceeds₂
      exact ⟨proceed₂, st₂, hrest, happlications₂, hproceeds₂⟩

/-- A flat extension adds what its conditions contribute up to the first break, apart from the data that
no extension takes, and returns what the last one found. -/
theorem parseExten_flat (name : Option Str) {cs : List Condition} (hflat : ∀ c ∈ cs, c.Flat)
    (st : State σ) :
    ∃ proceed st', parseExten core name extenName cs st = some (proceed, st') ∧
      st'.applications = st.applications ++
        ((examined core st.channel cs).flatMap fun x => x.2.contributed core x.1).filter admitted ∧
      (proceed ≠ 0 ↔ ∃ x, (examined core st.channel cs).getLast? = some x ∧ x.2.proceeds core x.1) := by
  obtain ⟨proceed, st', hparse, happlications, hproceeds⟩ :=
    parseConditions_flat core (name.getD extenName) extenName 0 hflat 0 st
  refine ⟨proceed, st', hparse, happlications, hproceeds.trans ?_⟩
  unfold lastProceeds
  cases hlast : (examined core st.channel cs).getLast? with
  | none => simp
  | some x => simp

/-- A condition that always passes, with one action. -/
def absolute (a : Action) : Condition where
  test := { times := [], field := none, expressionChild := none, expressionAttr := [] }
  breakAttr := none
  regex := none
  requireNested := none
  regexes := []
  actions := [a]
  antiActions := []
  conditions := []

def played : Action where
  application := bytes "playback"
  loop := some (bytes "2")
  inline_ := []
  txt := []
  data := bytes "hello"

/-- A condition that does not match, with an anti-action and a break. -/
def refused : Condition :=
  { officeHours with
    test := { officeHours.test with times := [] }
    breakAttr := some (bytes "on-false")
    antiActions :=
      [{ played with application := bytes "hangup", loop := none, data := bytes "USER_BUSY" }] }

/-- An action with `loop="2"` is there twice, then there is an anti-action, and the condition behind the
break is not looked at. -/
theorem parseExten_played :
    ∃ proceed st', parseExten idle none [] [absolute played, refused, absolute played] ⟨(), none, []⟩
        = some (proceed, st') ∧
      st'.applications = [(bytes "playback", bytes "hello"), (bytes "playback", bytes "hello"),
        (bytes "hangup", bytes "USER_BUSY")] ∧ proceed ≠ 0 := by
  have hplayed : (absolute played).Flat := ⟨rfl, rfl, rfl, by decide⟩
  have hrefused : refused.Flat := ⟨rfl, rfl, rfl, by decide⟩
  have hflat : ∀ c ∈ [absolute played, refused, absolute played], c.Flat := by
    simp only [List.forall_mem_cons]
    exact ⟨hplayed, hrefused, hplayed, fun c hc => absurd hc List.not_mem_nil⟩
  obtain ⟨proceed, st', hparse, happlications, hproceeds⟩ :=
    parseExten_flat idle [] none hflat ⟨(), none, []⟩
  exact ⟨proceed, st', hparse, happlications,
    hproceeds.mpr ⟨((), refused), rfl, .inr (List.cons_ne_nil _ _)⟩⟩

def quoted : Condition := absolute { played with data := bytes "say \\'hello\\'" }

/-- A backslash before a quote in the data: the condition passes, and its action is not in the
extension. -/
theorem parseExten_quoted :
    quoted.Flat ∧
      ((examined idle () [quoted]).flatMap fun x => x.2.contributed idle x.1).length = 2 ∧
      (parseExten idle none [] [quoted] ⟨(), none, []⟩).map (·.2.applications) = some [] :=
  ⟨⟨rfl, rfl, rfl, by decide⟩, rfl, rfl⟩

end FreeSwitch.Dialplan
