import FreeSwitch.Lib.Run

/-!
# The state of a channel — `src/switch_channel.c`

`switch_channel_perform_set_state` changes the state under `state_mutex`, by a table of allowed
changes, and ignores a change that goes back from `CS_HANGUP` or later. A call of
`switch_channel_perform_hangup` takes the mutex twice: once for `OCF_HANGUP`, which lets one call
through, and once to store `CS_HANGUP`. Its test of the state stands between the two, outside the
mutex, and the store does not test again.

* **`World.step`** — one atomic step of one of the calls in flight.
* **`hangup_state_monotone_iff`** — in a run, the state never goes back from `CS_HANGUP` or later
  exactly if every store of a hangup call finds the channel at `CS_HANGUP` or before; and at most
  one hangup call stores.
* **`hangup_reopens_destroyed`** — a channel that goes back from `CS_DESTROY` to `CS_HANGUP`.
-/

namespace FreeSwitch.Channel

/-! ## States -/

/-- `switch_channel_state_t`. -/
inductive SwitchChannelState where
  | csNew | csInit | csRouting | csSoftExecute | csExecute | csExchangeMedia | csPark
  | csConsumeMedia | csHibernate | csReset | csHangup | csReporting | csDestroy | csNone
  deriving DecidableEq, Repr

open SwitchChannelState

namespace SwitchChannelState

/-- The value of the enumeration, by which the source compares states. -/
def value : SwitchChannelState → Nat
  | csNew => 0
  | csInit => 1
  | csRouting => 2
  | csSoftExecute => 3
  | csExecute => 4
  | csExchangeMedia => 5
  | csPark => 6
  | csConsumeMedia => 7
  | csHibernate => 8
  | csReset => 9
  | csHangup => 10
  | csReporting => 11
  | csDestroy => 12
  | csNone => 13

instance : LE SwitchChannelState := ⟨fun a b => a.value ≤ b.value⟩
instance : LT SwitchChannelState := ⟨fun a b => a.value < b.value⟩
instance (a b : SwitchChannelState) : Decidable (a ≤ b) :=
  inferInstanceAs (Decidable (a.value ≤ b.value))
instance (a b : SwitchChannelState) : Decidable (a < b) :=
  inferInstanceAs (Decidable (a.value < b.value))

protected theorem le_refl (a : SwitchChannelState) : a ≤ a := Nat.le_refl a.value

protected theorem le_trans {a b c : SwitchChannelState} (h : a ≤ b) (h' : b ≤ c) : a ≤ c :=
  Nat.le_trans h h'

protected theorem not_lt {a b : SwitchChannelState} : ¬ a < b ↔ b ≤ a := Nat.not_lt

end SwitchChannelState

/-- The changes for which the table of `switch_channel_perform_set_state` counts `ok` up. -/
def stateChangeOk : SwitchChannelState → SwitchChannelState → Bool
  | csNew, _ => true
  | csReset, _ => true
  | csInit, state => state ∈ [csExchangeMedia, csSoftExecute, csRouting, csExecute, csPark,
      csConsumeMedia, csHibernate, csReset]
  | csExchangeMedia, state => state ∈ [csSoftExecute, csRouting, csExecute, csPark, csConsumeMedia,
      csHibernate, csReset]
  | csSoftExecute, state => state ∈ [csExchangeMedia, csRouting, csExecute, csPark, csConsumeMedia,
      csHibernate, csReset]
  | csPark, state => state ∈ [csExchangeMedia, csRouting, csExecute, csSoftExecute, csHibernate,
      csReset, csConsumeMedia]
  | csConsumeMedia, state => state ∈ [csExchangeMedia, csRouting, csExecute, csSoftExecute,
      csHibernate, csReset, csPark]
  | csHibernate, state => state ∈ [csExchangeMedia, csInit, csRouting, csExecute, csSoftExecute,
      csPark, csConsumeMedia, csReset]
  | csRouting, state => state ∈ [csExchangeMedia, csExecute, csSoftExecute, csPark, csConsumeMedia,
      csHibernate, csReset]
  | csExecute, state => state ∈ [csExchangeMedia, csSoftExecute, csRouting, csPark, csConsumeMedia,
      csHibernate, csReset]
  | csHangup, state => state ∈ [csReporting, csDestroy]
  | csReporting, state => state ∈ [csDestroy]
  | csDestroy, _ => false
  | csNone, _ => false

/-! ## The channel -/

def switchCauseNone : Nat := 0
def switchCauseNormalClearing : Nat := 16

/-- What a hangup reads and writes of the channel. -/
structure SwitchChannel where
  state : SwitchChannelState
  /-- `OCF_HANGUP` of `opaque_flags`. -/
  ocfHangup : Bool
  hangupCause : Nat

/-- `none` where a `switch_assert` fires. `careful_set` stores the state on each of its paths. -/
def switchChannelPerformSetState (channel : SwitchChannel) (state : SwitchChannelState) :
    Option SwitchChannel :=
  if ¬ state ≤ csDestroy then none
  else if ¬ channel.state ≤ csDestroy then none
  else if channel.state = state then some channel
  -- no way back from a hangup
  else if csHangup ≤ channel.state ∧ state < channel.state then some channel
  else if stateChangeOk channel.state state then
    some { channel with
      state := state
      hangupCause :=
        if state = csHangup ∧ channel.hangupCause = switchCauseNone then switchCauseNormalClearing
        else channel.hangupCause }
  else if csHangup ≤ channel.state then some channel
  else none

/-- Where a call of `switch_channel_perform_hangup` is; `cause` is its argument. -/
inductive HangupCall where
  | idle
  /-- It has set `OCF_HANGUP`. -/
  | took (cause : Nat)
  /-- It has found the state before `CS_HANGUP`. -/
  | passed (cause : Nat)
  /-- It has stored `CS_HANGUP`. -/
  | hung (cause : Nat)
  | returned

/-- A channel and the hangup calls on it, each under a number of its own. -/
structure World where
  channel : SwitchChannel
  hangups : Nat → HangupCall

/-- What a thread can do next; `call` is the hangup that it is in. -/
inductive Action where
  | setState (state : SwitchChannelState)
  | take (call cause : Nat)
  | test (call : Nat)
  | store (call : Nat)
  | storeCause (call : Nat)

namespace World

def move (w : World) (call : Nat) (next : HangupCall) : World :=
  { w with hangups := Function.update w.hangups call next }

/-- `none` where the call is elsewhere, or an assertion fires. -/
def step (w : World) : Action → Option World
  | .setState state => (switchChannelPerformSetState w.channel state).map fun channel =>
    { w with channel }
  | .take call cause =>
    match w.hangups call with
    | .idle =>
      -- one per customer
      if w.channel.ocfHangup then some (w.move call .returned)
      else some ({ w with channel := { w.channel with ocfHangup := true } }.move call (.took cause))
    | _ => none
  | .test call =>
    match w.hangups call with
    | .took cause =>
      if w.channel.state < csHangup then some (w.move call (.passed cause))
      else some (w.move call .returned)
    | _ => none
  | .store call =>
    match w.hangups call with
    | .passed cause =>
      some ({ w with channel := { w.channel with state := csHangup } }.move call (.hung cause))
    | _ => none
  | .storeCause call =>
    match w.hangups call with
    | .hung cause =>
      some ({ w with channel := { w.channel with hangupCause := cause } }.move call .returned)
    | _ => none

/-- An action that can be taken. -/
def Step (w : World) (action : Action) (w' : World) : Prop := w.step action = some w'

/-- Calls can be made, none has been. -/
def Fresh (w : World) : Prop := ∀ call, w.hangups call = .idle

/-! ## What one step does -/

/-- The steps one by one. -/
inductive Effect (w : World) : Action → World → Prop where
  | setState {state : SwitchChannelState} {channel : SwitchChannel}
      (h : switchChannelPerformSetState w.channel state = some channel) :
      Effect w (.setState state) { w with channel }
  | takeFirst {call cause : Nat} (hcall : w.hangups call = .idle)
      (hflag : w.channel.ocfHangup = false) :
      Effect w (.take call cause)
        ({ w with channel := { w.channel with ocfHangup := true } }.move call (.took cause))
  | takeLate {call cause : Nat} (hcall : w.hangups call = .idle) (hflag : w.channel.ocfHangup = true) :
      Effect w (.take call cause) (w.move call .returned)
  | testBefore {call cause : Nat} (hcall : w.hangups call = .took cause)
      (hstate : w.channel.state < csHangup) : Effect w (.test call) (w.move call (.passed cause))
  | testAfter {call cause : Nat} (hcall : w.hangups call = .took cause)
      (hstate : ¬ w.channel.state < csHangup) : Effect w (.test call) (w.move call .returned)
  | store {call cause : Nat} (hcall : w.hangups call = .passed cause) :
      Effect w (.store call)
        ({ w with channel := { w.channel with state := csHangup } }.move call (.hung cause))
  | storeCause {call cause : Nat} (hcall : w.hangups call = .hung cause) :
      Effect w (.storeCause call)
        ({ w with channel := { w.channel with hangupCause := cause } }.move call .returned)

variable {w w' : World} {action : Action}

theorem Step.effect (h : w.Step action w') : Effect w action w' := by
  cases action with
  | setState state =>
    obtain ⟨channel, hset, rfl⟩ := Option.map_eq_some_iff.mp h
    exact .setState hset
  | take call cause =>
    simp only [Step, step] at h
    cases hcall : w.hangups call with
    | idle =>
      cases hflag : w.channel.ocfHangup with
      | false =>
        simp only [hcall, hflag, Bool.false_eq_true, if_false, Option.some.injEq] at h
        exact h ▸ .takeFirst hcall hflag
      | true =>
        simp only [hcall, hflag, if_true, Option.some.injEq] at h
        exact h ▸ .takeLate hcall hflag
    | _ => simp only [hcall, reduceCtorEq] at h
  | test call =>
    simp only [Step, step] at h
    cases hcall : w.hangups call with
    | took cause =>
      by_cases hstate : w.channel.state < csHangup
      · simp only [hcall, hstate, if_true, Option.some.injEq] at h
        exact h ▸ .testBefore hcall hstate
      · simp only [hcall, hstate, if_false, Option.some.injEq] at h
        exact h ▸ .testAfter hcall hstate
    | _ => simp only [hcall, reduceCtorEq] at h
  | store call =>
    simp only [Step, step] at h
    cases hcall : w.hangups call with
    | passed cause =>
      simp only [hcall, Option.some.injEq] at h
      exact h ▸ .store hcall
    | _ => simp only [hcall, reduceCtorEq] at h
  | storeCause call =>
    simp only [Step, step] at h
    cases hcall : w.hangups call with
    | hung cause =>
      simp only [hcall, Option.some.injEq] at h
      exact h ▸ .storeCause hcall
    | _ => simp only [hcall, reduceCtorEq] at h

/-- What `set_state` does to the rest, and that it does not go back from `CS_HANGUP` or later:
the table is asked only for changes that the test before it lets through. -/
theorem setState_spec {channel channel' : SwitchChannel} {state : SwitchChannelState}
    (h : switchChannelPerformSetState channel state = some channel') :
    channel'.ocfHangup = channel.ocfHangup
      ∧ (csHangup ≤ channel.state → channel.state ≤ channel'.state) := by
  have hsame : some channel = some channel' → channel'.ocfHangup = channel.ocfHangup
      ∧ (csHangup ≤ channel.state → channel.state ≤ channel'.state) := by
    intro heq
    cases heq
    exact ⟨rfl, fun _ => SwitchChannelState.le_refl _⟩
  unfold switchChannelPerformSetState at h
  by_cases hback : csHangup ≤ channel.state ∧ state < channel.state
  · simp only [hback, and_self, if_true] at h
    split_ifs at h <;> exact hsame h
  · simp only [hback, if_false] at h
    have hle : csHangup ≤ channel.state → channel.state ≤ state := by
      intro hhung
      rw [← SwitchChannelState.not_lt]
      exact fun hlt => hback ⟨hhung, hlt⟩
    split_ifs at h
    · exact hsame h
    · cases h
      exact ⟨rfl, hle⟩
    · cases h
      exact ⟨rfl, hle⟩
    · exact hsame h

/-- A store goes back unless it finds the channel at `CS_HANGUP` or before. -/
def SafeAction (w : World) : Action → Prop
  | .store _ => w.channel.state ≤ csHangup
  | _ => True

instance decidableSafeAction (w : World) (action : Action) : Decidable (w.SafeAction action) := by
  cases action <;> unfold SafeAction <;> infer_instance

/-- One step does not go back from `CS_HANGUP` or later exactly if it is safe. -/
theorem step_le_iff (h : w.Step action w') :
    (csHangup ≤ w.channel.state → w.channel.state ≤ w'.channel.state) ↔ w.SafeAction action := by
  cases h.effect with
  | setState hset => exact iff_of_true (setState_spec hset).2 trivial
  | store hcall =>
    show (csHangup ≤ w.channel.state → w.channel.state ≤ csHangup) ↔ w.channel.state ≤ csHangup
    refine ⟨fun hle => ?_, fun hle _ => hle⟩
    by_cases hlt : w.channel.state < csHangup
    · exact Nat.le_of_lt hlt
    · exact hle (SwitchChannelState.not_lt.mp hlt)
  | _ => exact iff_of_true (fun _ => SwitchChannelState.le_refl _) trivial

/-! ## The state along a run -/

/-- From a state at `CS_HANGUP` or later on, every state of the run is at least that. -/
def NeverGoesBack (w : World) (actions : List Action) : Prop :=
  ∀ before between rest w₁ w₂, actions = before ++ between ++ rest →
    Runs.Run Step w before w₁ → Runs.Run Step w₁ between w₂ →
      csHangup ≤ w₁.channel.state → w₁.channel.state ≤ w₂.channel.state

/-- Every store is made in a state at `CS_HANGUP` or before. -/
def SafeStores (w : World) (actions : List Action) : Prop :=
  ∀ before action rest w₁, actions = before ++ action :: rest → Runs.Run Step w before w₁ →
    w₁.SafeAction action

/-- What one safe step does not do, a run of safe steps does not do. -/
theorem le_of_safe_run {w₁ w₂ : World} {actions : List Action} (hrun : Runs.Run Step w₁ actions w₂)
    (hsafe : SafeStores w₁ actions) (hhung : csHangup ≤ w₁.channel.state) :
    w₁.channel.state ≤ w₂.channel.state := by
  induction hrun with
  | nil w => exact SwitchChannelState.le_refl _
  | cons hstep _ ih =>
    have hle := (step_le_iff hstep).mpr (hsafe [] _ _ _ rfl (.nil _)) hhung
    refine SwitchChannelState.le_trans hle (ih ?_ (SwitchChannelState.le_trans hhung hle))
    intro before action rest w heq hrun'
    exact hsafe (_ :: before) action rest w (by rw [heq]; rfl) (.cons hstep hrun')

theorem step_sound (w : World) (action : Action) (w' : World) (h : w.step action = some w') :
    w.Step action w' := h

theorem step_unique (w : World) (action : Action) (w' w'' : World) (h : w.Step action w')
    (h' : w.Step action w'') : w' = w'' := Option.some.inj (h.symm.trans h')

theorem neverGoesBack_iff {actions : List Action} (hrun : Runs.Run Step w actions w') :
    NeverGoesBack w actions ↔ SafeStores w actions := by
  constructor
  · intro hnever before action rest w₁ heq hbefore
    -- the whole run has a step after `before`, and it is made in `w₁`
    subst heq
    obtain ⟨w₁', hbefore', hrest⟩ := hrun.split
    cases hbefore.unique step_unique hbefore'
    cases hrest with
    | @cons _ w₂ _ _ _ hstep _ =>
    apply (step_le_iff hstep).mp
    exact hnever before [action] rest w₁ w₂ (by simp) hbefore (.cons hstep (.nil w₂))
  · intro hsafe before between rest w₁ w₂ heq hbefore hbetween
    apply le_of_safe_run hbetween
    intro before' action rest' w₃ heq' hbefore'
    refine hsafe (before ++ before') action (rest' ++ rest) w₃ ?_ (hbefore.append hbefore')
    rw [heq, heq']
    simp

/-! ## One store -/

/-- A call that may still store. -/
def Pending : HangupCall → Prop
  | .took _ => True
  | .passed _ => True
  | _ => False

/-- No call is pending before `OCF_HANGUP` is set, and at most one after. -/
structure OneCustomer (w : World) : Prop where
  none : w.channel.ocfHangup = false → ∀ call, ¬ Pending (w.hangups call)
  one : ∀ call call', Pending (w.hangups call) → Pending (w.hangups call') → call = call'

/-- `OCF_HANGUP` is set and no call is pending. -/
structure Served (w : World) : Prop where
  taken : w.channel.ocfHangup = true
  none : ∀ call, ¬ Pending (w.hangups call)

theorem move_hangups (w : World) (call : Nat) (next : HangupCall) :
    (w.move call next).hangups = Function.update w.hangups call next := rfl

/-- Whoever is pending after a move was pending before, unless the move made it so. -/
theorem pending_of_move {hangups : Nat → HangupCall} {call call' : Nat} {next : HangupCall}
    (hnext : Pending next → Pending (hangups call))
    (h : Pending (Function.update hangups call next call')) : Pending (hangups call') := by
  by_cases heq : call' = call
  · subst heq
    rw [Function.update_self] at h
    exact hnext h
  · rwa [Function.update_of_ne heq] at h

theorem OneCustomer.of_subset (h : OneCustomer w) (hflag : w'.channel.ocfHangup = w.channel.ocfHangup)
    (hsub : ∀ call, Pending (w'.hangups call) → Pending (w.hangups call)) : OneCustomer w' := by
  refine ⟨fun hfalse call hpending => ?_, fun call call' hpending hpending' => ?_⟩
  · exact h.none (hflag.symm.trans hfalse) call (hsub call hpending)
  · exact h.one call call' (hsub call hpending) (hsub call' hpending')

theorem Served.of_subset (h : Served w) (hflag : w'.channel.ocfHangup = w.channel.ocfHangup)
    (hsub : ∀ call, Pending (w'.hangups call) → Pending (w.hangups call)) : Served w' :=
  ⟨hflag.trans h.taken, fun call hpending => h.none call (hsub call hpending)⟩

/-- Apart from the first to take the flag, nobody becomes pending. -/
theorem Effect.pending (h : Effect w action w') :
    (w'.channel.ocfHangup = w.channel.ocfHangup ∧ ∀ call,
      Pending (w'.hangups call) → Pending (w.hangups call))
      ∨ ∃ call cause, w.channel.ocfHangup = false ∧ action = .take call cause
        ∧ w' = { w with channel := { w.channel with ocfHangup := true } }.move call (.took cause) := by
  cases h with
  | setState hset => exact .inl ⟨(setState_spec hset).1, fun _ hpending => hpending⟩
  | takeFirst hcall hflag => exact .inr ⟨_, _, hflag, rfl, rfl⟩
  | takeLate hcall hflag => exact .inl ⟨rfl, fun _ => pending_of_move False.elim⟩
  | testBefore hcall hstate =>
    exact .inl ⟨rfl, fun _ => pending_of_move fun _ => by rw [hcall]; trivial⟩
  | testAfter hcall hstate => exact .inl ⟨rfl, fun _ => pending_of_move False.elim⟩
  | store hcall => exact .inl ⟨rfl, fun _ => pending_of_move False.elim⟩
  | storeCause hcall => exact .inl ⟨rfl, fun _ => pending_of_move False.elim⟩

theorem OneCustomer.step (h : OneCustomer w) (hstep : w.Step action w') :
    OneCustomer w' := by
  rcases hstep.effect.pending with ⟨hflag, hsub⟩ | ⟨call, cause, hflag, -, rfl⟩
  · exact h.of_subset hflag hsub
  · -- nobody was pending, so only `call` is
    have honly : ∀ call', Pending (Function.update w.hangups call (.took cause) call') →
        call' = call := by
      intro call' hpending
      by_contra hne
      rw [Function.update_of_ne hne] at hpending
      exact h.none hflag call' hpending
    refine ⟨fun htrue => absurd htrue (by simp [move]), fun call₁ call₂ h₁ h₂ => ?_⟩
    exact (honly call₁ h₁).trans (honly call₂ h₂).symm

/-- Whoever stores was the one pending. -/
theorem OneCustomer.served {call : Nat} (h : OneCustomer w)
    (hstep : w.Step (.store call) w') : Served w' := by
  cases hstep.effect with
  | @store _ cause hcall =>
    have hpending : Pending (w.hangups call) := by rw [hcall]; trivial
    refine ⟨?_, fun call' hpending' => ?_⟩
    · show w.channel.ocfHangup = true
      by_contra hfalse
      exact h.none (Bool.eq_false_of_not_eq_true hfalse) call hpending
    · rw [move_hangups] at hpending'
      by_cases heq : call' = call
      · subst heq
        rw [Function.update_self] at hpending'
        exact hpending'
      · rw [Function.update_of_ne heq] at hpending'
        exact heq (h.one call' call hpending' hpending)

theorem Served.step (h : Served w) (hstep : w.Step action w') : Served w' := by
  rcases hstep.effect.pending with ⟨hflag, hsub⟩ | ⟨call, cause, hflag, -, -⟩
  · exact h.of_subset hflag hsub
  · exact absurd (hflag.symm.trans h.taken) Bool.false_ne_true

end World

def Action.isStore : Action → Bool
  | .store _ => true
  | _ => false

namespace World

theorem Served.no_store {w w' : World} {action : Action} (h : Served w) (hstep : w.Step action w') :
    action.isStore = false := by
  cases hstep.effect with
  | store hcall => exact absurd (by rw [hcall]; trivial) (h.none _)
  | _ => rfl

theorem Served.stores {w w' : World} {actions : List Action} (hrun : Runs.Run Step w actions w')
    (h : Served w) : actions.countP Action.isStore = 0 := by
  induction hrun with
  | nil w => rfl
  | cons hstep _ ih =>
    rw [List.countP_cons_of_neg (by simp [h.no_store hstep])]
    exact ih (h.step hstep)

theorem OneCustomer.stores {w w' : World} {actions : List Action} (hrun : Runs.Run Step w actions w')
    (h : OneCustomer w) : actions.countP Action.isStore ≤ 1 := by
  induction hrun with
  | nil w => exact Nat.zero_le 1
  | @cons _ _ _ action _ hstep hrest ih =>
    cases action with
    | store call =>
      rw [List.countP_cons_of_pos rfl, (h.served hstep).stores hrest]
    | _ =>
      rw [List.countP_cons_of_neg (by simp [Action.isStore])]
      exact ih (h.step hstep)

theorem Fresh.oneCustomer {w : World} (h : Fresh w) : OneCustomer w := by
  have hnone : ∀ call, ¬ Pending (w.hangups call) := fun call => by
    rw [h call]
    exact id
  exact ⟨fun _ => hnone, fun call _ hpending => absurd hpending (hnone call)⟩

/-- **From `CS_HANGUP` on the state does not go back exactly if every store is made at `CS_HANGUP` or
before, and there is one store at most.** -/
theorem hangup_state_monotone_iff {w w' : World} {actions : List Action} (hfresh : Fresh w)
    (hrun : Runs.Run Step w actions w') :
    (NeverGoesBack w actions ↔ SafeStores w actions) ∧ actions.countP Action.isStore ≤ 1 :=
  ⟨neverGoesBack_iff hrun, OneCustomer.stores hrun hfresh.oneCustomer⟩

/-- A channel as `switch_channel_init` leaves it. -/
def opened : World := ⟨⟨csNew, false, switchCauseNone⟩, fun _ => .idle⟩

/-- The calls of a normal end: a hangup, a second one that comes late, and the changes of the state
machine before and after. -/
def normalEnd : List Action :=
  [.setState csInit, .setState csRouting, .take 0 16, .take 1 17, .test 0, .store 0, .storeCause 0,
    .setState csReporting, .setState csDestroy]

/-- A run of safe steps: there is only one run of the same actions. -/
theorem SafeStores.of_guarded {w w' : World} {actions : List Action}
    (h : Runs.Run (Runs.Guarded SafeAction Step) w actions w') : SafeStores w actions := by
  induction h with
  | nil => intro before action rest w₁ heq; simp at heq
  | cons hstep _ ih =>
    intro before action rest w₁ heq hrun
    cases before with
    | nil =>
      obtain ⟨rfl, -⟩ := List.cons.inj heq
      cases hrun
      exact hstep.1
    | cons a before =>
      obtain ⟨rfl, htail⟩ := List.cons.inj heq
      cases hrun with
      | cons hfirst hrest =>
        obtain rfl := Option.some.inj (hstep.2.symm.trans hfirst)
        exact ih before action rest w₁ htail hrest

/-- No store finds the channel behind `CS_HANGUP`. -/
theorem hangup_state_monotone_normal_end :
    ∃ w', Runs.Run Step opened normalEnd w' ∧ NeverGoesBack opened normalEnd
      ∧ normalEnd.countP Action.isStore ≤ 1 := by
  have heval :
      (normalEnd.foldlM (fun w action => if decide (w.SafeAction action) then w.step action else none)
      opened).any (fun _ => true) = true := by
    decide +kernel
  obtain ⟨w', hsafe, -⟩ := Runs.Run.of_guarded_eval step_sound (fun _ _ => of_decide_eq_true) heval
  have hrun := hsafe.mono fun _ _ _ h => h.2
  obtain ⟨hiff, hone⟩ := hangup_state_monotone_iff (fun _ => rfl) hrun
  exact ⟨w', hrun, hiff.mpr (.of_guarded hsafe), hone⟩

/-- A hangup call has tested the state of a new channel when another thread destroys the channel;
its store then takes the channel back to `CS_HANGUP`. -/
theorem hangup_reopens_destroyed :
    ∃ w₁ w₂, Runs.Run Step opened [.take 0 16, .test 0, .setState csDestroy] w₁
      ∧ Runs.Run Step w₁ [.store 0] w₂
      ∧ w₁.channel.state = csDestroy ∧ w₂.channel.state = csHangup ∧ ¬ csDestroy ≤ csHangup := by
  have heval : (List.foldlM step opened [.take 0 16, .test 0, .setState csDestroy]).any
      (fun w => w.channel.state = csDestroy && (w.step (.store 0)).any fun w =>
        w.channel.state = csHangup)
        = true := by
    decide +kernel
  obtain ⟨w₁, hrun, htest⟩ := Runs.Run.of_eval step_sound heval
  rw [Bool.and_eq_true, Option.any_eq_true_iff_get] at htest
  obtain ⟨hstate, hsome, hhung⟩ := htest
  refine ⟨w₁, _, hrun, .cons (Option.some_get hsome).symm (.nil _), of_decide_eq_true hstate,
    of_decide_eq_true hhung, by decide⟩

end World

end FreeSwitch.Channel
