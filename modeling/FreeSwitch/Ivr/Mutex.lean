import FreeSwitch.Ivr.Dmachine
import Mathlib.Tactic.Common

/-!
# The mutex of the digit machine — `src/switch_ivr_async.c`

`switch_ivr_dmachine_ping` takes the mutex before it looks whether another `ping` is at work. If so, it
returns with the mutex taken. That happens to every `ping` that a callback makes, so the callbacks of a
`ping` inside a `ping` never run, however deep the calls are meant to go.

* **`leaks`** — the calls of callbacks that get as far as a `ping`.
* **`Calls.run_within`** — what the calls of a callback do to the mutex.
* **`mutex_kept_iff`** — the mutex is given back exactly if there are no such calls.
-/

namespace FreeSwitch.Ivr

open CString

/-! ## Matches have a binding -/

/-- What the second loop has found is there. -/
structure Candidates.Backed (c : Candidates) : Prop where
  exact : c.best = .matchExact → c.exactBp.isSome = true
  both : c.best = .matchBoth → c.bothBp.isSome = true

theorem backed_takeExact (c : Candidates) (bp : Binding) :
    (c.takeExact bp).Backed := ⟨fun _ => rfl, fun h => nomatch h⟩

theorem Candidates.Backed.withLonger {c : Candidates} (h : c.Backed) (d : Dialled) (bp : Binding) :
    (d.withLonger c bp).Backed := by
  unfold Dialled.withLonger
  split
  · split
    · exact ⟨fun h => (nomatch h), fun _ => rfl⟩
    · exact ⟨fun h => (nomatch h), fun h => nomatch h⟩
  · exact h

theorem Candidates.Backed.compareLoop {d : Dialled} {bindings : List Binding} {c : Candidates}
    (h : c.Backed) :
    (compareLoop d bindings c).Backed := by
  fun_induction Ivr.compareLoop d bindings c with
  | case1 => exact h
  | case2 => exact backed_takeExact _ _
  | case3 _ _ _ _ _ _ ih => exact ih ⟨fun h => (nomatch h), fun h => nomatch h⟩
  | case4 _ _ _ _ _ ih => exact ih h
  | case5 => exact backed_takeExact _ _
  | case6 => exact (backed_takeExact _ _).withLonger _ _
  | case7 _ _ _ _ _ _ _ ih => exact ih ((backed_takeExact _ _).withLonger _ _)
  | case8 => exact h.withLonger _ _
  | case9 _ _ _ _ _ _ ih => exact ih (h.withLonger _ _)

theorem Candidates.Backed.result {c : Candidates} (h : c.Backed) {isTimeout : Bool}
    (hmatch : c.best = .matchExact ∨ (c.best = .matchBoth ∧ isTimeout = true)) :
    (c.result isTimeout).isSome = true := by
  unfold Candidates.result
  split
  case isTrue hexact => exact hexact.2
  case isFalse hexact =>
    rcases hmatch with hbest | ⟨hbest, htimeout⟩
    · exact absurd ⟨hbest, h.exact hbest⟩ hexact
    · rw [if_pos ⟨htimeout, h.both hbest⟩]
      split
      · assumption
      · exact h.both hbest

/-- Where a match is told to `ping`, its binding is stored. -/
theorem settle_binding {c : Candidates} (h : c.Backed) (dm : Dmachine) (isTimeout : Bool)
    (hmatch : (settle dm c isTimeout).1 = .matchExact ∨
      ((settle dm c isTimeout).1 = .matchBoth ∧ isTimeout = true)) :
    (settle dm c isTimeout).2.lastMatchingBinding.isSome = true := by
  unfold settle at hmatch ⊢
  split at hmatch
  · rfl
  case h_2 hnone =>
    have hsome := h.result hmatch
    rw [hnone] at hsome
    exact nomatch hsome

theorem backed_noCandidates : noCandidates.Backed := ⟨fun h => (nomatch h), fun h => nomatch h⟩

theorem backed_searchRealm (rx : Regex) (dm : Dmachine) (head : BindingHead) (isTimeout : Bool) :
    (searchRealm rx dm head isTimeout).2.2.Backed := by
  unfold searchRealm
  dsimp only
  split
  · exact ⟨fun h => (nomatch h), fun h => nomatch h⟩
  · exact backed_noCandidates.compareLoop

theorem checkMatch_binding (rx : Regex) (dm : Dmachine) (isTimeout : Bool)
    (hmatch : (checkMatch rx dm isTimeout).1 = .matchExact ∨
      ((checkMatch rx dm isTimeout).1 = .matchBoth ∧ isTimeout = true)) :
    (checkMatch rx dm isTimeout).2.lastMatchingBinding.isSome = true := by
  unfold checkMatch at hmatch ⊢
  split at hmatch
  · exact settle_binding backed_noCandidates dm isTimeout hmatch
  case h_2 head _ =>
    split at hmatch
    case isTrue hcur =>
      rw [if_pos hcur]
      exact settle_binding backed_noCandidates dm isTimeout hmatch
    case isFalse hcur =>
      rw [if_neg hcur]
      refine settle_binding (backed_searchRealm rx dm head isTimeout) _ _
        (hmatch.imp_right fun hboth => ⟨hboth.1, ?_⟩)
      show (isTimeout || _) = true
      rw [hboth.2, Bool.true_or]

/-! ## What the tests leave as it is -/

theorem pinging_settle (dm : Dmachine) (c : Candidates) (isTimeout : Bool) :
    (settle dm c isTimeout).2.pinging = dm.pinging := by
  unfold settle
  split
  · rfl
  · rfl

theorem pinging_checkMatch (rx : Regex) (dm : Dmachine) (isTimeout : Bool) :
    (checkMatch rx dm isTimeout).2.pinging = dm.pinging := by
  unfold checkMatch
  split
  · exact pinging_settle _ _ _
  · split
    · exact pinging_settle _ _ _
    · exact pinging_settle _ _ _

theorem pinging_examine (rx : Regex) (dm : Dmachine) (now : Int) :
    (examine rx dm now).dm.pinging = dm.pinging :=
  pinging_checkMatch rx _ _

theorem examine_binding (rx : Regex) (dm : Dmachine) (now : Int)
    (hfound : verdict (examine rx dm now).dm (examine rx dm now).isMatch (examine rx dm now).isTimeout =
      .found) :
    (examine rx dm now).dm.lastMatchingBinding.isSome = true := by
  apply checkMatch_binding
  revert hfound
  unfold verdict
  split
  · exact fun h => nomatch h
  split
  · exact fun h => nomatch h
  split
  case isTrue hmatch =>
    intro _
    refine hmatch.imp_right fun ⟨hboth, htimeout⟩ => ⟨hboth, ?_⟩
    have hboth' : (checkMatch rx (checkTimeout dm now).2 (checkTimeout dm now).1).1 =
        .matchBoth := hboth
    have htimeout' : ((checkTimeout dm now).1 ||
        decide ((checkMatch rx (checkTimeout dm now).2 (checkTimeout dm now).1).1 = .matchNever)) =
          true := htimeout
    rwa [hboth', decide_eq_false (by decide), Bool.or_false] at htimeout'
  case isFalse =>
    split
    · exact fun h => nomatch h
    split
    · exact fun h => nomatch h
    · exact fun h => nomatch h

/-! ## Calls inside a ping -/

variable {θ : Type} [DecidableEq θ] {rx : Regex} {t : θ}

/-- The mutex, held by one thread as often as it says. -/
def holding (t : θ) : Nat → Mutex θ
  | 0 => none
  | n + 1 => some (t, n)

theorem lock_holding (t : θ) (n : Nat) : (holding t n).lock t = some (holding t (n + 1)) := by
  cases n with
  | zero => rfl
  | succ n => exact if_pos rfl

omit [DecidableEq θ] in
theorem unlock_holding (t : θ) (n : Nat) : (holding t (n + 1)).unlock = holding t n := by
  cases n with
  | zero => rfl
  | succ n => rfl

theorem held_holding (t : θ) (n : Nat) : (holding t n).held t = n := by
  cases n with
  | zero => rfl
  | succ n => exact if_pos rfl

theorem holding_or_other (t : θ) (m : Mutex θ) :
    (∃ n, m = holding t n) ∨ ∃ owner n, owner ≠ t ∧ m = some (owner, n) := by
  rcases m with _ | ⟨owner, n⟩
  · exact .inl ⟨0, rfl⟩
  · by_cases howner : owner = t
    · exact .inl ⟨n + 1, howner ▸ rfl⟩
    · exact .inr ⟨owner, n, howner, rfl⟩

/-- The calls of callbacks that get as far as a `ping`. -/
def leaks : Call × Dmachine → Bool
  | (.ping .., _) => true
  | (.feed .nil, _) => false
  | (.feed (.cons ..), dm) => decide (dm.curDigitLen < dm.maxDigitLen)

/-- A `ping` of `t` is at work, and `t` holds the mutex `n` times. -/
structure Within (t : θ) (n : Nat) (s : State θ) : Prop where
  pinging : s.dm.pinging = true
  mutex : s.mutex = holding t n

/-- From one state inside a `ping` to a later one: every leak leaves the mutex taken once more. -/
def Grows (t : θ) (n : Nat) (s s' : State θ) : Prop :=
  ∃ new, s'.nested = s.nested ++ new ∧ Within t (n + new.countP leaks) s'

variable {n : Nat} {s : State θ}

omit [DecidableEq θ] in
theorem Within.grows_self {s' : State θ} (h : Within t n s') (hnested : s'.nested = s.nested) :
    Grows t n s s' :=
  ⟨[], by rw [hnested, List.append_nil], h⟩

omit [DecidableEq θ] in
/-- What comes later is counted on top. -/
theorem Grows.andThen {α : Type} {s' : State θ} {o : Option α} {g : α → State θ} (h : Grows t n s s')
    (h' : ∀ m, Within t m s' → ∃ out, o = some out ∧ Grows t m s' (g out)) :
    ∃ out, o = some out ∧ Grows t n s (g out) := by
  obtain ⟨new, hnew, hwithin⟩ := h
  obtain ⟨out, heq, new', hnew', hwithin'⟩ := h' _ hwithin
  refine ⟨out, heq, new ++ new', by rw [hnew', hnew, List.append_assoc], ?_⟩
  rwa [List.countP_append, ← Nat.add_assoc]

theorem ping_within (rx : Regex) (h : Within t n s)
    (reacts : Callback → State θ → Option (Status × State θ))
    (now : Int) : ∃ s', ping rx t reacts now s = some (.break_, s') ∧ Within t (n + 1) s' ∧
    s'.nested = s.nested := by
  have hpinging : (examine rx s.dm now).dm.pinging = true :=
    (pinging_examine rx s.dm now).trans h.pinging
  refine ⟨{ s with dm := (examine rx s.dm now).dm, mutex := holding t (n + 1) }, ?_,
    ⟨hpinging, rfl⟩, rfl⟩
  unfold ping pingExamined
  rw [h.mutex, lock_holding]
  exact if_pos hpinging

/-- A `feed` that has its status pings no more. -/
theorem Keys.run_stopped (rx : Regex) :
    ∀ (keys : Keys) {status : Status} {s : State θ}, status ≠ .success → Within t n s →
    ∃ out, keys.run rx t status s = some out ∧ Within t n out.2 ∧ out.2.nested = s.nested
  | .nil, status, s, _, h => ⟨(status, s), rfl, h, rfl⟩
  | .cons digit stamp now does rest, status, s, hstatus, h => by
    have hdigit : ∃ out, feedDigit t (ping rx t (does.run rx t) now) digit stamp status s = some out ∧
        out.1 ≠ .success ∧ Within t n out.2 ∧ out.2.nested = s.nested := by
      unfold feedDigit
      rw [h.mutex, lock_holding]
      dsimp only
      split
      · exact ⟨_, rfl, hstatus, ⟨h.pinging, unlock_holding t n⟩, rfl⟩
      · exact ⟨_, rfl, by simp, ⟨h.pinging, unlock_holding t n⟩, rfl⟩
    obtain ⟨out, heq, hne, hwithin, hnested⟩ := hdigit
    obtain ⟨out', heq', hwithin', hnested'⟩ := Keys.run_stopped rx rest hne hwithin
    refine ⟨out', ?_, hwithin', hnested'.trans hnested⟩
    show (feedDigit t _ digit stamp status s).bind _ = _
    rw [heq]
    exact heq'

theorem Call.run_within (rx : Regex) (h : Within t n s) (call : Call) :
    ∃ out, call.run rx t s = some out ∧ Grows t n s out.2 := by
  have henter : s.enter call = { s with nested := s.nested ++ [(call, s.dm)] } := if_pos h.pinging
  have hentered : Within t n { s with nested := s.nested ++ [(call, s.dm)] } := ⟨h.pinging, h.mutex⟩
  cases call with
  | ping now does =>
    obtain ⟨s', heq, hwithin, hnested⟩ := ping_within rx hentered (does.run rx t) now
    refine ⟨(.break_, s'), ?_, [(.ping now does, s.dm)], hnested, hwithin⟩
    show Ivr.ping rx t (does.run rx t) now (s.enter _) = _
    rw [henter, heq]
  | feed keys =>
    cases keys with
    | nil => exact ⟨_, rfl, by rw [henter]; exact ⟨[(.feed .nil, s.dm)], rfl, h.pinging, h.mutex⟩⟩
    | cons digit stamp now does rest =>
      -- the first digit finds room and pings, or the rest is refused as it is
      have hdigit : ∃ out, feedDigit t (Ivr.ping rx t (does.run rx t) now) digit stamp .success
          { s with nested := s.nested ++ [(.feed (.cons digit stamp now does rest), s.dm)] } =
            some out ∧ out.1 ≠ .success ∧
            Within t (n + if s.dm.curDigitLen < s.dm.maxDigitLen then 1 else 0) out.2 ∧
              out.2.nested = s.nested ++ [(.feed (.cons digit stamp now does rest), s.dm)] := by
        unfold feedDigit
        dsimp only
        rw [h.mutex, lock_holding]
        dsimp only
        by_cases hroom : s.dm.curDigitLen < s.dm.maxDigitLen
        · rw [if_pos hroom, if_pos rfl, if_pos hroom, unlock_holding]
          obtain ⟨s', heq, hwithin, hnested⟩ := ping_within rx
            (⟨h.pinging, rfl⟩ : Within t n { s with
              dm := collect s.dm digit stamp
              mutex := holding t n
              nested := s.nested ++ [(.feed (.cons digit stamp now does rest), s.dm)] })
                (does.run rx t) now
          exact ⟨_, heq, by simp, hwithin, hnested⟩
        · rw [if_neg hroom, if_neg hroom, unlock_holding]
          exact ⟨_, rfl, by simp, ⟨h.pinging, rfl⟩, rfl⟩
      obtain ⟨out, heq, hne, hwithin, hnested⟩ := hdigit
      obtain ⟨out', heq', hwithin', hnested'⟩ := Keys.run_stopped rx rest hne hwithin
      refine ⟨out', ?_, [(.feed (.cons digit stamp now does rest), s.dm)], hnested'.trans hnested, ?_⟩
      · show (feedDigit t _ digit stamp .success (s.enter _)).bind _ = _
        rw [henter, heq]
        exact heq'
      · have hcount : [(Call.feed (.cons digit stamp now does rest), s.dm)].countP leaks =
            if s.dm.curDigitLen < s.dm.maxDigitLen then 1 else 0 := by
          rw [List.countP_singleton]
          show (if decide _ = true then 1 else 0) = _
          simp only [decide_eq_true_eq]
        rwa [hcount]

theorem Calls.run_within (rx : Regex) : ∀ (calls : Calls) {n : Nat} {s : State θ}, Within t n s →
    ∃ s', calls.run rx t s = some s' ∧ Grows t n s s'
  | .nil, _, s, h => ⟨s, rfl, h.grows_self rfl⟩
  | .cons call rest, _, s, h => by
    obtain ⟨out, heq, hgrows⟩ := call.run_within rx h
    show ∃ s', (call.run rx t s).bind _ = some s' ∧ _
    rw [heq]
    exact hgrows.andThen (g := id) fun m hm => rest.run_within rx hm

/-! ## What the callbacks do -/

/-- Callbacks that return, and that do nothing but calls. -/
def Returning (t : θ) (reacts : Callback → State θ → Option (Status × State θ)) : Prop :=
  ∀ which n s, Within t n s → ∃ out, reacts which s = some out ∧ Grows t n s out.2

theorem returning_run (does : Reactions) : Returning t (does.run rx t) := by
  intro which n s h
  cases does with
  | mk bound boundStatus matched matchedStatus failed failedStatus =>
    have hmap : ∀ (calls : Calls) (status : Status),
        ∃ out, (calls.run rx t s).map (fun s => (status, s)) = some out ∧ Grows t n s out.2 := by
      intro calls status
      obtain ⟨s', heq, hgrows⟩ := calls.run_within rx h
      exact ⟨(status, s'), by rw [heq]; rfl, hgrows⟩
    cases which with
    | bound => exact hmap bound boundStatus
    | matched => exact hmap matched matchedStatus
    | failed => exact hmap failed failedStatus

variable {reacts : Callback → State θ → Option (Status × State θ)}

omit [DecidableEq θ] in
theorem runCallback_within (hreacts : Returning t reacts) (h : Within t n s) (which : Callback)
    (callback : Option Nat) (r : Status) :
    ∃ out, runCallback reacts which callback r s = some out ∧ Grows t n s out.2 := by
  unfold runCallback
  split
  · obtain ⟨out, heq, hgrows⟩ := hreacts which n s h
    rw [heq]
    exact ⟨_, rfl, hgrows⟩
  · exact ⟨_, rfl, h.grows_self rfl⟩

omit [DecidableEq θ] in
theorem respond_within (hreacts : Returning t reacts) (h : Within t n s) (r : Status)
    (hbinding : r = .found → s.dm.lastMatchingBinding.isSome = true) :
    ∃ out, respond reacts r s = some out ∧ Grows t n s out.2 := by
  -- what is cleared is not what is counted
  have hcleared : ∀ {o : Option (Status × State θ)}, (∃ out, o = some out ∧ Grows t n s out.2) →
      ∃ out, o.map (fun out => (out.1, { out.2 with dm := clear out.2.dm })) = some out ∧
        Grows t n s out.2 := by
    rintro o ⟨out, rfl, new, hnew, hwithin⟩
    exact ⟨_, rfl, new, hnew, hwithin.pinging, hwithin.mutex⟩
  unfold respond
  split
  case isTrue hfound =>
    refine hcleared ?_
    obtain ⟨bp, hbp⟩ := Option.isSome_iff_exists.mp (hbinding hfound)
    obtain ⟨out, heq, hgrows⟩ := runCallback_within hreacts
      (⟨h.pinging, h.mutex⟩ : Within t n { s with reports := s.reports ++
        [.positive bp.key bp.userData s.dm.lastMatchingDigits] })
      .bound bp.callback .found
    unfold reportMatch
    rw [hbp]
    show ∃ out, (runCallback reacts .bound bp.callback .found _).bind _ = some out ∧ _
    rw [heq]
    exact hgrows.andThen fun m hm => runCallback_within hreacts hm .matched out.2.dm.matchCallback out.1
  · split
    · exact ⟨_, rfl, h.grows_self rfl⟩
    · refine hcleared ?_
      exact runCallback_within hreacts (⟨h.pinging, h.mutex⟩ : Within t n { s with
        dm := { s.dm with lastFailedDigits := setString s.dm.digits }
        reports := s.reports ++ [.negative (setString s.dm.digits)] }) .failed s.dm.nonmatchCallback r

/-! ## Outside a ping -/

/-- No `ping` is at work, and `t` holds the mutex `n` times, if anybody does. -/
structure Outside (t : θ) (n : Nat) (s : State θ) : Prop where
  pinging : s.dm.pinging = false
  mutex : s.mutex = holding t n

/-- From one state outside any `ping` to a later one. -/
def Leaves (t : θ) (n : Nat) (s s' : State θ) : Prop :=
  ∃ new, s'.nested = s.nested ++ new ∧ Outside t (n + new.countP leaks) s'

theorem ping_outside (hreacts : Returning t reacts) (h : Outside t n s) (now : Int) :
    ∃ out, ping rx t reacts now s = some out ∧ Leaves t n s out.2 := by
  have hpinging : (examine rx s.dm now).dm.pinging = false :=
    (pinging_examine rx s.dm now).trans h.pinging
  have hwithin : Within t (n + 1) { s with
    dm := { (examine rx s.dm now).dm with pinging := true }, mutex := holding t (n + 1) } := ⟨rfl, rfl⟩
  obtain ⟨out, heq, new, hnew, hout⟩ := respond_within hreacts hwithin
    (verdict (examine rx s.dm now).dm (examine rx s.dm now).isMatch (examine rx s.dm now).isTimeout)
    (examine_binding rx s.dm now)
  refine ⟨finish out, ?_, new, hnew, rfl, ?_⟩
  · unfold ping pingExamined
    rw [h.mutex, lock_holding]
    dsimp only
    rw [hpinging, if_neg Bool.false_ne_true, heq]
    rfl
  · show out.2.mutex.unlock = _
    rw [hout.mutex, Nat.add_right_comm, unlock_holding]

theorem Keys.run_outside (rx : Regex) :
    ∀ (keys : Keys) {n : Nat} {status : Status} {s : State θ}, Outside t n s →
    ∃ out, keys.run rx t status s = some out ∧ Leaves t n s out.2
  | .nil, n, status, s, h => ⟨(status, s), rfl, [], (List.append_nil _).symm, h⟩
  | .cons digit stamp now does rest, n, status, s, h => by
    have hdigit : ∃ out, feedDigit t (ping rx t (does.run rx t) now) digit stamp status s =
        some out ∧ Leaves t n s out.2 := by
      unfold feedDigit
      rw [h.mutex, lock_holding]
      dsimp only
      split
      · have hcollected : Outside t n
            { s with dm := collect s.dm digit stamp, mutex := (holding t (n + 1)).unlock } :=
          ⟨h.pinging, unlock_holding t n⟩
        split
        · exact ping_outside (returning_run does) hcollected now
        · exact ⟨_, rfl, [], (List.append_nil _).symm, hcollected⟩
      · exact ⟨_, rfl, [], (List.append_nil _).symm, h.pinging, unlock_holding t n⟩
    obtain ⟨out, heq, new, hnew, hout⟩ := hdigit
    obtain ⟨out', heq', new', hnew', hout'⟩ := Keys.run_outside rx rest hout
    refine ⟨out', ?_, new ++ new', by rw [hnew', hnew, List.append_assoc], ?_⟩
    · show (feedDigit t _ digit stamp status s).bind _ = _
      rw [heq]
      exact heq'
    · rwa [List.countP_append, ← Nat.add_assoc]

theorem Call.run_outside (rx : Regex) (h : Outside t n s) (call : Call) :
    ∃ out, call.run rx t s = some out ∧ Leaves t n s out.2 := by
  have henter : s.enter call = s := if_neg (by rw [h.pinging]; exact Bool.false_ne_true)
  cases call with
  | ping now does =>
    show ∃ out, Ivr.ping rx t (does.run rx t) now (s.enter _) = some out ∧ _
    rw [henter]
    exact ping_outside (returning_run does) h now
  | feed keys =>
    show ∃ out, keys.run rx t keys.status (s.enter _) = some out ∧ _
    rw [henter]
    exact keys.run_outside rx h

/-- While another thread has the mutex, a `ping` does nothing with it, and a `feed` waits. -/
theorem Call.run_waiting {owner : θ} {call : Call} {out : Status × State θ} (howner : owner ≠ t)
    (hmutex : s.mutex = some (owner, n)) (hrun : call.run rx t s = some out) :
    out.2.mutex = s.mutex ∧ out.2.nested = (s.enter call).nested := by
  have henter : (s.enter call).mutex = some (owner, n) := by
    rw [← hmutex, State.enter]
    split <;> rfl
  have hlock : Mutex.lock t (some (owner, n)) = none := if_neg howner
  rw [hmutex]
  cases call with
  | ping now does =>
    have hping : Ivr.ping rx t (does.run rx t) now (s.enter _) = some out := hrun
    unfold Ivr.ping pingExamined at hping
    rw [henter, hlock] at hping
    obtain rfl := Option.some.inj hping
    exact ⟨rfl, rfl⟩
  | feed keys =>
    have hkeys : keys.run rx t keys.status (s.enter _) = some out := hrun
    cases keys with
    | nil =>
      obtain rfl := Option.some.inj hkeys
      exact ⟨henter, rfl⟩
    | cons digit stamp now does rest =>
      generalize s.enter (.feed (.cons digit stamp now does rest)) = s₁ at henter hkeys
      have hdigit : feedDigit t (Ivr.ping rx t (does.run rx t) now) digit stamp .success s₁ = none := by
        unfold feedDigit
        rw [henter, hlock]
      have hnone : (feedDigit t (Ivr.ping rx t (does.run rx t) now) digit stamp .success s₁).bind _ =
          some out := hkeys
      rw [hdigit] at hnone
      exact nomatch hnone

/-- **A call gives the mutex back exactly if no callback got as far as a `ping`.** Then another thread
need not wait for it. While another thread has the mutex, inside a `ping` or not, a call leaves it to
that thread. -/
theorem mutex_kept_iff (rx : Regex) (t : θ) (call : Call) (s : State θ) :
    (s.dm.pinging = false →
      (∀ n, s.mutex = holding t n → (call.run rx t s).isSome = true) ∧
        ∀ out, call.run rx t s = some out → ∃ new, out.2.nested = s.nested ++ new ∧
          (out.2.mutex.held t = s.mutex.held t ↔ ∀ made ∈ new, leaks made = false) ∧
            (s.mutex = none → (∀ made ∈ new, leaks made = false) → ∀ t',
              (out.2.mutex.lock t').isSome = true)) ∧
      ∀ owner n, owner ≠ t → s.mutex = some (owner, n) → ∀ out, call.run rx t s = some out →
        out.2.mutex = s.mutex := by
  refine ⟨fun hpinging => ⟨fun n hmutex => ?_, fun out hrun => ?_⟩,
    fun owner n howner hmutex out hrun =>
    (Call.run_waiting howner hmutex hrun).1⟩
  · obtain ⟨out, heq, -⟩ := Call.run_outside rx ⟨hpinging, hmutex⟩ call
    rw [heq]
    rfl
  rcases holding_or_other t s.mutex with ⟨n, hmutex⟩ | ⟨owner, n, howner, hmutex⟩
  · obtain ⟨out', heq, new, hnew, hout⟩ := Call.run_outside rx ⟨hpinging, hmutex⟩ call
    obtain rfl := Option.some.inj (heq.symm.trans hrun)
    have hcount : (∀ made ∈ new, leaks made = false) ↔ new.countP leaks = 0 := by
      rw [List.countP_eq_zero]
      exact forall₂_congr fun made _ => (Bool.not_eq_true _).symm.to_iff
    refine ⟨new, hnew, ?_, fun hfree hquiet t' => ?_⟩
    · rw [hout.mutex, hmutex, held_holding, held_holding, hcount]
      omega
    · rw [hout.mutex, hcount.mp hquiet]
      have hn : n = 0 := by
        cases n with
        | zero => rfl
        | succ n => exact nomatch hfree.symm.trans hmutex
      rw [hn]
      rfl
  · obtain ⟨hsame, hnested⟩ := Call.run_waiting howner hmutex hrun
    rw [State.enter, hpinging] at hnested
    refine ⟨[], by rw [List.append_nil]; exact hnested, ?_,
      fun hfree => nomatch hfree.symm.trans hmutex⟩
    rw [hsame]
    exact ⟨fun _ made hmade => absurd hmade List.not_mem_nil, fun _ => rfl⟩

/-- No regular expression fits anything. -/
def noRegex : Regex := ⟨fun _ _ => false, fun _ _ _ => none⟩

/-- A machine with the binding `1` and a callback for matches. -/
def oneBinding : State Unit :=
  ⟨(bind (create 0 0 (some 1) none 0) [] ⟨bytes "1", false, 1, none, 0⟩).2, none, [], []⟩

/-- The callback for matches makes some calls. -/
def onMatch (calls : Calls) : Reactions := .mk .nil .success calls .success .nil .success

/-- The digit `1` is fed, and the callback feeds another digit. -/
def feedOnMatch : Call :=
  .feed (.cons 49 1 1 (onMatch (.cons (.feed (.cons 50 2 2 (onMatch .nil) .nil)) .nil)) .nil)

/-- The mutex is free again, and any thread can take it: the callback has fed one digit too many. -/
theorem mutex_kept_iff_feed : ∃ out, feedOnMatch.run noRegex () oneBinding = some out ∧
    out.2.mutex.held () = oneBinding.mutex.held () ∧ ∀ t', (out.2.mutex.lock t').isSome = true := by
  obtain ⟨hreturns, hkept⟩ := (mutex_kept_iff noRegex () feedOnMatch oneBinding).1 rfl
  obtain ⟨out, hout⟩ := Option.isSome_iff_exists.mp (hreturns 0 rfl)
  obtain ⟨new, hnew, hiff, hfree⟩ := hkept out hout
  have hnested : ((feedOnMatch.run noRegex () oneBinding).any fun out => out.2.nested.all fun made =>
      !leaks made) = true := by
    decide +kernel
  rw [hout, Option.any_some, hnew] at hnested
  have hquiet : ∀ made ∈ new, leaks made = false := by
    simpa [oneBinding] using hnested
  exact ⟨out, hout, hiff.mpr hquiet, hfree rfl hquiet⟩

/-- The digit `1` is fed, and the callback calls `ping`. -/
def pingOnMatch : Call := .feed (.cons 49 1 1 (onMatch (.cons (.ping 2 (onMatch .nil)) .nil)) .nil)

/-- The mutex stays taken. -/
theorem mutex_not_kept : oneBinding.dm.pinging = false ∧
    (pingOnMatch.run noRegex () oneBinding).any fun out =>
      out.2.mutex.held () != oneBinding.mutex.held () := by
  refine ⟨rfl, ?_⟩
  decide +kernel

end FreeSwitch.Ivr
