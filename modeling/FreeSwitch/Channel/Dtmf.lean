import FreeSwitch.Channel.Hangup
import FreeSwitch.Utils

/-!
# The digits of a channel — `src/switch_channel.c`

Digits go through `dtmf_queue`, and from there to `dtmf_log_queue`, of which the variable
`digits_dialed` is made. A digit that is queued while the variable `sensitive_dtmf` is true has a flag.
`switch_channel_dequeue_dtmf` looks at the flag; `switch_channel_flush_dtmf` does not.

* **`step`** — the calls on a channel.
* **`log_flush`** — what a flush does to the log.
* **`sensitive_unlogged_iff`** — the runs in which no digit that was queued as a secret gets into the
  log.
* **`sensitive_dialed`** — one in which a digit does.
-/

namespace FreeSwitch.Channel

open CString Runs SwitchChannelState

/-! ## Digits -/

inductive SwitchDtmfSource where
  | unknown | inbandAudio | rtp | endpoint | app
  deriving DecidableEq

structure SwitchDtmf where
  digit : UInt8
  duration : Nat
  /-- `DTMF_FLAG_SKIP_PROCESS` and `DTMF_FLAG_SENSITIVE`. -/
  skipProcess : Bool
  sensitive : Bool
  source : SwitchDtmfSource
  deriving DecidableEq

def isDtmf (key : UInt8) : Bool :=
  (47 < key && key < 58) || (64 < key && key < 69) || (96 < key && key < 101) || key == 35 || key == 42
    || key == 87 || key == 119 || key == 70 || key == 102

/-- A digit in a queue. `secret` is for the statements only: whether the variable was true when the
digit was queued. -/
structure Queued where
  dtmf : SwitchDtmf
  secret : Bool
  deriving DecidableEq

def switchDtmfLogLen : Nat := 1000

/-- Both queues have this many places. -/
def switchQueueTrypush (q : List Queued) (d : Queued) : Option (List Queued) :=
  if q.length < switchDtmfLogLen then some (q ++ [d]) else none

/-! ## Calls -/

/-- The digits that `switch_channel_set_timestamps` takes for `digits_dialed` are in `dialed`. -/
structure DtmfChannel where
  state : SwitchChannelState
  sensitiveDtmf : Option Str
  dtmfQueue : List Queued
  dtmfLogQueue : List Queued
  timestampSet : Bool
  dialed : List Queued

/-- `switch_core_max_dtmf_duration(0)` and its likes. -/
structure Durations where
  max : Nat
  min : Nat
  default : Nat

section

variable (dur : Durations)

def queuedDuration (d : SwitchDtmf) : Nat :=
  let duration :=
    if d.digit ≠ 119 ∧ d.digit ≠ 87 then
      if dur.max < d.duration then dur.max else if d.duration < dur.min then dur.min else d.duration
    else d.duration
  if duration = 0 then dur.default else duration

/-- The oldest digits make room, a hundred times at most. -/
def pushDtmf : Nat → List Queued → Queued → List Queued × Bool
  | left, q, d =>
    match switchQueueTrypush q d with
    | some q => (q, true)
    | none =>
      match left with
      | 0 => (q.tail, false)
      | left + 1 => pushDtmf left q.tail d

/-- `received` is whether `switch_core_session_recv_dtmf` succeeds. -/
def switchChannelQueueDtmf (ch : DtmfChannel) (dtmf : SwitchDtmf)
    (received : Bool) : DtmfChannel × Bool :=
  let sensitive := switchTrue ch.sensitiveDtmf
  let newDtmf := { dtmf with sensitive := dtmf.sensitive || sensitive }
  if !received then (ch, false)
  else if isDtmf newDtmf.digit then
    let dt := { newDtmf with duration := queuedDuration dur newDtmf }
    let (q, pushed) := pushDtmf 100 ch.dtmfQueue ⟨dt, sensitive⟩
    ({ ch with dtmfQueue := q }, pushed)
  else (ch, true)

def dequeuedDuration (duration : Nat) : Nat :=
  if dur.max < duration then dur.max
  else if duration < dur.min then dur.min
  else if duration = 0 then dur.default
  else duration

def switchChannelDequeueDtmf (ch : DtmfChannel) : DtmfChannel × Option SwitchDtmf :=
  match ch.dtmfQueue with
  | [] => (ch, none)
  | d :: q =>
    let log := if d.dtmf.sensitive then
      ch.dtmfLogQueue else (switchQueueTrypush ch.dtmfLogQueue d).getD ch.dtmfLogQueue
    ({ ch with dtmfQueue := q, dtmfLogQueue := log },
      some { d.dtmf with duration := dequeuedDuration dur d.dtmf.duration })

/-- The log behind the loop of `switch_channel_flush_dtmf`. -/
def flushLoop (hungUp : Bool) : List Queued → List Queued → List Queued
  | [], log => log
  | d :: q, log =>
    flushLoop hungUp q (if hungUp then log else (switchQueueTrypush log d).getD log)

def switchChannelFlushDtmf (ch : DtmfChannel) : DtmfChannel :=
  { ch with
    dtmfQueue := []
    dtmfLogQueue := flushLoop (decide (csHangup ≤ ch.state)) ch.dtmfQueue ch.dtmfLogQueue }

/-- As far as it is about digits. The channel has its profile and variables. -/
def switchChannelSetTimestamps (ch : DtmfChannel) : DtmfChannel :=
  if ch.timestampSet then ch
  else
    { ch with
      timestampSet := true
      dtmfLogQueue := ch.dtmfLogQueue.drop switchDtmfLogLen
      dialed := ch.dtmfLogQueue.take switchDtmfLogLen }

inductive DtmfCall where
  | setSensitive (value : Option Str)
  | setState (state : SwitchChannelState)
  | queue (dtmf : SwitchDtmf) (received : Bool)
  | dequeue
  | flush
  | setTimestamps

def step (ch : DtmfChannel) : DtmfCall → DtmfChannel
  | .setSensitive value => { ch with sensitiveDtmf := value }
  | .setState state => { ch with state := state }
  | .queue dtmf received => (switchChannelQueueDtmf dur ch dtmf received).1
  | .dequeue => (switchChannelDequeueDtmf dur ch).1
  | .flush => switchChannelFlushDtmf ch
  | .setTimestamps => switchChannelSetTimestamps ch

end

/-! ## Secrets -/

/-- No secret is in the log, and none was dialed. -/
def Unlogged (ch : DtmfChannel) : Prop := ∀ d ∈ ch.dtmfLogQueue ++ ch.dialed, d.secret = false

/-- The digits that there is room for in the log. -/
def fitting (ch : DtmfChannel) : List Queued :=
  ch.dtmfQueue.take (switchDtmfLogLen - ch.dtmfLogQueue.length)

/-- A flush is made at `CS_HANGUP` or later, or with no secret that fits into the log. -/
def SafeFlush (ch : DtmfChannel) : DtmfCall → Prop
  | .flush => csHangup ≤ ch.state ∨ ∀ d ∈ fitting ch, d.secret = false
  | _ => True

/-- Secrets have their flag. -/
structure Marked (ch : DtmfChannel) : Prop where
  flagged : ∀ d ∈ ch.dtmfQueue, d.secret = true → d.dtmf.sensitive = true
  unlogged : Unlogged ch

theorem switchQueueTrypush_getD (log : List Queued) (d : Queued) :
    (switchQueueTrypush log d).getD log = log ++ [d].take (switchDtmfLogLen - log.length) := by
  unfold switchQueueTrypush
  split
  · rename_i h
    obtain ⟨n, hn⟩ := Nat.exists_eq_add_of_lt h
    rw [show switchDtmfLogLen - log.length = n + 1 by omega, List.take_succ_cons, List.take_nil]
    rfl
  · rename_i h
    rw [Nat.sub_eq_zero_of_le (Nat.not_lt.mp h), List.take_zero, List.append_nil]
    rfl

/-- Before `CS_HANGUP`, a flush logs what there is room for, whatever it is. -/
theorem log_flush (q log : List Queued) :
    flushLoop false q log = log ++ q.take (switchDtmfLogLen - log.length) := by
  induction q generalizing log with
  | nil => rw [List.take_nil, List.append_nil, flushLoop]
  | cons d q ih =>
    rw [flushLoop, if_neg Bool.false_ne_true, switchQueueTrypush_getD, ih, List.append_assoc]
    cases hroom : switchDtmfLogLen - log.length with
    | zero => simp [hroom]
    | succ n => simp [show switchDtmfLogLen - (log.length + 1) = n by omega]

theorem flushLoop_hungUp (q log : List Queued) : flushLoop true q log = log := by
  induction q with
  | nil => rfl
  | cons d q ih => exact ih

theorem mem_pushDtmf {d x : Queued} :
    ∀ {left : Nat} {q : List Queued}, x ∈ (pushDtmf left q d).1 → x ∈ q ∨ x = d := by
  have hpush : ∀ {q q' : List Queued}, switchQueueTrypush q d = some q' → x ∈ q' → x ∈ q ∨ x = d := by
    intro q q' hq' hx
    unfold switchQueueTrypush at hq'
    split at hq'
    · rw [← Option.some.inj hq', List.mem_append, List.mem_singleton] at hx
      exact hx
    · exact nomatch hq'
  intro left
  induction left with
  | zero =>
    intro q hx
    rw [pushDtmf] at hx
    split at hx
    · rename_i q' hq'
      exact hpush hq' hx
    · exact .inl (List.mem_of_mem_tail hx)
  | succ left ih =>
    intro q hx
    rw [pushDtmf] at hx
    split at hx
    · rename_i q' hq'
      exact hpush hq' hx
    · exact (ih hx).imp_left List.mem_of_mem_tail

section

variable {dur : Durations} {ch : DtmfChannel}

/-- What is queued has the flag if it is a secret. -/
theorem Marked.queue (h : Marked ch) (dtmf : SwitchDtmf) (received : Bool) :
    Marked (switchChannelQueueDtmf dur ch dtmf received).1 := by
  simp only [switchChannelQueueDtmf]
  split
  · exact h
  split
  · refine ⟨fun d hd hsecret => ?_, h.unlogged⟩
    rcases mem_pushDtmf hd with hd | rfl
    · exact h.flagged d hd hsecret
    · show (dtmf.sensitive || switchTrue ch.sensitiveDtmf) = true
      rw [show switchTrue ch.sensitiveDtmf = true from hsecret, Bool.or_true]
  · exact h

theorem Marked.dequeue (h : Marked ch) : Marked (switchChannelDequeueDtmf dur ch).1 := by
  unfold switchChannelDequeueDtmf
  split
  · exact h
  · rename_i d q hq
    refine ⟨fun x hx => h.flagged x (hq ▸ List.mem_cons_of_mem d hx), ?_⟩
    intro x hx
    rcases List.mem_append.mp hx with hx | hx
    · split at hx
      · exact h.unlogged x (List.mem_append_left _ hx)
      · rename_i hflag
        rw [switchQueueTrypush_getD] at hx
        rcases List.mem_append.mp hx with hx | hx
        · exact h.unlogged x (List.mem_append_left _ hx)
        · -- the digit that is logged has no flag, so it is no secret
          rw [List.mem_singleton.mp (List.mem_of_mem_take hx)]
          cases hsecret : d.secret with
          | false => rfl
          | true => exact absurd (h.flagged d (hq ▸ List.mem_cons_self) hsecret) hflag
    · exact h.unlogged x (List.mem_append_right _ hx)

theorem Marked.setTimestamps (h : Marked ch) : Marked (switchChannelSetTimestamps ch) := by
  unfold switchChannelSetTimestamps
  split
  · exact h
  · refine ⟨h.flagged, fun d hd => h.unlogged d (List.mem_append_left _ ?_)⟩
    rcases List.mem_append.mp hd with hd | hd
    · exact List.mem_of_mem_drop hd
    · exact List.mem_of_mem_take hd

/-- A flush before `CS_HANGUP` leaves no secret in the log exactly if none fits into it. -/
theorem Marked.flush_iff (h : Marked ch) :
    Unlogged (switchChannelFlushDtmf ch) ↔ SafeFlush ch .flush := by
  unfold Unlogged SafeFlush switchChannelFlushDtmf
  dsimp only
  by_cases hstate : csHangup ≤ ch.state
  · rw [decide_eq_true hstate, flushLoop_hungUp]
    exact ⟨fun _ => .inl hstate, fun _ => h.unlogged⟩
  · rw [decide_eq_false hstate, log_flush]
    constructor
    · exact fun hall => .inr fun d hd => hall d (List.mem_append_left _ (List.mem_append_right _ hd))
    · intro hsafe d hd
      have hfit := hsafe.resolve_left hstate
      rcases List.mem_append.mp hd with hd | hd
      · rcases List.mem_append.mp hd with hd | hd
        · exact h.unlogged d (List.mem_append_left _ hd)
        · exact hfit d hd
      · exact h.unlogged d (List.mem_append_right _ hd)

theorem Marked.step (h : Marked ch) (call : DtmfCall) (hsafe : SafeFlush ch call) :
    Marked (Channel.step dur ch call) := by
  cases call with
  | setSensitive value => exact ⟨h.flagged, h.unlogged⟩
  | setState state => exact ⟨h.flagged, h.unlogged⟩
  | queue dtmf received => exact h.queue dtmf received
  | dequeue => exact h.dequeue
  | flush => exact ⟨fun d hd => (nomatch hd), h.flush_iff.mpr hsafe⟩
  | setTimestamps => exact h.setTimestamps

end

/-- A channel as `switch_channel_alloc` makes it, in any state. -/
def freshChannel (state : SwitchChannelState) : DtmfChannel := ⟨state, none, [], [], false, []⟩

/-- **No sensitive digit is in the log exactly if no flush before `CS_HANGUP` meets one that fits in.**
-/
theorem sensitive_unlogged_iff (dur : Durations) (state : SwitchChannelState) (calls : List DtmfCall) :
    (∀ done rest, calls = done ++ rest → Unlogged (done.foldl (step dur) (freshChannel state)))
      ↔ ∀ done call rest, calls = done ++ call :: rest →
        SafeFlush (done.foldl (step dur) (freshChannel state)) call := by
  refine prefixes_iff (P := Marked) (fun _ h => h.unlogged) (fun ch call h hunlogged => ?_)
    (fun _ call h hsafe => h.step call hsafe) calls _ ⟨fun d hd => (nomatch hd),
      fun d hd => (nomatch hd)⟩
  cases call with
  | flush => exact h.flush_iff.mp hunlogged
  | _ => trivial

/-- A digit of a PIN, queued while the variable is true and flushed before it is read. -/
def flushedPin : List DtmfCall :=
  [.setSensitive (some (bytes "true")), .queue ⟨49, 2000, false, false, .rtp⟩ true, .flush,
    .setTimestamps]

/-- The digit is among those dialed, though it is a secret one. -/
theorem sensitive_dialed :
    (flushedPin.foldl (step ⟨192000, 400, 2000⟩) (freshChannel csExecute)).dialed
        = [⟨⟨49, 2000, false, true, .rtp⟩, true⟩]
      ∧ ¬Unlogged (flushedPin.foldl (step ⟨192000, 400, 2000⟩) (freshChannel csExecute)) := by
  have hdialed : (flushedPin.foldl (step ⟨192000, 400, 2000⟩) (freshChannel csExecute)).dialed
      = [⟨⟨49, 2000, false, true, .rtp⟩, true⟩] := by
    decide +kernel
  refine ⟨hdialed, fun h => ?_⟩
  exact absurd (h _ (List.mem_append_right _ (hdialed ▸ List.mem_cons_self))) (by decide)

end FreeSwitch.Channel
