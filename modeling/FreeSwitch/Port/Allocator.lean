import Mathlib.Tactic

/-!
# Port allocator — `src/switch_core_port_allocator.c`

An allocator keeps one signed byte per slot of its table: 1 for a port that is handed out,
0 for a free one, and a negative count for a port that was freed a short while ago. A request
draws a slot at random and walks up from there; every negative count it passes goes up by
one, so that a freed port comes back after a few walks only.

`next`, `ip`, the mutex and the pool of the source's record are left out: no modelled function
reads them. What a request takes from outside is a `Draws`.
-/

namespace FreeSwitch.Port

/-! ## Data -/

/-- `switch_port_flag_t`. -/
structure PortFlags where
  odd : Bool
  even : Bool
  robustTcp : Bool
  robustUdp : Bool
  deriving DecidableEq

/-- `SWITCH_STATUS_SUCCESS`, `SWITCH_STATUS_FALSE` and `SWITCH_STATUS_GENERR`. -/
inductive Status where
  | success
  | failure
  | generr
  deriving DecidableEq

/-- `track` is the table; `trackLen + 2` of its bytes belong to the allocator. The bytes hold
1, or a number from -4 to 0, so no `int8_t` overflows; `trackUsed` goes down only when a
positive byte is cleared. -/
structure PortAllocator where
  start : UInt16
  end_ : UInt16
  track : Nat → Int
  trackLen : Nat
  trackUsed : Nat
  flags : PortFlags

/-- What pass number `k` of a request gets from outside: `rand()`, and the outcome of the two
`test_port` calls. -/
structure Draws where
  rand : Nat → Nat
  testUdp : Nat → Bool
  testTcp : Nat → Bool

/-! ## Creation -/

/-- `start` rounded up to the parity asked for. -/
def adjustStart (flags : PortFlags) (start : UInt16) : UInt16 :=
  if flags.even && flags.odd then start
  else if flags.even then (if start % 2 ≠ 0 then start + 1 else start)
  else if flags.odd then (if start % 2 = 0 then start + 1 else start)
  else start

/-- `end` rounded down to the parity asked for. -/
def adjustEnd (flags : PortFlags) (end_ : UInt16) : UInt16 :=
  if flags.even && flags.odd then end_
  else if flags.even then (if end_ % 2 ≠ 0 then end_ - 1 else end_)
  else if flags.odd then (if end_ % 2 = 0 then end_ - 1 else end_)
  else end_

/-- `runtimeRobustUdp` is `runtime.port_alloc_flags`, in which the core sets no other bit. -/
def switchCorePortAllocatorNew (runtimeRobustUdp : Bool) (start end_ : UInt16)
    (flags : PortFlags) : PortAllocator :=
  let start := adjustStart flags start
  let end_ := adjustEnd flags end_
  -- `int` arithmetic, stored into a `uint32_t`
  let trackLen := (((end_.toNat : Int) - start.toNat + 2) % 2 ^ 32).toNat
  { start
    end_
    track := fun _ => 0
    trackLen := if flags.even && flags.odd then trackLen else trackLen / 2
    trackUsed := 0
    flags := { flags with robustUdp := flags.robustUdp || runtimeRobustUdp } }

/-! ## Request -/

/-- Where the walk up the table stopped, with how many of its tries left. -/
structure Walk where
  index : Nat
  left : Nat
  track : Nat → Int

/-- The count of a slot the walk passes. -/
def bump (v : Int) : Int := if v < 0 then v + 1 else v

/-- `while (track[index] && tries < track_len)`; the second argument counts the tries left. -/
def walk (trackLen : Nat) : Nat → Nat → (Nat → Int) → Walk
  | 0, index, track => ⟨index, 0, track⟩
  | left + 1, index, track =>
    if track index = 0 then ⟨index, left + 1, track⟩
    else
      walk trackLen left (if index + 1 ≥ trackLen then 0 else index + 1)
        (Function.update track index (bump (track index)))

/-- The port of slot `index`. -/
def portOf (alloc : PortAllocator) (index : Nat) : UInt16 :=
  if alloc.flags.even && alloc.flags.odd then UInt16.ofNat (index + alloc.start.toNat)
  else UInt16.ofNat (index + alloc.start.toNat / 2) * 2

/-- The robustness checks of pass `k`: where both are asked for, the second decides. -/
def robust (alloc : PortAllocator) (draws : Draws) (k : Nat) : Bool :=
  let r := if alloc.flags.robustUdp then draws.testUdp k else true
  if alloc.flags.robustTcp then draws.testTcp k else r

/-- The outer loop from pass `k` on, for at most `fuel` passes: status and `*port_ptr`. -/
def requestLoop (draws : Draws) : Nat → Nat → PortAllocator →
    Option ((Status × UInt16) × PortAllocator)
  | 0, _, _ => none
  | fuel + 1, k, alloc =>
    if alloc.trackUsed < alloc.trackLen then
      let w := walk alloc.trackLen alloc.trackLen (draws.rand k % alloc.trackLen) alloc.track
      if 0 < w.left then
        if robust alloc draws k then
          some ((.success, portOf alloc w.index),
            { alloc with
              track := Function.update w.track w.index 1
              trackUsed := alloc.trackUsed + 1 })
        else
          requestLoop draws fuel (k + 1)
            { alloc with track := Function.update w.track w.index (-4) }
      else requestLoop draws fuel (k + 1) { alloc with track := w.track }
    else some ((.failure, 0), alloc)

def switchCorePortAllocatorRequestPort (draws : Draws) (fuel : Nat) (alloc : PortAllocator) :
    Option ((Status × UInt16) × PortAllocator) :=
  requestLoop draws fuel 0 alloc

/-! ## Free -/

/-- The slot `free_port` looks at; a port below `start` has none. -/
def slotOf (alloc : PortAllocator) (port : UInt16) : Option Nat :=
  if port < alloc.start then none
  else
    let index := port.toNat - alloc.start.toNat
    some (if alloc.flags.even && alloc.flags.odd then index else index / 2)

/-- `none`: the slot lies outside the table's memory. -/
def switchCorePortAllocatorFreePort (alloc : PortAllocator) (port : UInt16) :
    Option (Status × PortAllocator) :=
  match slotOf alloc port with
  | none => some (.generr, alloc)
  | some index =>
    if alloc.trackLen + 2 ≤ index then none
    else if 0 < alloc.track index then
      some (.success,
        { alloc with
          track := Function.update alloc.track index (-4)
          trackUsed := alloc.trackUsed - 1 })
    else some (.failure, alloc)

end FreeSwitch.Port
