import FreeSwitch.Lib.Run
import Mathlib.Data.List.ReduceOption

/-!
# The state handlers of a channel — `src/switch_channel.c`

A channel has 30 places for pointers to tables of state handlers. `state_handler_index` is counted up
before there is a look at the capacity, so every `switch_channel_add_state_handler` that finds no place
moves it further behind the end of the array. `switch_channel_clear_state_handler` goes through the
array up to there.

* **`Tidy`** — the places in use, as a list that the array begins with.
* **`clear_eq`**, **`clear_eq_none`** — what a clear leaves, and when it leaves the array.
* **`state_handlers_iff`** — the sequences of calls in which every call does what it should.
* **`clear_after_two_rejected`** — one that is not of that kind.
-/

namespace FreeSwitch.Channel

open Runs

variable {H : Type}

/-! ## The code -/

def switchMaxStateHandlers : Nat := 30

/-- The two fields. A place that is not in use is `none`. -/
structure HandlerChannel (H : Type) where
  stateHandlers : List (Option H)
  stateHandlerIndex : Int
  deriving DecidableEq

/-- The array as `memset` and `= { 0 }` leave it. -/
def noHandlers : List (Option H) := List.replicate switchMaxStateHandlers none

def newChannel : HandlerChannel H := ⟨noHandlers, 0⟩

/-- `a[i] = h`, or `none` if there is no such place. -/
def store (a : List (Option H)) (i : Nat) (h : Option H) : Option (List (Option H)) :=
  if i < a.length then some (a.set i h) else none

/-- `i++` for an `int`. -/
def incr (i : Int) : Int := if i = 2 ^ 31 - 1 then -2 ^ 31 else i + 1

/-- `none` if an access is outside of the array. -/
def switchChannelAddStateHandler [DecidableEq H] (c : HandlerChannel H) (h : Option H) :
    Option (HandlerChannel H × Int) :=
  match c.stateHandlers.idxOf? h with
  | some x => some (c, x)
  | none =>
    let index := c.stateHandlerIndex
    let c := { c with stateHandlerIndex := incr index }
    if (switchMaxStateHandlers : Int) ≤ c.stateHandlerIndex then some (c, -1)
    else if index < 0 then none
    else (store c.stateHandlers index.toNat h).map fun handlers =>
      ({ c with stateHandlers := handlers }, index)

def switchChannelGetStateHandler (c : HandlerChannel H) (index : Int) : Option (Option H) :=
  if switchMaxStateHandlers ≤ index ∨ c.stateHandlerIndex < index then some none
  else if index < 0 then none
  else c.stateHandlers[index.toNat]?

/-- The test of the two loops. `switch_test_flag(h, SSH_FLAG_STICKY)` is `sticky h`. -/
def keeps [DecidableEq H] (sticky : H → Bool) : Option H → Option H → Bool
  | some h, slot => slot != some h
  | none, slot => slot.any sticky

/-- `for (index = 0; index < i; index++)`, with `filled` for `state_handler_index`. -/
def keepLoop (keep : Option H → Bool) (handlers : List (Option H)) :
    Nat → Nat → List (Option H) → Nat → Option (List (Option H) × Nat)
  | 0, _, newHandlers, filled => some (newHandlers, filled)
  | left + 1, index, newHandlers, filled => do
    let h ← handlers[index]?
    if keep h then
      let newHandlers ← store newHandlers filled h
      keepLoop keep handlers left (index + 1) newHandlers (filled + 1)
    else keepLoop keep handlers left (index + 1) newHandlers filled

def copyLoop (newHandlers : List (Option H)) : Nat → Nat → List (Option H) → Option (List (Option H))
  | 0, _, handlers => some handlers
  | left + 1, index, handlers => do
    let h ← newHandlers[index]?
    let handlers ← store handlers index h
    copyLoop newHandlers left (index + 1) handlers

def switchChannelClearStateHandler [DecidableEq H] (sticky : H → Bool) (c : HandlerChannel H)
    (h : Option H) :
    Option (HandlerChannel H) := do
  let (newHandlers, filled) ← keepLoop (keeps sticky h) c.stateHandlers c.stateHandlerIndex.toNat
    0 noHandlers 0
  let handlers ← copyLoop newHandlers filled 0 noHandlers
  return ⟨handlers, filled⟩

inductive HandlerCall (H : Type) where
  | add (h : Option H)
  | get (index : Nat)
  | clear (h : Option H)

/-- After a call that leaves the array there is nothing to say; here the channel stays as it is. -/
def handlerStep [DecidableEq H] (sticky : H → Bool)
    (c : HandlerChannel H) : HandlerCall H → HandlerChannel H
  | .add h => ((switchChannelAddStateHandler c h).map Prod.fst).getD c
  | .get _ => c
  | .clear h => (switchChannelClearStateHandler sticky c h).getD c

/-! ## What the calls are for -/

/-- The handlers of a channel, in their order. -/
def HandlerChannel.present (c : HandlerChannel H) : List H := c.stateHandlers.reduceOption

/-- The handlers that are to be there after a clear. -/
def remains [DecidableEq H] (sticky : H → Bool) : Option H → H → Bool
  | some h, x => x != h
  | none, x => sticky x

/-- The call stays inside the arrays and does what it should. -/
def Serves [DecidableEq H] (sticky : H → Bool) (c : HandlerChannel H) : HandlerCall H → Prop
  | .add h => ∃ c' index, switchChannelAddStateHandler c h = some (c', index) ∧ c'.present.Nodup
      ∧ (index ≠ -1 → switchChannelGetStateHandler c' index = some h)
  | .get index => ∃ slot, switchChannelGetStateHandler c index = some slot
  | .clear h => ∃ c', switchChannelClearStateHandler sticky c h = some c' ∧ c'.present.Nodup
      ∧ c'.present = c.present.filter (remains sticky h)

/-- No clear finds `state_handler_index` behind the end of the array, and no handler is added when it is
the largest `int`, unless it is there already. -/
def Bearable (c : HandlerChannel H) : HandlerCall H → Prop
  | .add h => h ∈ c.stateHandlers ∨ c.stateHandlerIndex ≠ 2 ^ 31 - 1
  | .get _ => True
  | .clear _ => c.stateHandlerIndex ≤ switchMaxStateHandlers

/-! ## The places in use -/

/-- An array that begins with `front`. -/
def padded (front : List (Option H)) : List (Option H) :=
  front ++ List.replicate (switchMaxStateHandlers - front.length) none

theorem length_padded {front : List (Option H)} (h : front.length ≤ switchMaxStateHandlers) :
    (padded front).length = switchMaxStateHandlers := by
  rw [padded, List.length_append, List.length_replicate]
  omega

theorem reduceOption_padded (front : List (Option H)) :
    (padded front).reduceOption = front.reduceOption := by
  rw [padded, List.reduceOption_append, List.reduceOption_replicate_none, List.append_nil]

/-- The first place behind `front` is free. -/
theorem padded_eq {front : List (Option H)} (h : front.length < switchMaxStateHandlers) :
    padded front = front ++ none :: List.replicate
      (switchMaxStateHandlers - (front.length + 1)) none := by
  obtain ⟨n, hn⟩ := Nat.exists_eq_add_of_lt h
  rw [padded, show switchMaxStateHandlers - front.length = n + 1 by omega,
    show switchMaxStateHandlers - (front.length + 1) = n by omega, List.replicate_succ]

theorem store_padded {front : List (Option H)} (h : front.length < switchMaxStateHandlers)
    (x : Option H) :
    store (padded front) front.length x = some (padded (front ++ [x])) := by
  rw [store, if_pos (by rw [length_padded h.le]; exact h), padded_eq h,
    List.set_append_right _ _ le_rfl, Nat.sub_self,
    padded, List.length_append, List.append_assoc]
  rfl

theorem getElem?_padded (front : List (Option H)) {i : Nat} (h : i < front.length) :
    (padded front)[i]? = front[i]? :=
  List.getElem?_append_left h

/-- What is found behind `front` is a free place. -/
theorem eq_none_of_padded {front : List (Option H)} {i : Nat} {x : Option H} (h : front.length ≤ i)
    (hx : (padded front)[i]? = some x) : x = none := by
  rw [padded, List.getElem?_append_right h] at hx
  exact List.eq_of_mem_replicate (List.mem_of_getElem? hx)

/-- The places before `state_handler_index` are `front`, all others are free. -/
structure Tidy (c : HandlerChannel H) (front : List (Option H)) : Prop where
  slots : c.stateHandlers = padded front
  length : (front.length : Int) = min c.stateHandlerIndex switchMaxStateHandlers
  nodup : front.reduceOption.Nodup
  bound : c.stateHandlerIndex < 2 ^ 31

theorem tidy_newChannel : Tidy (newChannel : HandlerChannel H) [] := by
  refine ⟨rfl, rfl, List.nodup_nil, ?_⟩
  show (0 : Int) < 2 ^ 31
  decide

theorem Tidy.present {c : HandlerChannel H} {front : List (Option H)} (h : Tidy c front) :
    c.present = front.reduceOption := by
  rw [HandlerChannel.present, h.slots, reduceOption_padded]

theorem Tidy.length_le {c : HandlerChannel H} {front : List (Option H)} (h : Tidy c front) :
    front.length ≤ switchMaxStateHandlers := by
  have := h.length
  omega

theorem Tidy.length_stateHandlers {c : HandlerChannel H} {front : List (Option H)} (h : Tidy c front) :
    c.stateHandlers.length = switchMaxStateHandlers := by
  rw [h.slots, length_padded h.length_le]

/-! ## Adding -/

section Add

variable [DecidableEq H] {c : HandlerChannel H} {front : List (Option H)} {h : Option H}

omit [DecidableEq H] in
theorem get_eq (ht : Tidy c front) {index : Nat} {x : Option H}
    (hx : c.stateHandlers[index]? = some x) :
    switchChannelGetStateHandler c index = some x := by
  have hlt : index < switchMaxStateHandlers := by
    rw [← ht.length_stateHandlers]
    exact (List.getElem?_eq_some_iff.mp hx).1
  unfold switchChannelGetStateHandler
  split
  · -- behind `state_handler_index` there are free places only
    have hlength := ht.length
    rw [ht.slots] at hx
    rw [eq_none_of_padded (by omega) hx]
  · rw [if_neg (by omega), Int.toNat_natCast, hx]

theorem add_present (ht : Tidy c front) (hmem : h ∈ c.stateHandlers) :
    ∃ x : Nat, switchChannelAddStateHandler c h = some (c, (x : Int))
      ∧ switchChannelGetStateHandler c x = some h := by
  obtain ⟨x, hx⟩ : ∃ x, c.stateHandlers.idxOf? h = some x := by
    cases hfind : c.stateHandlers.idxOf? h with
    | none => exact absurd hmem (List.idxOf?_eq_none_iff.mp hfind)
    | some x => exact ⟨x, rfl⟩
  refine ⟨x, by rw [switchChannelAddStateHandler, hx], get_eq ht ?_⟩
  obtain ⟨hlt, hget, -⟩ := List.idxOf?_eq_some_iff.mp hx
  rw [List.getElem?_eq_getElem hlt, hget]

/-- With no place left, the add is rejected and the index moves on. -/
theorem add_rejected (ht : Tidy c front) (hmem : h ∉ c.stateHandlers)
    (hfull : (switchMaxStateHandlers : Int) ≤ c.stateHandlerIndex + 1)
    (hmax : c.stateHandlerIndex ≠ 2 ^ 31 - 1) :
    ∃ c' front', switchChannelAddStateHandler c h = some (c', -1) ∧ Tidy c' front' := by
  have hbound := ht.bound
  have hlength := ht.length
  have hincr : incr c.stateHandlerIndex = c.stateHandlerIndex + 1 := if_neg hmax
  have hadd : switchChannelAddStateHandler c h
      = some ({ c with stateHandlerIndex := c.stateHandlerIndex + 1 }, -1) := by
    rw [switchChannelAddStateHandler, List.idxOf?_eq_none_iff.mpr hmem]
    simp only [hincr]
    rw [if_pos hfull]
  by_cases hlast : front.length = switchMaxStateHandlers
  · exact ⟨_, front, hadd, ht.slots, by simp only; omega, ht.nodup, by simp only; omega⟩
  · -- the last place of the array is never used
    have hlt : front.length < switchMaxStateHandlers := lt_of_le_of_ne ht.length_le hlast
    have hslots : padded front = padded (front ++ [none]) := by
      rw [padded_eq hlt, padded, List.length_append, List.append_assoc]
      rfl
    refine ⟨_, front ++ [none], hadd, ht.slots.trans hslots, ?_, ?_, by simp only; omega⟩
    · simp only [List.length_append, List.length_singleton]
      omega
    · rw [List.reduceOption_append]
      simpa using ht.nodup

theorem add_stored (ht : Tidy c front) (hmem : h ∉ c.stateHandlers)
    (hroom : c.stateHandlerIndex + 1 < switchMaxStateHandlers) :
    ∃ c', switchChannelAddStateHandler c h = some (c', c.stateHandlerIndex) ∧ Tidy c' (front ++ [h])
      ∧ switchChannelGetStateHandler c' c.stateHandlerIndex = some h := by
  have hlength := ht.length
  have hmax : switchMaxStateHandlers = 30 := rfl
  have hindex : c.stateHandlerIndex = front.length := by omega
  have hincr : incr c.stateHandlerIndex = c.stateHandlerIndex + 1 := if_neg (by omega)
  have hadd : switchChannelAddStateHandler c h
      = some (⟨padded (front ++ [h]), c.stateHandlerIndex + 1⟩, c.stateHandlerIndex) := by
    rw [switchChannelAddStateHandler, List.idxOf?_eq_none_iff.mpr hmem]
    simp only [hincr]
    rw [if_neg (by omega), if_neg (by omega), ht.slots, hindex, Int.toNat_natCast,
      store_padded (by omega)]
    rfl
  have htidy : Tidy ⟨padded (front ++ [h]), c.stateHandlerIndex + 1⟩ (front ++ [h]) := by
    refine ⟨rfl, ?_, ?_, by simp only; omega⟩
    · simp only [List.length_append, List.length_singleton]
      omega
    · rw [List.reduceOption_append]
      refine List.nodup_append'.mpr ⟨ht.nodup, by cases h <;> simp, ?_⟩
      intro x hx hx'
      cases h with
      | none => exact absurd hx' (by simp)
      | some y =>
        obtain rfl : x = y := by simpa using hx'
        exact hmem (ht.slots ▸ List.mem_append_left _ (List.reduceOption_mem_iff.mp hx))
  refine ⟨_, hadd, htidy, ?_⟩
  have hfound : (padded (front ++ [h]))[front.length]? = some h := by simp [padded]
  have hget := get_eq htidy hfound
  rwa [← hindex] at hget

/-- The largest `int` wraps, and the place for the handler is far outside. -/
theorem add_eq_none (ht : Tidy c front) (hmem : h ∉ c.stateHandlers)
    (hmax : c.stateHandlerIndex = 2 ^ 31 - 1) :
    switchChannelAddStateHandler c h = none := by
  have hlength := ht.length_stateHandlers
  rw [switchChannelAddStateHandler, List.idxOf?_eq_none_iff.mpr hmem]
  simp only [hmax, incr, if_true]
  rw [if_neg (by decide), if_neg (by decide), store, if_neg (by rw [hlength]; decide)]
  rfl

end Add

/-! ## Clearing -/

section Clear

variable {keep : Option H → Bool} {handlers : List (Option H)}

theorem keepLoop_eq (keep : Option H → Bool) (hlength : handlers.length ≤ switchMaxStateHandlers) :
    ∀ (left index : Nat) (done : List (Option H)),
      index + left ≤ handlers.length → done.length ≤ index →
      keepLoop keep handlers left index (padded done) done.length
        = some (padded (done ++ ((handlers.drop index).take left).filter keep),
            (done ++ ((handlers.drop index).take left).filter keep).length) := by
  intro left
  induction left with
  | zero =>
    intro index done _ _
    rw [keepLoop, List.take_zero, List.filter_nil, List.append_nil]
  | succ left ih =>
    intro index done hleft hdone
    have hlt : index < handlers.length := by omega
    rw [keepLoop, List.getElem?_eq_getElem hlt, List.drop_eq_getElem_cons hlt, List.take_succ_cons]
    show (if keep handlers[index] then _ else _) = _
    cases hkeep : keep handlers[index] with
    | true =>
      rw [if_pos rfl, store_padded (by omega), List.filter_cons_of_pos hkeep]
      have hrest := ih (index + 1) (done ++ [handlers[index]]) (by omega) (by simp; omega)
      rw [List.length_append, List.append_assoc] at hrest
      exact hrest
    | false =>
      rw [if_neg Bool.false_ne_true, List.filter_cons_of_neg (by simp [hkeep])]
      exact ih (index + 1) done (by omega) (by omega)

theorem keepLoop_eq_none : ∀ (left index : Nat) (newHandlers : List (Option H)) (filled : Nat),
    index ≤ handlers.length → handlers.length < index + left →
      keepLoop keep handlers left index newHandlers filled = none := by
  intro left
  induction left with
  | zero => intro index newHandlers filled hle hlt; omega
  | succ left ih =>
    intro index newHandlers filled hle hlt
    rw [keepLoop]
    by_cases hend : index = handlers.length
    · rw [hend, List.getElem?_eq_none le_rfl]
      rfl
    · rw [List.getElem?_eq_getElem (by omega)]
      show (if keep _ then _ else _) = _
      split
      · cases store newHandlers filled handlers[index] with
        | none => rfl
        | some newHandlers' => exact ih (index + 1) newHandlers' (filled + 1) (by omega) (by omega)
      · exact ih (index + 1) newHandlers filled (by omega) (by omega)

theorem copyLoop_eq {kept : List (Option H)} (hkept : kept.length ≤ switchMaxStateHandlers) :
    ∀ left index : Nat, index + left = kept.length →
      copyLoop (padded kept) left index (padded (kept.take index)) = some (padded kept) := by
  intro left
  induction left with
  | zero =>
    intro index hindex
    rw [copyLoop, List.take_of_length_le (by omega)]
  | succ left ih =>
    intro index hindex
    have hlt : index < kept.length := by omega
    have hlen : (kept.take index).length = index := List.length_take_of_le hlt.le
    have hstore := store_padded (hlen.trans_lt (hlt.trans_le hkept)) kept[index]
    rw [hlen, List.take_append_getElem] at hstore
    rw [copyLoop, getElem?_padded _ hlt, List.getElem?_eq_getElem hlt]
    show (store (padded (kept.take index)) index kept[index] >>= _) = _
    rw [hstore]
    exact ih (index + 1) (by omega)

theorem reduceOption_filter {r : H → Bool} (hr : ∀ x, keep (some x) = r x) :
    ∀ l : List (Option H), (l.filter keep).reduceOption = l.reduceOption.filter r := by
  intro l
  induction l with
  | nil => rfl
  | cons s l ih =>
    cases s with
    | none =>
      rw [List.reduceOption_cons_of_none, ← ih, List.filter_cons]
      split
      · exact List.reduceOption_cons_of_none _
      · rfl
    | some x =>
      rw [List.reduceOption_cons_of_some, List.filter_cons, List.filter_cons, hr]
      split
      · rw [List.reduceOption_cons_of_some, ih]
      · exact ih

variable [DecidableEq H]

theorem keeps_some (sticky : H → Bool) (h : Option H) (x : H) :
    keeps sticky h (some x) = remains sticky h x := by
  cases h with
  | none => rfl
  | some y =>
    show (some x != some y) = (x != y)
    simp [bne]

variable {sticky : H → Bool} {c : HandlerChannel H} {front : List (Option H)}

/-- The handlers that are kept move up to the front. -/
theorem clear_eq (ht : Tidy c front) (hle : c.stateHandlerIndex ≤ switchMaxStateHandlers)
    (h : Option H) :
    switchChannelClearStateHandler sticky c h
      = some ⟨padded (front.filter (keeps sticky h)), (front.filter (keeps sticky h)).length⟩ := by
  have hlength := ht.length
  have hrounds : c.stateHandlerIndex.toNat = front.length := by omega
  have htake : c.stateHandlers.take front.length = front := by rw [ht.slots, padded, List.take_left]
  have hkeep := keepLoop_eq (keeps sticky h) ht.length_stateHandlers.le front.length 0 []
    (by rw [ht.length_stateHandlers, Nat.zero_add]; exact ht.length_le) le_rfl
  rw [List.drop_zero, htake, List.nil_append] at hkeep
  have hcopy := copyLoop_eq ((List.length_filter_le (keeps sticky h) front).trans ht.length_le) _ 0
    (Nat.zero_add _)
  unfold switchChannelClearStateHandler
  rw [hrounds]
  show (keepLoop _ _ _ 0 (padded []) ([] : List (Option H)).length >>= _) = _
  rw [hkeep]
  show (copyLoop _ _ 0 (padded (List.take 0 (front.filter (keeps sticky h)))) >>= _) = _
  rw [hcopy]
  rfl

theorem clear_eq_none (ht : Tidy c front) (hlt : switchMaxStateHandlers < c.stateHandlerIndex)
    (h : Option H) :
    switchChannelClearStateHandler sticky c h = none := by
  rw [switchChannelClearStateHandler,
    keepLoop_eq_none _ _ _ _ (Nat.zero_le _) (by rw [ht.length_stateHandlers]; omega)]
  rfl

theorem tidy_clear (sticky : H → Bool) (ht : Tidy c front) (h : Option H) :
    Tidy ⟨padded (front.filter (keeps sticky h)),
      (front.filter (keeps sticky h)).length⟩ (front.filter (keeps sticky h)) := by
  have hle := (List.length_filter_le (keeps sticky h) front).trans ht.length_le
  refine ⟨rfl, ?_, ?_, ?_⟩
  · exact (min_eq_left (Int.ofNat_le.mpr hle)).symm
  · rw [reduceOption_filter (keeps_some sticky h)]
    exact ht.nodup.filter _
  · exact (Int.ofNat_le.mpr hle).trans_lt (by decide)

end Clear

/-! ## Sequences of calls -/

section Calls

variable [DecidableEq H] {sticky : H → Bool} {c : HandlerChannel H} {front : List (Option H)}

/-- What an add does when it is bearable. -/
theorem add_serves (ht : Tidy c front) {h : Option H} (hok : Bearable c (.add h)) :
    ∃ c' index front', switchChannelAddStateHandler c h = some (c', index) ∧ Tidy c' front'
      ∧ (index ≠ -1 → switchChannelGetStateHandler c' index = some h) := by
  by_cases hmem : h ∈ c.stateHandlers
  · obtain ⟨x, hadd, hget⟩ := add_present ht hmem
    exact ⟨c, x, front, hadd, ht, fun _ => hget⟩
  · have hmax := hok.resolve_left hmem
    by_cases hfull : (switchMaxStateHandlers : Int) ≤ c.stateHandlerIndex + 1
    · obtain ⟨c', front', hadd, ht'⟩ := add_rejected ht hmem hfull hmax
      exact ⟨c', -1, front', hadd, ht', fun hne => absurd rfl hne⟩
    · obtain ⟨c', hadd, ht', hget⟩ := add_stored ht hmem (by omega)
      exact ⟨c', _, _, hadd, ht', fun _ => hget⟩

theorem serves_iff (ht : Tidy c front) (call : HandlerCall H) :
    Serves sticky c call ↔ Bearable c call := by
  cases call with
  | add h =>
    constructor
    · rintro ⟨c', index, hadd, -⟩
      by_contra hnot
      obtain ⟨hmem, hmax⟩ := not_or.mp hnot
      rw [add_eq_none ht hmem (not_ne_iff.mp hmax)] at hadd
      cases hadd
    · intro hok
      obtain ⟨c', index, front', hadd, ht', hget⟩ := add_serves ht hok
      exact ⟨c', index, hadd, ht'.present ▸ ht'.nodup, hget⟩
  | get index =>
    refine iff_of_true ?_ trivial
    by_cases hlt : index < switchMaxStateHandlers
    · rw [← ht.length_stateHandlers] at hlt
      exact ⟨_, get_eq ht (List.getElem?_eq_getElem hlt)⟩
    · exact ⟨none, if_pos (Or.inl (by omega))⟩
  | clear h =>
    constructor
    · rintro ⟨c', hclear, -⟩
      by_contra hlt
      rw [clear_eq_none ht (not_le.mp hlt)] at hclear
      cases hclear
    · intro hle
      have ht' := tidy_clear sticky ht h
      refine ⟨_, clear_eq ht hle h, ht'.present ▸ ht'.nodup, ?_⟩
      rw [ht'.present, ht.present, reduceOption_filter (keeps_some sticky h)]

theorem tidy_handlerStep (ht : Tidy c front) {call : HandlerCall H} (hok : Bearable c call) :
    ∃ front', Tidy (handlerStep sticky c call) front' := by
  cases call with
  | add h =>
    obtain ⟨c', index, front', hadd, ht', -⟩ := add_serves ht hok
    refine ⟨front', ?_⟩
    rw [handlerStep, hadd]
    exact ht'
  | get index => exact ⟨front, ht⟩
  | clear h =>
    refine ⟨front.filter (keeps sticky h), ?_⟩
    rw [handlerStep, clear_eq ht hok]
    exact tidy_clear sticky ht h

end Calls

/-- In a sequence of calls on a new channel, every call stays inside the arrays and does what it should
exactly if no clear finds the index behind the end of the array and no add of a new handler finds it at
the largest `int`. -/
theorem state_handlers_iff [DecidableEq H] (sticky : H → Bool) (calls : List (HandlerCall H)) :
    (∀ done call rest, calls = done ++ call :: rest →
        Serves sticky (done.foldl (handlerStep sticky) newChannel) call)
      ↔ ∀ done call rest, calls = done ++ call :: rest →
        Bearable (done.foldl (handlerStep sticky) newChannel) call :=
  prefixes_exact (P := fun c => ∃ front, Tidy c front) (fun _ call ⟨_, ht⟩ => serves_iff ht call)
    (fun _ _ ⟨_, ht⟩ hok => tidy_handlerStep ht hok) calls newChannel ⟨[], tidy_newChannel⟩

/-- 31 handlers, of which two find no place, and then a clear of the first. -/
theorem clear_after_two_rejected :
    ¬Serves (fun _ => false)
      (((List.range 31).map fun h => HandlerCall.add (some h)).foldl
        (handlerStep fun _ => false) newChannel)
      (.clear (some 0)) := by
  rintro ⟨c', hclear, -⟩
  have hnone : switchChannelClearStateHandler (fun _ => false)
      (((List.range 31).map fun h => HandlerCall.add (some h)).foldl
      (handlerStep fun _ => false) newChannel) (some 0) = none := by
    decide +kernel
  exact nomatch hnone.symm.trans hclear

end FreeSwitch.Channel
