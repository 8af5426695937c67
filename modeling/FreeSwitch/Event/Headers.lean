import FreeSwitch.Lib.CString

/-!
# Event headers — `src/switch_event.c`

An event keeps its headers in a linked list with a pointer to the last one. A header is a
plain value, or an array whose elements are also flattened into the value: `ARRAY::` and the
elements with `|:` between them.

A header node has an address, so that `last_header` can be the pointer it is in the source:
`link` hangs a header behind the node `last_header` points to, wherever that is. Events come
without the fields no modelled function reads (priority, owner, key, user data).
-/

namespace FreeSwitch.Event

open CString

/-! ## Data -/

/-- `switch_event_header_t`; `addr` is its address. -/
structure Header where
  addr : Nat
  name : Str
  /-- `none` for `NULL`, which a header in the list never has. -/
  value : Option Str
  /-- `array[0 .. idx - 1]`. -/
  array : List Str
  hash : UInt32
  deriving DecidableEq

/-- The event types that are told apart below; every other one is `other`. -/
inductive EventType where
  | custom
  | clone
  | requestParams
  | channelData
  | message
  | other (id : Nat)
  deriving DecidableEq

/-- `switch_event_t`. -/
structure SwitchEvent where
  eventId : EventType
  flags : UInt32
  subclassName : Option Str
  body : Option Str
  headers : List Header
  lastHeader : Option Nat
  /-- The address the next header node gets. -/
  fresh : Nat
  deriving DecidableEq

/-- `switch_stack_t`. `SWITCH_STACK_BOTTOM` is the absence of `top`, and `SWITCH_STACK_NODUP`
decides only who owns the string passed in. -/
structure Stack where
  top : Bool
  unshift : Bool
  push : Bool
  deriving DecidableEq

def stackBottom : Stack := ⟨false, false, false⟩

def stackPush : Stack := ⟨false, false, true⟩

/-- `EF_UNIQ_HEADERS` is bit 0. -/
def SwitchEvent.uniqHeaders (ev : SwitchEvent) : Bool := ev.flags &&& 1 != 0

/-- `switch_ci_hashfunc_default`. -/
def switchCiHashfuncDefault (s : Str) : UInt32 :=
  s.foldl (fun hash c => hash * 33 + (toLower c).toUInt32) 0

/-! ## Lookup and deletion -/

/-- The test on name and hash of the header walks. -/
def named (name : Str) (hp : Header) : Prop :=
  (hp.hash = 0 ∨ switchCiHashfuncDefault name = hp.hash) ∧ ciEq hp.name name

instance (name : Str) (hp : Header) : Decidable (named name hp) :=
  inferInstanceAs (Decidable (_ ∧ _))

/-- `switch_event_get_header_ptr`. -/
def switchEventGetHeaderPtr (ev : SwitchEvent) (name : Str) : Option Header :=
  ev.headers.find? fun hp => named name hp

def switchEventGetHeader (ev : SwitchEvent) (name : Str) : Option Str :=
  (switchEventGetHeaderPtr ev name).bind Header.value

/-- The headers `switch_event_del_header_val` frees; an empty or `NULL` value matches
all. -/
def deleted (name : Str) (val : Option Str) (hp : Header) : Prop :=
  named name hp ∧ (val.getD [] = [] ∨ hp.value = val)

instance (name : Str) (val : Option Str) (hp : Header) : Decidable (deleted name val hp) :=
  inferInstanceAs (Decidable (_ ∧ _))

/-- The walk of `switch_event_del_header_val`: `lp` is the last node kept so far, `last` is
`event->last_header`. -/
def delWalk (name : Str) (val : Option Str) :
    Option Nat → Option Nat → List Header → List Header × Option Nat
  | last, _, [] => ([], last)
  | last, lp, hp :: tp =>
    if deleted name val hp then
      delWalk name val (if last = some hp.addr ∨ tp.isEmpty then lp else last) lp tp
    else
      let r := delWalk name val last (some hp.addr) tp
      (hp :: r.1, r.2)

/-- `switch_event_del_header_val`. -/
def switchEventDelHeaderVal (ev : SwitchEvent) (name : Str) (val : Option Str) : SwitchEvent :=
  let r := delWalk name val ev.lastHeader none ev.headers
  { ev with headers := r.1, lastHeader := r.2 }

def switchEventDelHeader (ev : SwitchEvent) (name : Str) : SwitchEvent :=
  switchEventDelHeaderVal ev name none

def switchEventSetBody (ev : SwitchEvent) (body : Option Str) : SwitchEvent := { ev with body }

/-! ## Adding -/

def arrayPrefix : Str := bytes "ARRAY::"

/-- The value an array is flattened into. -/
def flatten (array : List Str) : Str :=
  (if 1 < array.length then arrayPrefix else []) ++ joinPair [124, 58] array

/-- `redraw:` -/
def redraw (hp : Header) : Header := { hp with value := some (flatten hp.array) }

/-- A value that is not yet an array becomes its first element; then `data` is added at the
end or, for `SWITCH_STACK_UNSHIFT` alone, in front. -/
def pushElement (stack : Stack) (hp : Header) (data : Str) : Header :=
  let array :=
    match hp.value, hp.array with
    | some value, [] => [value]
    | _, array => array
  redraw { hp with array := if stack.push then array ++ [data] else data :: array }

/-- `name[index]` behind the end of the array: the gap is filled with empty strings. -/
def extend (hp : Header) (index : Nat) (data : Str) : Header :=
  redraw { hp with
    array := hp.array ++ List.replicate (index - hp.array.length) [] ++ [data] }

/-- `new_header`. -/
def newHeader (ev : SwitchEvent) (name : Str) : Header :=
  { addr := ev.fresh, name, value := none, array := [], hash := 0 }

/-- `last_header->next = header`: what hung behind that node is lost. -/
def linkAfter (last : Nat) (header : Header) : List Header → List Header
  | [] => []
  | hp :: hps => if hp.addr = last then [hp, header] else hp :: linkAfter last header hps

/-- A new header into the list, with its hash. -/
def link (ev : SwitchEvent) (stack : Stack) (header : Header) : SwitchEvent :=
  let header := { header with hash := switchCiHashfuncDefault header.name }
  let ev := { ev with fresh := ev.fresh + 1 }
  if stack.top then
    { ev with
      headers := header :: ev.headers
      lastHeader := some (ev.lastHeader.getD header.addr) }
  else
    { ev with
      headers :=
        match ev.lastHeader with
        | some last => linkAfter last header ev.headers
        | none => [header]
      lastHeader := some header.addr }

/-- A write through a pointer to a header of the list. -/
def update (ev : SwitchEvent) (addr : Nat) (f : Header → Header) : SwitchEvent :=
  { ev with headers := ev.headers.map fun hp => if hp.addr = addr then f hp else hp }

/-- `strchr(header_name, '[')`: the name up to the bracket, and the index behind it. -/
def splitIndex (headerName : Str) : Str × Option Int :=
  match headerName.dropWhile (· ≠ 91) with
  | [] => (headerName, none)
  | _ :: rest => (headerName.takeWhile (· ≠ 91), some (atoi rest))

/-- The part for names with an index. A header found with the index inside its array gets the
element replaced, without a redraw; a header made on the fly is linked only if it was drawn. -/
def setIndexed (ev : SwitchEvent) (stack : Stack) (name : Str) (index : Int) (data : Str) :
    SwitchEvent :=
  match switchEventGetHeaderPtr ev name with
  | some header =>
    if -1 < index ∧ index ≤ 4000 then
      if index < header.array.length then
        update ev header.addr fun hp => { hp with array := hp.array.set index.toNat data }
      else update ev header.addr fun hp => extend hp index.toNat data
    else ev
  | none =>
    let header := newHeader ev name
    let ev := if ev.uniqHeaders then switchEventDelHeader ev name else ev
    if -1 < index ∧ index ≤ 4000 then link ev stack (extend header index.toNat data) else ev

/-- The elements `switch_event_add_array` makes of a value; a value of less than eight bytes
has none. -/
def arrayElements (val : Str) : List Str :=
  if val.length < 8 then [] else splitPair 124 58 (val.drop 7)

theorem joinPair_arrayElements {k : Str} (hbegins : arrayPrefix <+: k) (hne : arrayElements k ≠ []) :
    k = arrayPrefix ++ joinPair [124, 58] (arrayElements k) := by
  obtain ⟨rest, rfl⟩ := hbegins
  unfold arrayElements at hne ⊢
  split
  · rename_i hshort
    rw [if_pos hshort] at hne
    exact absurd rfl hne
  · rw [joinPair_splitPair]
    rfl

theorem length_lt_of_mem_arrayElements {val piece : Str} (h : piece ∈ arrayElements val) :
    piece.length < val.length := by
  unfold arrayElements at h
  split at h
  · simp at h
  · have hle := length_le_of_mem_splitPair h
    rw [List.length_drop] at hle
    omega

/-- `switch_event_base_add_header`. An array value comes back to it through
`switch_event_add_array`, one shorter element at a time. -/
def switchEventBaseAddHeader (ev : SwitchEvent) (stack : Stack) (headerName data : Str) :
    SwitchEvent :=
  let ev := if headerName = bytes "_body" then switchEventSetBody ev (some data) else ev
  match splitIndex headerName with
  | (name, some index) => setIndexed ev stack name index data
  | (name, none) =>
    match if stack.push || stack.unshift then switchEventGetHeaderPtr ev name else none with
    | some header => update ev header.addr fun hp => pushElement stack hp data
    | none =>
      if data = [] then switchEventDelHeader ev name
      else
        let ev := if ev.uniqHeaders then switchEventDelHeader ev name else ev
        if arrayPrefix <+: data then
          (arrayElements data).attach.foldl
            (fun ev piece => switchEventBaseAddHeader ev stackPush name piece.1) ev
        else
          let header := newHeader ev name
          link ev stack
            (if stack.push || stack.unshift then pushElement stack header data
              else { header with value := some data })
termination_by data.length
decreasing_by exact length_lt_of_mem_arrayElements piece.2

/-- `NULL` data is refused. -/
def switchEventAddHeaderString (ev : SwitchEvent) (stack : Stack) (headerName : Str)
    (data : Option Str) : SwitchEvent :=
  match data with
  | some data => switchEventBaseAddHeader ev stack headerName data
  | none => ev

/-! ## Creation and duplication -/

/-- An event cleared with `memset`; 0 is `SWITCH_EVENT_CUSTOM`. -/
def blankEvent : SwitchEvent :=
  { eventId := .custom, flags := 0, subclassName := none, body := none, headers := [],
    lastHeader := none, fresh := 0 }

/-- The headers of `switch_event_prep_for_delivery_detailed`. -/
def prepNames : List Str :=
  [bytes "Event-Name", bytes "Core-UUID", bytes "FreeSWITCH-Hostname",
    bytes "FreeSWITCH-Switchname", bytes "FreeSWITCH-IPv4", bytes "FreeSWITCH-IPv6",
    bytes "Event-Date-Local", bytes "Event-Date-GMT", bytes "Event-Date-Timestamp",
    bytes "Event-Calling-File", bytes "Event-Calling-Function",
    bytes "Event-Calling-Line-Number", bytes "Event-Sequence"]

/-- `value` is what the core has to say under each of the names; a `NULL` adds nothing. -/
def switchEventPrepForDelivery (value : Str → Option Str) (ev : SwitchEvent) : SwitchEvent :=
  prepNames.foldl (fun ev name => switchEventAddHeaderString ev stackBottom name (value name)) ev

def eventSubclass : Str := bytes "Event-Subclass"

/-- `none`: only a clone or a custom event can have a subclass. -/
def switchEventCreateSubclass (value : Str → Option Str) (eventId : EventType)
    (subclassName : Option Str) : Option SwitchEvent :=
  if eventId ≠ .clone ∧ eventId ≠ .custom ∧ subclassName.isSome then none
  else
    let ev := blankEvent
    let ev :=
      if eventId = .requestParams ∨ eventId = .channelData ∨ eventId = .message then
        { ev with flags := ev.flags ||| 1 }
      else ev
    let ev :=
      if eventId ≠ .clone then switchEventPrepForDelivery value { ev with eventId } else ev
    match subclassName with
    | some name =>
      some (switchEventAddHeaderString { ev with subclassName := some name } stackBottom
        eventSubclass (some name))
    | none => some ev

/-- What `switch_event_dup` does with one header. -/
def copyHeader (ev : SwitchEvent) (hp : Header) : SwitchEvent :=
  if hp.array = [] then switchEventAddHeaderString ev stackBottom hp.name hp.value
  else
    hp.array.foldl (fun ev data => switchEventAddHeaderString ev stackPush hp.name (some data)) ev

/-- The headers `switch_event_dup` leaves out: the new event has its own `Event-Subclass`. -/
def skipped (todup : SwitchEvent) (hp : Header) : Prop :=
  todup.subclassName.isSome ∧ hp.name = eventSubclass

instance (todup : SwitchEvent) (hp : Header) : Decidable (skipped todup hp) :=
  inferInstanceAs (Decidable (_ ∧ _))

/-- `switch_event_dup`. -/
def switchEventDup (todup : SwitchEvent) : Option SwitchEvent :=
  (switchEventCreateSubclass (fun _ => none) .clone todup.subclassName).map fun ev =>
    let ev := { ev with eventId := todup.eventId, flags := todup.flags }
    let ev := todup.headers.foldl
      (fun ev hp => if skipped todup hp then ev else copyHeader ev hp) ev
    match todup.body with
    | some body => { ev with body := some body }
    | none => ev

end FreeSwitch.Event
