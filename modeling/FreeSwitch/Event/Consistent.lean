import FreeSwitch.Lib.Run
import FreeSwitch.Event.Chain

/-!
# Event headers — value, array, hash and tail pointer

Readers of an event take a header's `value`, or its `array`; both are to say the same. All
edits but one redraw the value from the array they leave. The exception is the replacement of
an element inside the array, `name[i]` with `i` below the array's length.

* **`edit_preserves`** — every other edit keeps the event consistent.
* **`not_consistent_of_replaced`** — an element replaced by a different one leaves the value
  behind.
* **`event_headers_consistent_iff`** — over sequences of calls.
-/

namespace FreeSwitch.Event

open CString Runs

/-! ## Consistency -/

structure HeaderOk (hp : Header) : Prop where
  many : 1 < hp.array.length → hp.value = some (arrayPrefix ++ joinPair [124, 58] hp.array)
  one : ∀ data, hp.array = [data] → hp.value = some data
  hash : hp.hash = switchCiHashfuncDefault hp.name

structure Consistent (ev : SwitchEvent) : Prop where
  headers : ∀ hp ∈ ev.headers, HeaderOk hp
  last : ev.lastHeader = ev.headers.getLast?.map Header.addr

structure Inv (ev : SwitchEvent) : Prop where
  headers : ∀ hp ∈ ev.headers, HeaderOk hp
  chained : Chained ev

variable {ev : SwitchEvent}

theorem Inv.consistent (h : Inv ev) : Consistent ev := ⟨h.headers, h.chained.last⟩

theorem headerOk_iff {hp : Header} : HeaderOk hp ↔ (hp.array ≠ [] → hp.value = some (flatten hp.array))
      ∧ hp.hash = switchCiHashfuncDefault hp.name := by
  constructor
  · intro h
    refine ⟨fun hne => ?_, h.hash⟩
    cases harray : hp.array with
    | nil => exact absurd harray hne
    | cons x xs =>
      cases xs with
      | nil => simpa [flatten, joinPair] using h.one x harray
      | cons y ys =>
        have hmany := h.many (by simp [harray])
        rw [harray] at hmany
        rw [flatten, if_pos (by simp)]
        exact hmany
  · rintro ⟨hflat, hhash⟩
    refine ⟨fun hlen => ?_, fun data hdata => ?_, hhash⟩
    · rw [hflat (by rintro h; simp [h] at hlen), flatten, if_pos hlen]
    · rw [hflat (by simp [hdata]), hdata]
      simp [flatten, joinPair]

/-! ## The calls -/

/-- The element put in is the one that is there. -/
def SameElement (header : Header) (index : Nat) (data : Str) : Prop :=
  header.array[index]? = some data

theorem headerOk_redraw {hp : Header} (h : hp.hash = switchCiHashfuncDefault hp.name) :
    HeaderOk (redraw hp) :=
  headerOk_iff.mpr ⟨fun _ => rfl, h⟩

theorem edit_preserves {scope : Scope}
    (hscope : ∀ hp index data, scope.replace hp index data → SameElement hp index data)
    {ev' : SwitchEvent} (h : Inv ev) (hedit : Edit scope ev ev') : Inv ev' := by
  refine ⟨forall_headers_of_edit ?_ ?_ ?_ ?_ h.chained h.headers hedit, edit_chained h.chained hedit⟩
  · exact fun stack hp data _ hok => headerOk_redraw hok.hash
  · exact fun hp index data _ hok => headerOk_redraw hok.hash
  · intro hp index data hindex hsame hok
    -- the write leaves the array as it is
    obtain ⟨hlt, heq⟩ := List.getElem?_eq_some_iff.mp (hscope hp index data hsame)
    rw [← heq, List.set_getElem_self]
    exact hok
  · intro header _ hdrawn
    refine headerOk_iff.mpr ⟨fun hne => ?_, rfl⟩
    rcases hdrawn with ⟨hnil, -⟩ | ⟨-, hvalue, -⟩
    · exact absurd hnil hne
    · exact hvalue

/-- Any stack and any index, but no element replaced by a different one. -/
def sameScope : Scope := ⟨SameElement, True⟩

theorem Edits.inv {ev' : SwitchEvent} (h : Edits sameScope ev ev') (hev : Inv ev) : Inv ev' :=
  h.preserves (fun _ _ => edit_preserves fun _ _ _ hsame => hsame) hev

/-- The other direction: an element replaced by a different one leaves the value behind. -/
theorem not_consistent_of_replaced (h : Inv ev) {header : Header} {index : Nat}
    {data : Str} (hmem : header ∈ ev.headers) (hindex : index < header.array.length)
    (hne : ¬ SameElement header index data) : ¬ Consistent (update ev header.addr fun hp =>
      { hp with array := hp.array.set index data }) := by
  intro hcons
  have hnew : { header with array := header.array.set index data } ∈
      (update ev header.addr fun hp => { hp with array := hp.array.set index data }).headers :=
    List.mem_map.mpr ⟨header, hmem, if_pos rfl⟩
  have hvalue := (headerOk_iff.mp (hcons.headers _ hnew)).1 (by
    intro hnil
    have hlen := congrArg List.length hnil
    simp only [List.length_set, List.length_nil] at hlen
    omega)
  have hold := (headerOk_iff.mp (h.headers header hmem)).1 (by
    intro hnil
    simp [hnil] at hindex)
  have hflat : flatten (header.array.set index data) = flatten header.array :=
    Option.some.inj (hvalue.symm.trans hold)
  unfold flatten at hflat
  rw [List.length_set, List.append_right_inj, joinPair_set_inj hindex] at hflat
  exact hne hflat

inductive Call where
  | addHeaderString (stack : Stack) (headerName : Str) (data : Option Str)
  | delHeaderVal (headerName : Str) (val : Option Str)
  | setBody (body : Option Str)

def call (ev : SwitchEvent) : Call → SwitchEvent
  | .addHeaderString stack headerName data => switchEventAddHeaderString ev stack headerName data
  | .delHeaderVal headerName val => switchEventDelHeaderVal ev headerName val
  | .setBody body => switchEventSetBody ev body

/-- A call on `name[i]`, with `i` inside the array of that header, stores the string that is
already there. -/
def NoStaleReplace (ev : SwitchEvent) : Call → Prop
  | .addHeaderString _ headerName data =>
      ∀ data' header index, data = some data' → Replaces ev headerName header index →
        SameElement header index data'
  | .delHeaderVal _ _ => True
  | .setBody _ => True

/-- What a call on `name[i]` inside the array does. -/
theorem addHeader_replaces {stack : Stack} {headerName data : Str}
    {header : Header} {index : Nat} (h : Replaces ev headerName header index) :
    switchEventAddHeaderString ev stack headerName (some data) =
      update (if headerName = bytes "_body" then switchEventSetBody ev (some data) else ev)
        header.addr fun hp => { hp with array := hp.array.set index data } := by
  obtain ⟨name, hsplit, hhigh, hfind, hlt⟩ := h
  have hfind' : switchEventGetHeaderPtr
      (if headerName = bytes "_body" then switchEventSetBody ev (some data) else ev) name
        = some header := by
    rw [← hfind]
    split <;> rfl
  rw [switchEventAddHeaderString, baseAddHeader_indexed ev stack hsplit, setIndexed, hfind']
  dsimp only
  rw [if_pos (by omega), if_pos (by omega)]
  rfl

theorem call_keeps_inv (h : Inv ev) {c : Call} (hok : NoStaleReplace ev c) : Inv (call ev c) := by
  cases c with
  | delHeaderVal name val => exact (Edit.del ev name val).edits.inv h
  | setBody body => exact (Edit.body ev body).edits.inv h
  | addHeaderString stack headerName data =>
    exact Edits.inv (addHeader_edits ev stack headerName data trivial hok) h

theorem noStaleReplace_of_consistent (h : Inv ev) {c : Call}
    (hcons : Consistent (call ev c)) : NoStaleReplace ev c := by
  cases c with
  | delHeaderVal name val => trivial
  | setBody body => trivial
  | addHeaderString stack headerName data =>
    rintro data' header index rfl hrep
    by_contra hne
    rw [call, addHeader_replaces hrep] at hcons
    have hbody : Inv (if headerName = bytes "_body" then switchEventSetBody ev (some data')
        else ev) :=
      (edits_body ev headerName data').inv h
    obtain ⟨name, -, -, hfind, hlt⟩ := hrep
    refine not_consistent_of_replaced hbody ?_ hlt hne hcons
    have hmem := List.mem_of_find?_eq_some hfind
    split <;> exact hmem

/-- An event before its first header, as `switch_event_create_subclass` allocates it. -/
def Empty (ev : SwitchEvent) : Prop := ev.headers = [] ∧ ev.lastHeader = none

theorem inv_of_empty (h : Empty ev) : Inv ev := by
  obtain ⟨hheaders, hlast⟩ := h
  refine ⟨?_, ?_, ?_, ?_⟩ <;> simp [hheaders, hlast]

/-- Along any sequence of calls, value, array, hash and tail pointer agree in every state
exactly if no call replaces an array element by a different string. -/
theorem event_headers_consistent_iff (ev : SwitchEvent) (calls : List Call) (hempty : Empty ev) :
    (∀ done rest, calls = done ++ rest → Consistent (done.foldl call ev))
      ↔ ∀ done c rest, calls = done ++ c :: rest → NoStaleReplace (done.foldl call ev) c :=
  prefixes_iff (fun _ h => h.consistent) (fun _ _ h => noStaleReplace_of_consistent h)
    (fun _ _ h => call_keeps_inv h) calls ev (inv_of_empty hempty)

/-- An array of two elements made by pushing, and taken away again. -/
theorem event_headers_consistent_pushed :
    let calls : List Call := [.addHeaderString stackPush (bytes "a") (some (bytes "x")),
      .addHeaderString stackPush (bytes "a") (some (bytes "y")), .delHeaderVal (bytes "A") none]
    Empty blankEvent ∧ ∀ done rest, calls = done ++ rest →
      Consistent (done.foldl call blankEvent) := by
  intro calls
  refine ⟨⟨rfl, rfl⟩, (event_headers_consistent_iff blankEvent calls ⟨rfl, rfl⟩).mpr ?_⟩
  -- no name of these calls has an index
  intro done c rest heq
  have hc : c ∈ calls := by rw [heq]; simp
  have hplain : splitIndex (bytes "a") = (bytes "a", none) := by decide
  rcases List.mem_cons.mp hc with rfl | hc
  · rintro _ _ _ - ⟨_, hsplit, -⟩
    rw [hplain] at hsplit
    cases hsplit
  rcases List.mem_cons.mp hc with rfl | hc
  · rintro _ _ _ - ⟨_, hsplit, -⟩
    rw [hplain] at hsplit
    cases hsplit
  · cases List.mem_singleton.mp hc
    trivial

/-- `a` is pushed twice, then `a[0]` is set: the value still shows the old element. -/
theorem event_value_stale :
    let calls : List Call := [.addHeaderString stackPush (bytes "a") (some (bytes "x")),
      .addHeaderString stackPush (bytes "a") (some (bytes "y")),
      .addHeaderString stackBottom (bytes "a[0]") (some (bytes "z"))]
    (calls.foldl call blankEvent).headers.map (fun hp => (hp.value, hp.array))
        = [(some (bytes "ARRAY::x|:y"), [bytes "z", bytes "y"])]
      ∧ ¬ Consistent (calls.foldl call blankEvent) := by
  intro calls
  let stale : Header :=
    { addr := 0, name := bytes "a", value := some (bytes "ARRAY::x|:y"),
      array := [bytes "z", bytes "y"], hash := 97 }
  have hheaders : (calls.foldl call blankEvent).headers = [stale] := by decide +kernel
  rw [hheaders]
  refine ⟨rfl, fun h => ?_⟩
  have hok := h.headers stale (by rw [hheaders]; exact List.mem_cons_self)
  exact absurd (hok.many (by decide)) (by decide)

end FreeSwitch.Event
