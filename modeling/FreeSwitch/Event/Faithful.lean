import FreeSwitch.Event.Dup

/-!
# Event duplication — when the duplicate is faithful

* **`edit_built`** — what every event has that was made by the calls.
* **`dup_eq`** — the duplicate: a new event with the subclass header, then the copies.
* **`switch_event_dup_faithful_iff`** — the duplicate shows the same headers exactly if the
  event is `DupSafe`.
-/

namespace FreeSwitch.Event

open CString

/-! ## Events made by the calls -/

structure Built (ev : SwitchEvent) : Prop where
  chained : Chained ev
  hashed : Hashed ev
  plain : ∀ hp ∈ ev.headers, Plain hp.name
  scalar : ∀ hp ∈ ev.headers, ScalarOk hp
  uniq : ev.uniqHeaders = true →
    (names ev).Pairwise (fun name name' => ¬ ciEq name name') ∧ ev.subclassName = none

theorem scalarOk_of_drawn {scope : Scope} {hp : Header} (h : Drawn scope hp) : ScalarOk hp := by
  intro hnil
  rcases h with ⟨-, hplain⟩ | ⟨hne, -⟩
  · exact hplain
  · exact absurd hnil hne

variable {ev : SwitchEvent}

theorem update_names {addr : Nat} {f : Header → Header}
    (hf : ∀ hp, (f hp).name = hp.name) : names (update ev addr f) = names ev :=
  map_update Header.name hf

/-- An event with `EF_UNIQ_HEADERS` never has two headers of one name. -/
theorem edit_names {scope : Scope} {ev' : SwitchEvent} (h : Built ev)
    (hedit : Edit scope ev ev') (huniq : ev.uniqHeaders = true) :
    (names ev').Pairwise fun name name' => ¬ ciEq name name' := by
  have hold := (h.uniq huniq).1
  cases hedit with
  | body body => exact hold
  | del name val =>
    rw [names, del_headers]
    exact hold.sublist (List.filter_sublist.map _)
  | push stack addr data hstack =>
    rw [update_names]
    · exact hold
    · exact fun _ => rfl
  | extend addr index data hfree =>
    rw [update_names]
    · exact hold
    · exact fun _ => rfl
  | replace data hmem hindex hallowed =>
    rw [update_names]
    · exact hold
    · exact fun _ => rfl
  | @link stack header haddr hplain hdrawn hnew =>
    have hne : Unnamed (names ev) header.name := by
      intro other hmem
      obtain ⟨hp, hhp, rfl⟩ := List.mem_map.mp hmem
      rw [← named_iff (h.hashed hp hhp)]
      exact hnew huniq hp hhp
    rw [names, link_headers h.chained]
    split
    · exact List.pairwise_cons.mpr ⟨fun other hmem hci => hne other hmem hci.symm, hold⟩
    · rw [List.map_append]
      exact List.pairwise_append.mpr ⟨hold, List.pairwise_singleton _ _, fun other hmem name hname =>
        by cases List.mem_singleton.mp hname; exact hne other hmem⟩

theorem edit_built {scope : Scope} {ev' : SwitchEvent} (h : Built ev) (hedit : Edit scope ev ev') :
    Built ev' := by
  have hrest := edits_sameRest hedit.edits
  have hheaders : ∀ hp ∈ ev'.headers, hp.hash = switchCiHashfuncDefault hp.name
      ∧ Plain hp.name ∧ ScalarOk hp := by
    refine forall_headers_of_edit ?_ ?_ ?_ ?_ h.chained
      (fun hp hmem => ⟨h.hashed hp hmem, h.plain hp hmem, h.scalar hp hmem⟩) hedit
    · rintro stack hp data - ⟨hhash, hplain, -⟩
      refine ⟨hhash, hplain, fun hnil => ?_⟩
      simp only [pushElement, redraw] at hnil
      split at hnil <;> simp at hnil
    · rintro hp index data - ⟨hhash, hplain, -⟩
      exact ⟨hhash, hplain, fun hnil => by simp [extend, redraw] at hnil⟩
    · rintro hp index data hindex - ⟨hhash, hplain, -⟩
      refine ⟨hhash, hplain, fun hnil => ?_⟩
      have hlen := congrArg List.length hnil
      simp only [List.length_set, List.length_nil] at hlen
      omega
    · intro header hplain hdrawn
      exact ⟨rfl, hplain, scalarOk_of_drawn hdrawn⟩
  refine ⟨edit_chained h.chained hedit, fun hp hmem => (hheaders hp hmem).1,
    fun hp hmem => (hheaders hp hmem).2.1, fun hp hmem => (hheaders hp hmem).2.2, fun huniq => ?_⟩
  have huniq' : ev.uniqHeaders = true := by
    rw [SwitchEvent.uniqHeaders, ← hrest.flags]
    exact huniq
  exact ⟨edit_names h hedit huniq', hrest.subclassName.trans (h.uniq huniq').2⟩

theorem add_built (h : Built ev) (stack : Stack) (headerName : Str)
    (data : Option Str) : Built (switchEventAddHeaderString ev stack headerName data) := by
  have hedits : Edits anyScope ev (switchEventAddHeaderString ev stack headerName data) :=
    addHeader_edits ev stack headerName data trivial fun _ _ _ _ _ => trivial
  exact hedits.preserves (fun _ _ => edit_built) h

theorem call_built (h : Built ev) (c : Call) : Built (call ev c) := by
  cases c with
  | addHeaderString stack headerName data => exact add_built h stack headerName data
  | delHeaderVal name val =>
    have hedit : Edit anyScope ev (switchEventDelHeaderVal ev name val) := .del ev name val
    exact edit_built h hedit
  | setBody body =>
    have hedit : Edit anyScope ev (switchEventSetBody ev body) := .body ev body
    exact edit_built h hedit

theorem built_of_empty (h : Empty ev)
    (hsub : ev.uniqHeaders = true → ev.subclassName = none) : Built ev := by
  obtain ⟨hheaders, hlast⟩ := h
  refine ⟨⟨?_, ?_, ?_⟩, ?_, ?_, ?_, fun huniq => ⟨?_, hsub huniq⟩⟩ <;>
    simp [Hashed, names, hheaders, hlast]

theorem prep_built (value : Str → Option Str) (h : Built ev) :
    Built (switchEventPrepForDelivery value ev) :=
  List.foldlRecOn prepNames _ h fun _ h name _ => add_built h stackBottom name (value name)

theorem prep_flags (value : Str → Option Str) (ev : SwitchEvent) :
    (switchEventPrepForDelivery value ev).flags = ev.flags := by
  have hedits : Edits anyScope ev (switchEventPrepForDelivery value ev) := by
    refine edits_foldl _ (fun name _ ev => ?_) ev
    exact addHeader_edits ev stackBottom name (value name) trivial fun _ _ _ _ _ => trivial
  exact (edits_sameRest hedits).flags

theorem create_built {value : Str → Option Str} {eventId : EventType} {sub : Option Str}
    (h : switchEventCreateSubclass value eventId sub = some ev) : Built ev := by
  unfold switchEventCreateSubclass at h
  split at h
  case isTrue => cases h
  case isFalse hallowed =>
    dsimp only at h
    generalize hev₁ : (if eventId = .requestParams ∨ eventId = .channelData ∨ eventId = .message then
        { blankEvent with flags := blankEvent.flags ||| 1 } else blankEvent) = ev₁ at h
    have hev₁' : Empty ev₁ ∧ ev₁.subclassName = none := by
      rw [← hev₁]
      split <;> exact ⟨⟨rfl, rfl⟩, rfl⟩
    have hbuilt : Built (if eventId ≠ .clone then
        switchEventPrepForDelivery value { ev₁ with eventId } else ev₁) := by
      split
      · exact prep_built value (built_of_empty hev₁'.1 fun _ => hev₁'.2)
      · exact built_of_empty hev₁'.1 fun _ => hev₁'.2
    have hflags : (if eventId ≠ .clone then
        switchEventPrepForDelivery value { ev₁ with eventId } else ev₁).flags = ev₁.flags := by
      split
      · exact prep_flags value _
      · rfl
    generalize (if eventId ≠ .clone then
      switchEventPrepForDelivery value { ev₁ with eventId } else ev₁) = ev₂ at *
    cases sub with
    | none =>
      cases h
      exact hbuilt
    | some name =>
      cases h
      -- only clones and custom events come here, and these do not have the flag
      have hzero : ev₂.uniqHeaders = false := by
        rw [SwitchEvent.uniqHeaders, hflags, ← hev₁, if_neg]
        · decide
        · rintro (rfl | rfl | rfl) <;> simp at hallowed
      have hbuilt' : Built { ev₂ with subclassName := some name } := by
        refine ⟨⟨hbuilt.chained.last, hbuilt.chained.nodup, hbuilt.chained.fresh⟩,
          hbuilt.hashed, hbuilt.plain, hbuilt.scalar, fun huniq => ?_⟩
        have hfalse : ev₂.uniqHeaders = true := huniq
        rw [hzero] at hfalse
        cases hfalse
      exact add_built hbuilt' stackBottom eventSubclass (some name)

/-! ## The duplicate -/

/-- The new event a clone with that subclass name starts as. -/
def cloneStart (sub : Option Str) : SwitchEvent :=
  match sub with
  | some name =>
    switchEventAddHeaderString { blankEvent with subclassName := some name } stackBottom
      eventSubclass (some name)
  | none => blankEvent

/-- The headers of the event that are copied. -/
def kept (ev : SwitchEvent) : List Header := ev.headers.filter fun hp => ¬ skipped ev hp

theorem create_clone (sub : Option Str) :
    switchEventCreateSubclass (fun _ => none) .clone sub = some (cloneStart sub) := by
  cases sub <;> rfl

theorem foldl_kept (ev : SwitchEvent) (start : SwitchEvent) :
    ev.headers.foldl (fun c hp => if skipped ev hp then c else copyHeader c hp) start
      = (kept ev).foldl copyHeader start := by
  rw [kept, List.foldl_filter]
  refine congrArg (fun f => ev.headers.foldl f start) ?_
  funext c hp
  by_cases h : skipped ev hp <;> simp [h]

/-- The event the copies go into. -/
def copyStart (ev : SwitchEvent) : SwitchEvent :=
  { cloneStart ev.subclassName with eventId := ev.eventId, flags := ev.flags }

theorem dup_eq (ev : SwitchEvent) : ∃ d, switchEventDup ev = some d
      ∧ d.headers = ((kept ev).foldl copyHeader (copyStart ev)).headers
      ∧ d.eventId = ((kept ev).foldl copyHeader (copyStart ev)).eventId
      ∧ d.flags = ((kept ev).foldl copyHeader (copyStart ev)).flags
      ∧ d.body = (ev.body.or ((kept ev).foldl copyHeader (copyStart ev)).body) := by
  unfold switchEventDup
  rw [create_clone, Option.map_some, ← foldl_kept]
  cases ev.body with
  | none => exact ⟨_, rfl, rfl, rfl, rfl, rfl⟩
  | some body => exact ⟨_, rfl, rfl, rfl, rfl, rfl⟩

/-- Same body, flags and event id, and the same headers, where the place of `Event-Subclass`
among the others does not count. -/
structure Faithful (ev d : SwitchEvent) : Prop where
  body : d.body = ev.body
  flags : d.flags = ev.flags
  eventId : d.eventId = ev.eventId
  headers : (views d).filter (·.name ≠ eventSubclass) = (views ev).filter (·.name ≠ eventSubclass)
  subclass : (views d).filter (·.name = eventSubclass) = (views ev).filter (·.name = eventSubclass)

/-- The events whose headers come back when they are replayed. -/
structure DupSafe (ev : SwitchEvent) : Prop where
  /-- The subclass headers are those that creation gives. -/
  subclass : (ev.headers.filter fun hp => skipped ev hp).map Header.view
    = views (cloneStart ev.subclassName)
  /-- An array starts with a string that is neither empty nor an array, and its value shows it. -/
  arrays : ∀ hp ∈ kept ev, ArrayOk hp
  /-- An array does not come after a header of its name. -/
  noMerge : NoMerge (names (cloneStart ev.subclassName)) (kept ev)
  /-- An event without a body has no header of that name. -/
  noBody : ev.body = none → ∀ hp ∈ kept ev, hp.name ≠ bytes "_body"

theorem plain_eventSubclass : Plain eventSubclass := by
  unfold Plain
  decide

theorem copyStart_inv (ev : SwitchEvent) : Inv (copyStart ev) := by
  have hstart : Inv (cloneStart ev.subclassName) := by
    cases ev.subclassName with
    | none => exact inv_of_empty ⟨rfl, rfl⟩
    | some name =>
      exact (add_edits plain_eventSubclass _ rfl (some name)).inv_of_copy (inv_of_empty ⟨rfl, rfl⟩)
  exact ⟨hstart.headers, hstart.chained.last, hstart.chained.nodup, hstart.chained.fresh⟩

/-- The new event has a subclass header or none, and no other. -/
theorem copyStart_names (ev : SwitchEvent) : (ev.subclassName = none → names (copyStart ev) = [])
      ∧ ∀ name ∈ names (copyStart ev), name = eventSubclass := by
  show (ev.subclassName = none → names (cloneStart ev.subclassName) = [])
      ∧ ∀ name ∈ names (cloneStart ev.subclassName), name = eventSubclass
  cases ev.subclassName with
  | none => exact ⟨fun _ => rfl, fun name hmem => absurd hmem List.not_mem_nil⟩
  | some sub =>
    refine ⟨fun h => absurd h (by simp), fun name hmem => ?_⟩
    have hgrown := add_names plain_eventSubclass _ sub rfl
      { blankEvent with subclassName := some sub } stackBottom (inv_of_empty ⟨rfl, rfl⟩) rfl rfl
      (.inr fun other hmem => absurd hmem List.not_mem_nil)
    rcases hgrown with hsame | ⟨-, hnew⟩
    · have hnil : names (cloneStart (some sub)) = [] := hsame
      rw [hnil] at hmem
      cases hmem
    · have hone : names (cloneStart (some sub)) = [eventSubclass] := hnew
      rw [hone] at hmem
      exact List.mem_singleton.mp hmem

theorem copyStart_body (ev : SwitchEvent) : (copyStart ev).body = none := by
  show (cloneStart ev.subclassName).body = none
  cases ev.subclassName with
  | none => rfl
  | some sub =>
    exact add_body (P := fun body => body = none) plain_eventSubclass
      (fun h => absurd h (by decide)) _ sub rfl _ stackBottom fun _ => rfl

/-! ## Sorting the headers into copied and skipped ones -/

theorem kept_plain (h : Built ev) : ∀ hp ∈ kept ev, Plain hp.name :=
  fun hp hmem => h.plain hp (List.mem_of_mem_filter hmem)

theorem kept_scalar (h : Built ev) : ∀ hp ∈ kept ev, ScalarOk hp :=
  fun hp hmem => h.scalar hp (List.mem_of_mem_filter hmem)

theorem kept_uniq (h : Built ev) : UniqNames (copyStart ev) (kept ev) := by
  intro huniq
  obtain ⟨hpair, hsub⟩ := h.uniq huniq
  rw [(copyStart_names ev).1 hsub, List.nil_append]
  exact hpair.sublist (List.filter_sublist.map _)

/-- The views of the copied headers, by name. -/
theorem filter_kept_views (ev : SwitchEvent) :
    ((kept ev).map Header.view).filter (·.name ≠ eventSubclass)
      = (views ev).filter (·.name ≠ eventSubclass) := by
  rw [kept, views, List.filter_map, List.filter_map, List.filter_filter]
  refine congrArg (List.map Header.view) (List.filter_congr fun hp _ => ?_)
  by_cases hname : hp.name = eventSubclass
  · simp [Header.view, hname]
  · simp [Header.view, hname, skipped]

/-- With a subclass, everything of that name is skipped; without one, nothing is. -/
theorem filter_subclass_views (ev : SwitchEvent) : (views ev).filter (·.name = eventSubclass)
      = (ev.headers.filter fun hp => skipped ev hp).map Header.view
        ++ ((kept ev).map Header.view).filter (·.name = eventSubclass) := by
  rw [kept, views, List.filter_map, List.filter_map, List.filter_filter, ← List.map_append]
  refine congrArg (List.map Header.view) ?_
  cases hsub : ev.subclassName with
  | none =>
    have hnone : ∀ hp, ¬ skipped ev hp := fun hp h => by simp [skipped, hsub] at h
    simp [hnone, Function.comp_def]
  | some sub =>
    have hsome : ∀ hp, skipped ev hp ↔ hp.name = eventSubclass := fun hp => by
      simp [skipped, hsub]
    refine Eq.trans ?_ (congrArg₂ (· ++ ·) rfl (List.filter_eq_nil_iff.mpr ?_).symm)
    · rw [List.append_nil]
      exact List.filter_congr fun hp _ => decide_eq_decide.mpr (hsome hp).symm
    · intro hp _ hboth
      obtain ⟨hname, hnot⟩ := Bool.and_eq_true_iff.mp hboth
      exact of_decide_eq_true hnot ((hsome hp).mpr (of_decide_eq_true hname))

theorem views_copyStart_names (ev : SwitchEvent) :
    ∀ v ∈ views (copyStart ev), v.name = eventSubclass := by
  intro v hmem
  obtain ⟨hp, hhp, rfl⟩ := List.mem_map.mp hmem
  exact (copyStart_names ev).2 hp.name (List.mem_map_of_mem hhp)

/-! ## Faithful exactly if safe -/

/-- A body appears in the copies only through a header of that name. -/
theorem copyHeader_sets_body {hp : Header} (hname : Plain hp.name) (hscalar : ScalarOk hp)
    (hbody : hp.name = bytes "_body") (c : SwitchEvent) : (copyHeader c hp).body ≠ none := by
  have hadd : ∀ (c : SwitchEvent) (stack : Stack) (data : Str),
      (switchEventAddHeaderString c stack hp.name (some data)).body ≠ none := fun c stack data =>
    add_body (P := (· ≠ none)) hname (fun _ _ => by simp) _ data rfl c stack
      fun hne => absurd hbody hne
  cases harray : hp.array with
  | nil =>
    obtain ⟨data, hvalue, -⟩ := hscalar harray
    rw [copyHeader, if_pos harray, hvalue]
    exact hadd c stackBottom data
  | cons x xs =>
    rw [copyHeader, if_neg (by simp [harray]), harray, List.foldl_cons]
    exact foldl_body (P := (· ≠ none)) xs (fun data _ c _ => hadd c stackPush data) _
      (hadd c stackPush x)

theorem copyAll_body : ∀ (hps : List Header) (c : SwitchEvent), (∀ hp ∈ hps, Plain hp.name) →
      (∀ hp ∈ hps, ScalarOk hp) → c.body = none →
      ((hps.foldl copyHeader c).body = none ↔ ∀ hp ∈ hps, hp.name ≠ bytes "_body") := by
  intro hps
  induction hps with
  | nil => intro c _ _ hnone; simpa using hnone
  | cons hp hps ih =>
    intro c hplain hscalar hnone
    have hplain' : ∀ hq ∈ hps, Plain hq.name := fun hq hmem =>
      hplain hq (List.mem_cons_of_mem _ hmem)
    rw [List.foldl_cons, List.forall_mem_cons]
    by_cases hbody : hp.name = bytes "_body"
    · refine ⟨fun h => absurd h ?_, fun h => absurd hbody h.1⟩
      refine foldl_body (P := (· ≠ none)) hps (fun hq hmem c hne => ?_) _
        (copyHeader_sets_body (hplain hp List.mem_cons_self) (hscalar hp List.mem_cons_self) hbody c)
      exact copyHeader_body (P := (· ≠ none)) (hplain' hq hmem) (fun _ _ => by simp) hne
    · have hstill : (copyHeader c hp).body = none :=
        copyHeader_body (P := (· = none)) (hplain hp List.mem_cons_self)
          (fun h => absurd h hbody) hnone
      rw [ih _ hplain' (fun hq hmem => hscalar hq (List.mem_cons_of_mem _ hmem)) hstill]
      exact ⟨fun h => ⟨hbody, h⟩, fun h => h.2⟩

theorem copyAll_edits (hps : List Header) (hplain : ∀ hp ∈ hps, Plain hp.name) (c : SwitchEvent) :
    Edits copyScope c (hps.foldl copyHeader c) :=
  edits_foldl hps (fun hp hmem c => copyHeader_edits (hplain hp hmem) c) c

theorem views_dup {d : SwitchEvent} (h : Built ev) (hdup : switchEventDup ev = some d)
    (harrays : ∀ hp ∈ kept ev, ArrayOk hp) (hnoMerge : NoMerge (names (copyStart ev)) (kept ev)) :
    views d = views (copyStart ev) ++ (kept ev).map Header.view := by
  obtain ⟨d', hd', hheaders, -⟩ := dup_eq ev
  cases hdup.symm.trans hd'
  rw [views, hheaders]
  exact copyAll_views (kept ev) (copyStart_inv ev) (kept_plain h)
    (kept_scalar h) harrays hnoMerge (kept_uniq h)

theorem filter_views_copyStart (ev : SwitchEvent) :
    (views (copyStart ev)).filter (·.name = eventSubclass) = views (copyStart ev) := by
  rw [List.filter_eq_self]
  intro v hmem
  simp [views_copyStart_names ev v hmem]

theorem dup_faithful_of_safe {d : SwitchEvent} (h : Built ev) (hsafe : DupSafe ev)
    (hdup : switchEventDup ev = some d) : Faithful ev d := by
  obtain ⟨d', hd', hheaders, heventId, hflags, hbody⟩ := dup_eq ev
  cases hdup.symm.trans hd'
  have hviews := views_dup h hdup hsafe.arrays hsafe.noMerge
  have hrest : SameRest (copyStart ev) ((kept ev).foldl copyHeader (copyStart ev)) :=
    edits_sameRest (copyAll_edits _ (kept_plain h) _)
  refine ⟨?_, hflags.trans hrest.flags, heventId.trans hrest.eventId, ?_, ?_⟩
  · cases hev : ev.body with
    | none => rw [hbody, hev, (copyAll_body _ _ (kept_plain h) (kept_scalar h)
        (copyStart_body ev)).mpr (hsafe.noBody hev)]; rfl
    | some body => rw [hbody, hev]; rfl
  · have hnone : (views (copyStart ev)).filter (·.name ≠ eventSubclass) = [] := by
      rw [List.filter_eq_nil_iff]
      intro v hmem
      simp [views_copyStart_names ev v hmem]
    rw [hviews, List.filter_append, hnone, filter_kept_views]
    rfl
  · rw [hviews, List.filter_append, filter_views_copyStart, filter_subclass_views, hsafe.subclass]
    rfl

/-- A header made by copying: its value, or its first element, was stored as it is. -/
def FirstPlain (hp : Header) : Prop := ScalarOk hp ∧ ∀ x xs, hp.array = x :: xs → PlainValue x

theorem edit_firstPlain {c c' : SwitchEvent} (h : Chained c)
    (hfirst : ∀ hp ∈ c.headers, FirstPlain hp) (hedit : Edit copyScope c c') :
    ∀ hp ∈ c'.headers, FirstPlain hp := by
  refine forall_headers_of_edit ?_ ?_ ?_ ?_ h hfirst hedit
  · rintro stack hp data hstack ⟨hscalar, hx⟩
    have hpush : stack.push = true := hstack.resolve_right id
    -- the new element goes to the end
    obtain ⟨y, ys, harray, hy⟩ : ∃ y ys, (pushElement stack hp data).array = y :: ys
        ∧ PlainValue y := by
      cases harray : hp.array with
      | nil =>
        obtain ⟨v, hvalue, hv⟩ := hscalar harray
        exact ⟨v, [data], by simp [pushElement, redraw, harray, hvalue, hpush], hv⟩
      | cons y ys =>
        refine ⟨y, ys ++ [data], ?_, hx y ys harray⟩
        cases hvalue : hp.value <;> simp [pushElement, redraw, harray, hvalue, hpush]
    refine ⟨fun hnil => by simp [harray] at hnil, fun x xs hxs => ?_⟩
    rw [harray] at hxs
    cases hxs
    exact hy
  · exact fun _ _ _ hfree _ => hfree.elim
  · exact fun _ _ _ _ hreplace _ => hreplace.elim
  · intro header _ hdrawn
    refine ⟨scalarOk_of_drawn hdrawn, fun x xs hxs => ?_⟩
    rcases hdrawn with ⟨hnil, -⟩ | ⟨-, -, hfree | ⟨data, hdata, hplain⟩⟩
    · exact absurd (hnil.symm.trans hxs) (by simp)
    · exact hfree.elim
    · cases hdata.symm.trans hxs
      exact hplain

theorem edits_firstPlain {c c' : SwitchEvent} (h : Edits copyScope c c') (hinv : Inv c)
    (hfirst : ∀ hp ∈ c.headers, FirstPlain hp) : Inv c' ∧ ∀ hp ∈ c'.headers, FirstPlain hp := by
  refine h.preserves (P := fun c => Inv c ∧ ∀ hp ∈ c.headers, FirstPlain hp) ?_ ⟨hinv, hfirst⟩
  rintro c c' ⟨hinv, hfirst⟩ hedit
  exact ⟨hedit.edits.inv_of_copy hinv, edit_firstPlain hinv.chained hfirst hedit⟩

theorem copyStart_firstPlain (ev : SwitchEvent) : ∀ hp ∈ (copyStart ev).headers, FirstPlain hp := by
  show ∀ hp ∈ (cloneStart ev.subclassName).headers, FirstPlain hp
  cases ev.subclassName with
  | none => exact fun hp hmem => absurd hmem List.not_mem_nil
  | some sub =>
    exact (edits_firstPlain (add_edits plain_eventSubclass _ rfl (some sub))
      (inv_of_empty ⟨rfl, rfl⟩) fun hp hmem => absurd hmem List.not_mem_nil).2

/-- Whatever was copied, an array of the duplicate starts with a string that was stored as it
is, and its value shows it. -/
theorem copyAll_arrayOk (h : Built ev) :
    ∀ hp ∈ ((kept ev).foldl copyHeader (copyStart ev)).headers, ArrayOk hp := by
  obtain ⟨hinv, hfirst⟩ := edits_firstPlain (copyAll_edits (kept ev) (kept_plain h) (copyStart ev))
    (copyStart_inv ev) (copyStart_firstPlain ev)
  intro hp hmem x xs hxs
  exact ⟨(hfirst hp hmem).2 x xs hxs,
    (headerOk_iff.mp (hinv.headers hp hmem)).1 (by simp [hxs])⟩

/-- A faithful duplicate has got every name back. -/
theorem names_of_faithful {d : SwitchEvent} (hfaithful : Faithful ev d) {l : List Str}
    (hnames : names d = names (copyStart ev) ++ l)
    (hsub : l.Sublist ((kept ev).map Header.name)) : l.length = (kept ev).length := by
  have hviews : ∀ ev : SwitchEvent, names ev = (views ev).map View.name := fun ev => by
    rw [views, List.map_map]
    rfl
  have hother : (names d).filter (· ≠ eventSubclass) = (names ev).filter (· ≠ eventSubclass) := by
    rw [hviews, hviews, List.filter_map, List.filter_map]
    exact congrArg (List.map View.name) hfaithful.headers
  cases hcase : ev.subclassName with
  | none =>
    have hkept : kept ev = ev.headers := by
      rw [kept, List.filter_eq_self]
      simp [skipped, hcase]
    rw [(copyStart_names ev).1 hcase, List.nil_append] at hnames
    have hsame : (names d).filter (· = eventSubclass) = (names ev).filter (· = eventSubclass) := by
      rw [hviews, hviews, List.filter_map, List.filter_map]
      exact congrArg (List.map View.name) hfaithful.subclass
    have hcount : ∀ names : List Str, names.length = (names.filter (· = eventSubclass)).length
        + (names.filter (· ≠ eventSubclass)).length := fun names => by
      simpa using List.length_eq_length_filter_add (fun name : Str => decide (name = eventSubclass))
    rw [← hnames, hkept, hcount, hsame, hother, ← hcount, names, List.length_map]
  | some sub =>
    have hkept : ∀ name ∈ (kept ev).map Header.name, name ≠ eventSubclass := by
      intro name hmem
      obtain ⟨hp, hhp, rfl⟩ := List.mem_map.mp hmem
      have hnot := (List.mem_filter.mp hhp).2
      simpa [skipped, hcase] using hnot
    have hleft : (names d).filter (· ≠ eventSubclass) = l := by
      rw [hnames, List.filter_append, List.filter_eq_nil_iff.mpr, List.nil_append,
        List.filter_eq_self]
      · intro name hmem
        simpa using hkept name (hsub.subset hmem)
      · intro name hmem
        simpa using (copyStart_names ev).2 name hmem
    have hright : (names ev).filter (· ≠ eventSubclass) = (kept ev).map Header.name := by
      rw [names, List.filter_map, kept]
      refine congrArg (List.map Header.name) (List.filter_congr fun hp _ => ?_)
      simp [skipped, hcase]
    rw [← hleft, hother, hright, List.length_map]

theorem safe_of_dup_faithful {d : SwitchEvent} (h : Built ev)
    (hdup : switchEventDup ev = some d) (hfaithful : Faithful ev d) : DupSafe ev := by
  obtain ⟨d', hd', hheaders, -, -, hbody⟩ := dup_eq ev
  cases hdup.symm.trans hd'
  obtain ⟨l, hsub, hl, hmerge⟩ := copyAll_names (kept ev) (copyStart_inv ev) (kept_plain h)
    (kept_scalar h) (kept_uniq h)
  have hnames : names d = names (copyStart ev) ++ l := by rw [← hl, names, hheaders]; rfl
  have hnoMerge := hmerge (names_of_faithful hfaithful hnames hsub)
  have harrays : ∀ hp ∈ kept ev, ArrayOk hp := by
    intro hp hmem
    -- the header is seen in the duplicate
    have hview : hp.view ∈ views ev := List.mem_map_of_mem (List.mem_of_mem_filter hmem)
    have hview' : hp.view ∈ views d := by
      by_cases hname : hp.view.name = eventSubclass
      · have hin : hp.view ∈ (views ev).filter (·.name = eventSubclass) := by
          simp [hview, hname]
        rw [← hfaithful.subclass] at hin
        exact List.mem_of_mem_filter hin
      · have hin : hp.view ∈ (views ev).filter (·.name ≠ eventSubclass) := by
          simp [hview, hname]
        rw [← hfaithful.headers] at hin
        exact List.mem_of_mem_filter hin
    obtain ⟨hp', hhp', heq⟩ := List.mem_map.mp hview'
    obtain ⟨hn, hv, ha⟩ := View.mk.inj heq
    intro x xs harray
    rw [hheaders] at hhp'
    have hok := copyAll_arrayOk h hp' hhp' x xs (ha.trans harray)
    rwa [ha, hv] at hok
  have hviews := views_dup h hdup harrays hnoMerge
  refine ⟨?_, harrays, hnoMerge, fun hnone => ?_⟩
  · have hsubclass := hfaithful.subclass
    rw [hviews, List.filter_append, filter_views_copyStart, filter_subclass_views] at hsubclass
    exact (List.append_cancel_right hsubclass).symm
  · rw [← copyAll_body _ _ (kept_plain h) (kept_scalar h) (copyStart_body ev)]
    have hd := hfaithful.body
    rw [hbody, hnone] at hd
    exact hd

/-- The hash of a name never hides a header: after any calls a lookup is the plain search. -/
theorem lookup_eq_search {value : Str → Option Str} {eventId : EventType} {sub : Option Str}
    {ev₀ : SwitchEvent}
    (hcreate : switchEventCreateSubclass value eventId sub = some ev₀) (calls : List Call)
    (name : Str) :
    switchEventGetHeaderPtr (calls.foldl call ev₀) name
      = (calls.foldl call ev₀).headers.find? fun hp => ciEq hp.name name := by
  have hbuilt : Built (calls.foldl call ev₀) :=
    List.foldlRecOn calls _ (create_built hcreate) fun _ h c _ => call_built h c
  apply List.find?_congr
  intro hp hmem
  rw [decide_eq_decide, named_iff (hbuilt.hashed hp hmem)]

/-- A header is found under its name in other letters. -/
theorem lookup_eq_search_clone :
    let ev := [Call.addHeaderString stackBottom (bytes "A") (some (bytes "1"))].foldl call
      (cloneStart none)
    switchEventGetHeaderPtr ev (bytes "a") = some ⟨0, bytes "A", some (bytes "1"), [], 97⟩ :=
  (lookup_eq_search (create_clone none) _ _).trans (by decide +kernel)

/-- For every event made by `switch_event_create_subclass` and any sequence of calls: the
duplicate is faithful exactly if the event is safe. -/
theorem switch_event_dup_faithful_iff {value : Str → Option Str} {eventId : EventType}
    {sub : Option Str} {ev₀ : SwitchEvent}
    (hcreate : switchEventCreateSubclass value eventId sub = some ev₀) (calls : List Call) :
    (∃ d, switchEventDup (calls.foldl call ev₀) = some d ∧ Faithful (calls.foldl call ev₀) d)
      ↔ DupSafe (calls.foldl call ev₀) := by
  have hbuilt : Built (calls.foldl call ev₀) :=
    List.foldlRecOn calls _ (create_built hcreate) fun _ h c _ => call_built h c
  constructor
  · rintro ⟨d, hdup, hfaithful⟩
    exact safe_of_dup_faithful hbuilt hdup hfaithful
  · intro hsafe
    obtain ⟨d, hdup, -⟩ := dup_eq (calls.foldl call ev₀)
    exact ⟨d, hdup, dup_faithful_of_safe hbuilt hsafe hdup⟩

/-- A custom event with a plain header and an array. -/
theorem switch_event_dup_faithful_custom :
    let ev₀ := cloneStart (some (bytes "sub::class"))
    let calls : List Call := [.addHeaderString stackBottom (bytes "a") (some (bytes "1")),
      .addHeaderString stackPush (bytes "b") (some (bytes "x")),
      .addHeaderString stackPush (bytes "b") (some (bytes "y")), .setBody (some (bytes "text"))]
    switchEventCreateSubclass (fun _ => none) .clone (some (bytes "sub::class")) = some ev₀
      ∧ ∃ d, switchEventDup (calls.foldl call ev₀) = some d
        ∧ Faithful (calls.foldl call ev₀) d := by
  intro ev₀ calls
  refine ⟨rfl, (switch_event_dup_faithful_iff (create_clone _) calls).mpr ?_⟩
  let a : Header := ⟨1, bytes "a", some (bytes "1"), [], 97⟩
  let b : Header := ⟨2, bytes "b", some (bytes "ARRAY::x|:y"), [bytes "x", bytes "y"], 98⟩
  have hkept : kept (calls.foldl call ev₀) = [a, b] := by decide +kernel
  refine ⟨by decide +kernel, ?_, ?_, fun hnone => ?_⟩
  · rw [hkept]
    intro hp hmem x xs hxs
    rcases List.mem_cons.mp hmem with rfl | hmem
    · cases hxs
    · cases List.mem_singleton.mp hmem
      cases hxs
      exact ⟨⟨by decide, by decide⟩, by decide⟩
  · rw [hkept]
    refine ⟨fun h => absurd rfl h, fun _ other hmem => ?_, trivial⟩
    have hseen : names (cloneStart (calls.foldl call ev₀).subclassName) ++ [a.name]
        = [eventSubclass, bytes "a"] := by decide +kernel
    rw [hseen] at hmem
    rcases List.mem_cons.mp hmem with rfl | hmem
    · decide
    · cases List.mem_singleton.mp hmem
      decide
  · have hbody : (calls.foldl call ev₀).body = some (bytes "text") := by decide +kernel
    rw [hbody] at hnone
    cases hnone

/-- A header set through `b[1]` starts with an empty element; the duplicate has lost it. -/
theorem switch_event_dup_drops_empty :
    let ev := [Call.addHeaderString stackBottom (bytes "b[1]") (some (bytes "x"))].foldl call
      (cloneStart none)
    switchEventCreateSubclass (fun _ => none) .clone none = some (cloneStart none)
      ∧ views ev = [⟨bytes "b", some (bytes "ARRAY::|:x"), [[], bytes "x"]⟩]
      ∧ (switchEventDup ev).map views = some [⟨bytes "b", some (bytes "x"), [bytes "x"]⟩]
      ∧ ¬ ∃ d, switchEventDup ev = some d ∧ Faithful ev d := by
  intro ev
  have hviews : views ev = [⟨bytes "b", some (bytes "ARRAY::|:x"), [[], bytes "x"]⟩] := by
    decide +kernel
  have hdup : (switchEventDup ev).map views = some [⟨bytes "b", some (bytes "x"), [bytes "x"]⟩] := by
    decide +kernel
  refine ⟨rfl, hviews, hdup, ?_⟩
  rintro ⟨d, hd, hfaithful⟩
  rw [hd, Option.map_some, Option.some.injEq] at hdup
  have hheaders := hfaithful.headers
  rw [hdup, hviews] at hheaders
  exact absurd hheaders (by decide)

end FreeSwitch.Event
