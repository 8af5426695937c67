import FreeSwitch.Event.Faithful
import FreeSwitch.Event.Serialize
import FreeSwitch.Lib.Printf

/-!
# Events as JSON — `switch_event_serialize_json`, `switch_event_create_json`

A header becomes a string, or an array of strings; the body becomes `_body`. Reading the object
back adds the headers again through the calls that made them, and hands the body to a function
that takes a format.

The text in between is left out: an object that is printed and parsed is taken to be the same.

* **`createHeaders_views`** — headers that are safe come back.
* **`createHeaders_replayed`** — what is true of everything that comes back.
* **`json_roundTrip_iff`** — the event comes back exactly if it is `JsonSafe`.
-/

namespace FreeSwitch.Event

open CString

/-! ## The code -/

inductive JsonItem where
  | string (valuestring : Str)
  | array (items : List Str)
  deriving DecidableEq

/-- The children of a `cJSON` object, with their names. -/
abbrev JsonObject := List (Str × JsonItem)

def headerItem (hp : Header) : Str × JsonItem :=
  (hp.name, if hp.array = [] then .string hp.text else .array hp.array)

def bodyItems : Option Str → JsonObject
  | none => []
  | some body =>
    [(bytes "Content-Length", .string (printInt (intOfSize body.length))),
      (bytes "_body", .string body)]

def switchEventSerializeJsonObj (ev : SwitchEvent) : JsonObject :=
  ev.headers.map headerItem ++ bodyItems ev.body

/-- `switch_event_add_body(event, fmt, SWITCH_VA_NONE)`: the macro is `"%s", ""`, and these are what
the directives of the format get. `none` where C does not define the call; the body stays where the
result is too long for `vasprintf`. -/
def switchEventAddBody (ev : SwitchEvent) (fmt : Str) : Option SwitchEvent :=
  (printf fmt [bytes "%s", []]).map fun data =>
    if data.length < 2 ^ 31 then { ev with body := some data } else ev

section

-- `switch_name_event`
variable (nameEvent : Str → Option EventType)

/-- `event-name` also sets the type of the event. -/
def applyEventName (ev : SwitchEvent) (name value : Str) : SwitchEvent :=
  if ciEq name (bytes "event-name") then
    let ev := switchEventDelHeader ev (bytes "event-name")
    { ev with eventId := (nameEvent value).getD ev.eventId }
  else ev

/-- One round of the loop of `switch_event_create_json`. -/
def createItem (ev : SwitchEvent) (item : Str × JsonItem) : Option SwitchEvent :=
  match item with
  | (name, .string value) =>
    if ciEq name (bytes "_body") then switchEventAddBody ev value
    else
      some (switchEventAddHeaderString (applyEventName nameEvent ev name value) stackBottom name
        (some value))
  | (name, .array items) =>
    some (items.foldl (fun ev data => switchEventAddHeaderString ev stackPush name (some data)) ev)

def switchEventCreateJson (object : JsonObject) : Option SwitchEvent :=
  (switchEventCreateSubclass (fun _ => none) .clone none).bind fun ev =>
    object.foldlM (createItem nameEvent) ev

end

/-! ## The property -/

structure RoundTrip (ev d : SwitchEvent) : Prop where
  body : d.body = ev.body
  headers : ∀ hp ∈ ev.headers, hp.view ∈ views d

structure HeaderReady (hp : Header) : Prop where
  plain : Plain hp.name
  value : ∃ value, hp.value = some value ∧ value ≠ []
  elements : [] ∉ hp.array
  reserved : hp.name ≠ bytes "_body" ∧ hp.name ≠ bytes "Content-Length"

/-- The events in question. -/
structure JsonReady (ev : SwitchEvent) : Prop where
  headers : ∀ hp ∈ ev.headers, HeaderReady hp
  distinct : (names ev).Pairwise fun name name' => ¬ ciEq name name'

/-- A header that comes back: the body is looked for in any letter case, and values that look like
an array are made one. -/
structure HeaderSafe (hp : Header) : Prop where
  scalar : hp.array = [] → ¬ ciEq hp.name (bytes "_body") ∧ ¬ arrayPrefix <+: hp.text
  array : ∀ x xs, hp.array = x :: xs → ¬ arrayPrefix <+: x ∧ hp.value = some (flatten hp.array)

/-- A body that is the same as a format: without a percent sign, or with one, which is a `%s`. -/
def FormatSafe (body : Str) : Prop :=
  37 ∉ body ∨ ∃ pre post, body = pre ++ bytes "%s" ++ post ∧ 37 ∉ pre ∧ 37 ∉ post

structure JsonSafe (ev : SwitchEvent) : Prop where
  headers : ∀ hp ∈ ev.headers, HeaderSafe hp
  body : ∀ body, ev.body = some body → body.length < 2 ^ 31 ∧ FormatSafe body

/-! ## The body as a format -/

theorem printf_body_iff (body : Str) : printf body [bytes "%s", []] = some body ↔ FormatSafe body := by
  constructor
  · intro h
    have honly := onlyPlain_of_printf_eq_self (by decide) h
    cases honly with
    | text _ hmem => exact .inl hmem
    | @directive pre rest _ _ hpre _ hrest =>
      -- the second argument is empty, so there is no second directive
      cases hrest with
      | text _ hmem => exact .inr ⟨pre, rest, by rw [List.append_assoc]; rfl, hpre, hmem⟩
      | directive _ harg _ => cases harg
  · rintro (hmem | ⟨pre, post, rfl, hpre, hpost⟩)
    · exact printf_text hmem _
    · have hdirective : printf (bytes "%s" ++ post) [bytes "%s", []]
          = (printf post [[]]).map (bytes "%s" ++ ·) := rfl
      rw [List.append_assoc, printf_append hpre, hdirective, printf_text hpost]
      rfl

/-! ## One header -/

/-- What is true of an event that is made from an object. -/
structure Replayed (d : SwitchEvent) : Prop where
  inv : Inv d
  first : ∀ hp ∈ d.headers, FirstPlain hp
  flags : d.flags = 0

theorem replayed_blank : Replayed blankEvent :=
  ⟨inv_of_empty ⟨rfl, rfl⟩, fun _ hmem => absurd hmem List.not_mem_nil, rfl⟩

variable {d : SwitchEvent}

theorem Replayed.edits {d' : SwitchEvent} (h : Replayed d) (hedits : Edits copyScope d d') :
    Replayed d' := by
  obtain ⟨hinv, hfirst⟩ := edits_firstPlain hedits h.inv h.first
  exact ⟨hinv, hfirst, (edits_sameRest hedits).flags.trans h.flags⟩

theorem Replayed.withEventId (h : Replayed d) (eventId : EventType) : Replayed { d with eventId } :=
  ⟨⟨h.inv.headers, h.inv.chained.last, h.inv.chained.nodup, h.inv.chained.fresh⟩, h.first, h.flags⟩

theorem Replayed.not_uniq (h : Replayed d) : ¬ d.uniqHeaders = true := by
  rw [SwitchEvent.uniqHeaders, h.flags]
  decide

theorem Replayed.addBody {d' : SwitchEvent} (h : Replayed d) {fmt : Str}
    (hadd : switchEventAddBody d fmt = some d') : Replayed d' ∧ d'.headers = d.headers := by
  obtain ⟨data, -, rfl⟩ := Option.map_eq_some_iff.mp hadd
  split
  · have hedit : Edit copyScope d (switchEventSetBody d (some data)) := .body d (some data)
    exact ⟨h.edits hedit.edits, rfl⟩
  · exact ⟨h, rfl⟩

section

variable (nameEvent : Str → Option EventType)

/-- A plain header that is taken for the body. -/
def BodyLike (hp : Header) : Prop := hp.array = [] ∧ ciEq hp.name (bytes "_body")

instance (hp : Header) : Decidable (BodyLike hp) := inferInstanceAs (Decidable (_ ∧ _))

/-- The event that a header is added to. -/
def beforeCopy (ev : SwitchEvent) (hp : Header) : SwitchEvent :=
  if hp.array = [] then applyEventName nameEvent ev hp.name hp.text else ev

theorem createItem_bodyLike {hp : Header} (h : BodyLike hp) (ev : SwitchEvent) :
    createItem nameEvent ev (headerItem hp) = switchEventAddBody ev hp.text := by
  simp [headerItem, createItem, h.1, h.2]

/-- The other headers are copied as in a duplicate. -/
theorem createItem_header {hp : Header} (hbody : ¬ BodyLike hp) {value : Str}
    (hvalue : hp.value = some value) (ev : SwitchEvent) :
    createItem nameEvent ev (headerItem hp) = some (copyHeader (beforeCopy nameEvent ev hp) hp) := by
  by_cases harray : hp.array = []
  · have hname : ¬ ciEq hp.name (bytes "_body") := fun h => hbody ⟨harray, h⟩
    simp [headerItem, createItem, harray, hname, copyHeader, beforeCopy, Header.text, hvalue]
  · simp [headerItem, createItem, harray, copyHeader, beforeCopy]

/-- Where the name is new, there is nothing to delete. -/
theorem beforeCopy_spec {ev : SwitchEvent} (h : Replayed ev) {hp : Header}
    (hfree : Unnamed (names ev) hp.name) :
    Replayed (beforeCopy nameEvent ev hp) ∧ (beforeCopy nameEvent ev hp).headers = ev.headers
      ∧ (beforeCopy nameEvent ev hp).body = ev.body := by
  unfold beforeCopy applyEventName
  split
  case isFalse => exact ⟨h, rfl, rfl⟩
  case isTrue =>
    split
    case isFalse => exact ⟨h, rfl, rfl⟩
    case isTrue hname =>
      have hdel : Edit copyScope ev (switchEventDelHeader ev (bytes "event-name")) := .del ev _ none
      have hfree' : Unnamed (names ev) (bytes "event-name") := fun other hmem hci =>
        hfree other hmem (hci.trans hname.symm)
      exact ⟨(h.edits hdel.edits).withEventId _, del_of_unnamed h.inv.hashed hfree', rfl⟩

theorem copyHeader_grown {ev : SwitchEvent} (h : Inv ev) {hp : Header} (hplain : Plain hp.name)
    {value : Str} (hvalue : hp.value = some value) (hfree : Unnamed (names ev) hp.name) :
    Grown (names ev) hp.name (names (copyHeader ev hp)) := by
  by_cases harray : hp.array = []
  · rw [copyHeader, if_pos harray, hvalue]
    exact add_names hplain _ value rfl ev stackBottom h rfl rfl (.inr hfree)
  · exact copyHeader_names_array h hplain harray

/-! ## All headers -/

theorem unnamed_of_pairwise {seen rest : List Str} {name : Str}
    (h : (seen ++ name :: rest).Pairwise fun name name' => ¬ ciEq name name') : Unnamed seen name :=
  fun other hmem => (List.pairwise_append.mp h).2.2 other hmem name List.mem_cons_self

/-- Whatever is made of the headers, it has some of the names of those that are not the body. -/
theorem createHeaders_replayed :
    ∀ (hps : List Header) {ev d : SwitchEvent}, Replayed ev → (∀ hp ∈ hps, HeaderReady hp) →
      (names ev ++ hps.map Header.name).Pairwise (fun name name' => ¬ ciEq name name') →
      (hps.map headerItem).foldlM (createItem nameEvent) ev = some d →
      Replayed d ∧ ∀ name ∈ names d, name ∈ names ev ∨ ∃ hp ∈ hps, ¬ BodyLike hp ∧ hp.name = name := by
  intro hps
  induction hps with
  | nil =>
    intro ev d h _ _ hd
    cases hd
    exact ⟨h, fun name hmem => .inl hmem⟩
  | cons hp hps ih =>
    intro ev d h hready hdistinct hd
    obtain ⟨hp_ready, hps_ready⟩ := List.forall_mem_cons.mp hready
    obtain ⟨value, hvalue, -⟩ := hp_ready.value
    rw [List.map_cons, List.foldlM_cons] at hd
    rw [List.map_cons] at hdistinct
    obtain ⟨ev', hstep, hrest⟩ := Option.bind_eq_some_iff.mp hd
    have hfree := unnamed_of_pairwise hdistinct
    -- one name more at most, and it is not one of a body
    have hnext : Replayed ev' ∧ (names ev' = names ev
        ∨ names ev' = names ev ++ [hp.name] ∧ ¬ BodyLike hp) := by
      by_cases hbody : BodyLike hp
      · rw [createItem_bodyLike nameEvent hbody] at hstep
        obtain ⟨hev', hheaders⟩ := h.addBody hstep
        exact ⟨hev', .inl (congrArg (List.map Header.name) hheaders)⟩
      · rw [createItem_header nameEvent hbody hvalue] at hstep
        cases hstep
        obtain ⟨hbefore, hheaders, -⟩ := beforeCopy_spec nameEvent h hfree
        have hnames : names (beforeCopy nameEvent ev hp) = names ev :=
          congrArg (List.map Header.name) hheaders
        refine ⟨hbefore.edits (copyHeader_edits hp_ready.plain _), ?_⟩
        have hgrown := copyHeader_grown hbefore.inv hp_ready.plain hvalue (hnames ▸ hfree)
        rw [hnames] at hgrown
        exact hgrown.imp_right fun hnew => ⟨hnew.2, hbody⟩
    obtain ⟨hev', hnames⟩ := hnext
    have hsub : (names ev' ++ hps.map Header.name).Sublist
        (names ev ++ hp.name :: hps.map Header.name) := by
      rcases hnames with heq | ⟨heq, -⟩
      · rw [heq]
        exact (List.sublist_cons_self _ _).append_left _
      · rw [heq, List.append_assoc]
        exact List.Sublist.refl _
    obtain ⟨hd', hmem⟩ := ih hev' hps_ready (hdistinct.sublist hsub) hrest
    refine ⟨hd', fun name hname => ?_⟩
    rcases hmem name hname with hold | ⟨hq, hhq, hqbody, hqname⟩
    · rcases hnames with heq | ⟨heq, hbody⟩
      · exact .inl (heq ▸ hold)
      · rw [heq, List.mem_append, List.mem_singleton] at hold
        exact hold.imp_right fun hname => ⟨hp, List.mem_cons_self, hbody, hname.symm⟩
    · exact .inr ⟨hq, List.mem_cons_of_mem _ hhq, hqbody, hqname⟩

/-- A safe header is added as it was. -/
theorem createItem_safe {ev : SwitchEvent} (h : Replayed ev) {hp : Header} (hready : HeaderReady hp)
    (hfree : Unnamed (names ev) hp.name) (hsafe : HeaderSafe hp) :
    ∃ ev', createItem nameEvent ev (headerItem hp) = some ev' ∧ Replayed ev'
      ∧ views ev' = views ev ++ [hp.view] ∧ ev'.body = ev.body := by
  obtain ⟨hplain, ⟨value, hvalue, hne⟩, helements, hreserved⟩ := hready
  have hbody : ¬ BodyLike hp := fun hlike => (hsafe.scalar hlike.1).1 hlike.2
  obtain ⟨hbefore, hheaders, hsame⟩ := beforeCopy_spec nameEvent h hfree
  have hviews : views (beforeCopy nameEvent ev hp) = views ev :=
    congrArg (List.map Header.view) hheaders
  have hnames : names (beforeCopy nameEvent ev hp) = names ev :=
    congrArg (List.map Header.name) hheaders
  refine ⟨_, createItem_header nameEvent hbody hvalue ev,
    hbefore.edits (copyHeader_edits hplain _), ?_, ?_⟩
  · rw [← hviews]
    cases harray : hp.array with
    | nil =>
      have htext : ¬ arrayPrefix <+: value := by
        have hscalar := (hsafe.scalar harray).2
        rwa [Header.text, hvalue, Option.getD_some] at hscalar
      exact copyHeader_scalar hbefore.inv hplain harray hvalue ⟨hne, htext⟩
        fun huniq => absurd huniq hbefore.not_uniq
    | cons x xs =>
      obtain ⟨hx, hflat⟩ := hsafe.array x xs harray
      have hxne : x ≠ [] := fun hnil => helements (by rw [harray, hnil]; exact List.mem_cons_self)
      exact copyHeader_array hbefore.inv hplain harray ⟨hxne, hx⟩ hflat (hnames.symm ▸ hfree)
  · rw [← hsame]
    exact copyHeader_body (P := (· = (beforeCopy nameEvent ev hp).body)) hplain
      (fun hname => absurd hname hreserved.1) rfl

theorem createHeaders_views :
    ∀ (hps : List Header) {ev : SwitchEvent}, Replayed ev → (∀ hp ∈ hps, HeaderReady hp) →
      (names ev ++ hps.map Header.name).Pairwise (fun name name' => ¬ ciEq name name') →
      (∀ hp ∈ hps, HeaderSafe hp) →
      ∃ d, (hps.map headerItem).foldlM (createItem nameEvent) ev = some d ∧ Replayed d
        ∧ views d = views ev ++ hps.map Header.view ∧ d.body = ev.body := by
  intro hps
  induction hps with
  | nil =>
    intro ev h _ _ _
    exact ⟨ev, rfl, h, by simp, rfl⟩
  | cons hp hps ih =>
    intro ev h hready hdistinct hsafe
    obtain ⟨hp_ready, hps_ready⟩ := List.forall_mem_cons.mp hready
    obtain ⟨hp_safe, hps_safe⟩ := List.forall_mem_cons.mp hsafe
    rw [List.map_cons] at hdistinct
    obtain ⟨ev', hstep, hev', hviews, hbody⟩ := createItem_safe nameEvent h hp_ready
      (unnamed_of_pairwise hdistinct) hp_safe
    have hnames : names ev' = names ev ++ [hp.name] := names_eq_of_views hviews
    rw [List.append_cons, ← hnames] at hdistinct
    obtain ⟨d, hd, hreplayed, hviews', hbody'⟩ := ih hev' hps_ready hdistinct hps_safe
    refine ⟨d, ?_, hreplayed, ?_, hbody'.trans hbody⟩
    · rw [List.map_cons, List.foldlM_cons, hstep]
      exact hd
    · rw [hviews', hviews, List.append_assoc]
      rfl

/-! ## The body -/

theorem plainValue_printInt (z : Int) : PlainValue (printInt z) := by
  have hdigits : ∀ n : Nat, PlainValue (printNat n) := by
    intro n
    refine ⟨fun hnil => ?_, fun hbegins => ?_⟩
    · unfold printNat at hnil
      split at hnil
      · cases hnil
      case isFalse hn => exact hn (Nat.digits_eq_nil_iff_eq_zero.mp (by simpa using hnil))
    · have hmem : (65 : UInt8) ∈ printNat n := hbegins.subset (by decide)
      exact absurd (isDigit_of_mem_printNat hmem) (by decide)
  unfold printInt
  split
  · refine ⟨List.cons_ne_nil _ _, fun hbegins => ?_⟩
    have hhead : (65 : UInt8) = 45 := (List.cons_prefix_cons.mp hbegins).1
    cases hhead
  · exact hdigits _

/-- The header the serialiser gives a body, and the body. -/
theorem createBody_spec (h : Replayed d) (body : Str) : ∃ d', d'.body = d.body ∧ views d' = views d
        ++ [⟨bytes "Content-Length", some (printInt (intOfSize body.length)), []⟩]
      ∧ (bodyItems (some body)).foldlM (createItem nameEvent) d = switchEventAddBody d' body := by
  have hplain : Plain (bytes "Content-Length") := by
    unfold Plain
    decide
  refine ⟨switchEventAddHeaderString d stackBottom (bytes "Content-Length")
    (some (printInt (intOfSize body.length))), ?_, ?_, ?_⟩
  · exact add_body (P := (· = d.body)) hplain (fun hname => absurd hname (by decide)) _ _ rfl _ _
      fun _ => rfl
  · have hnew := add_new h.inv.chained h.inv.hashed hplain (plainValue_printInt (intOfSize body.length))
      (show stackBottom.top = false from rfl) rfl fun hor =>
        absurd (hor.resolve_left (by decide)) h.not_uniq
    rw [views, hnew, List.map_append]
    rfl
  · have hlength : ∀ value, createItem nameEvent d (bytes "Content-Length", .string value)
        = some (switchEventAddHeaderString d stackBottom (bytes "Content-Length") (some value)) :=
      fun value => rfl
    have hbody : ∀ d', createItem nameEvent d' (bytes "_body", .string body)
        = switchEventAddBody d' body := fun d' => rfl
    rw [bodyItems, List.foldlM_cons, hlength]
    show List.foldlM (createItem nameEvent) _ [(bytes "_body", JsonItem.string body)] = _
    rw [List.foldlM_cons, hbody]
    exact Option.bind_fun_some _

/-! ## The whole event -/

theorem createJson_eq (object : JsonObject) :
    switchEventCreateJson nameEvent object = object.foldlM (createItem nameEvent) blankEvent := rfl

theorem createJson_serialize (ev : SwitchEvent) :
    switchEventCreateJson nameEvent (switchEventSerializeJsonObj ev)
      = ((ev.headers.map headerItem).foldlM (createItem nameEvent) blankEvent).bind fun d =>
          (bodyItems ev.body).foldlM (createItem nameEvent) d := by
  rw [createJson_eq, switchEventSerializeJsonObj, List.foldlM_append]
  rfl

/-- A body is appended to whatever the headers gave. -/
theorem createBody_cases {d' : SwitchEvent} (h : Replayed d) {body : Option Str}
    (hd' : (bodyItems body).foldlM (createItem nameEvent) d = some d') :
    ∀ v ∈ views d', v ∈ views d ∨ v.name = bytes "Content-Length" := by
  cases body with
  | none =>
    cases hd'
    exact fun v hmem => .inl hmem
  | some body =>
    obtain ⟨d₁, -, hviews, heq⟩ := createBody_spec nameEvent h body
    rw [heq] at hd'
    obtain ⟨data, -, rfl⟩ := Option.map_eq_some_iff.mp hd'
    have hsame : ∀ ev : SwitchEvent, ev.headers = d₁.headers → ∀ v ∈ views ev,
        v ∈ views d ∨ v.name = bytes "Content-Length" := by
      intro ev hheaders v hmem
      rw [views, hheaders] at hmem
      change v ∈ views d₁ at hmem
      rw [hviews, List.mem_append, List.mem_singleton] at hmem
      exact hmem.imp_right (congrArg View.name)
    split
    · exact hsame _ rfl
    · exact hsame _ rfl

/-- A header that has come back was safe. -/
theorem headerSafe_of_view (h : Replayed d) {hp : Header}
    (hbody : ¬ BodyLike hp) (hview : hp.view ∈ views d) : HeaderSafe hp := by
  obtain ⟨hq, hmem, heq⟩ := List.mem_map.mp hview
  obtain ⟨-, hvalue, harray⟩ := View.mk.inj heq
  obtain ⟨hscalar, hfirst⟩ := h.first hq hmem
  refine ⟨fun hnil => ⟨fun hname => hbody ⟨hnil, hname⟩, ?_⟩, fun x xs hxs => ⟨?_, ?_⟩⟩
  · obtain ⟨data, hdata, hplain⟩ := hscalar (harray.trans hnil)
    rw [Header.text, ← hvalue, hdata]
    exact hplain.2
  · exact (hfirst x xs (harray.trans hxs)).2
  · rw [← hvalue, ← harray]
    exact (headerOk_iff.mp (h.inv.headers hq hmem)).1 (by simp [harray, hxs])

theorem headersSafe_of_roundTrip {ev d' : SwitchEvent} (hready : JsonReady ev)
    (hd : (ev.headers.map headerItem).foldlM (createItem nameEvent) blankEvent = some d)
    (hd' : (bodyItems ev.body).foldlM (createItem nameEvent) d = some d')
    (hround : ∀ hp ∈ ev.headers, hp.view ∈ views d') : ∀ hp ∈ ev.headers, HeaderSafe hp := by
  obtain ⟨hreplayed, hnames⟩ :=
    createHeaders_replayed nameEvent ev.headers replayed_blank hready.headers hready.distinct hd
  have hnodup : (ev.headers.map Header.name).Nodup :=
    hready.distinct.imp fun hci heq => hci (congrArg lower heq)
  intro hp hmem
  have hview : hp.view ∈ views d :=
    (createBody_cases nameEvent hreplayed hd' _ (hround hp hmem)).resolve_right
      (hready.headers hp hmem).reserved.2
  have hname : hp.name ∈ names d := by
    obtain ⟨hq, hhq, heq⟩ := List.mem_map.mp hview
    exact List.mem_map.mpr ⟨hq, hhq, (View.mk.inj heq).1⟩
  -- the name is there through a header that is not the body, and only `hp` has it
  obtain hnil | ⟨hq, hhq, hbody, heq⟩ := hnames hp.name hname
  · cases hnil
  · cases List.inj_on_of_nodup_map hnodup hhq hmem heq
    exact headerSafe_of_view hreplayed hbody hview

/-- For every event in question: it comes back, with its body and each of its headers, exactly if
it is safe. -/
theorem json_roundTrip_iff {ev : SwitchEvent} (hready : JsonReady ev) :
    (∃ d, switchEventCreateJson nameEvent (switchEventSerializeJsonObj ev) = some d
      ∧ RoundTrip ev d) ↔ JsonSafe ev := by
  have hheaders := createHeaders_views nameEvent ev.headers replayed_blank hready.headers
    hready.distinct
  rw [createJson_serialize]
  constructor
  · rintro ⟨d', hcreate, hround⟩
    obtain ⟨d, hd, hd'⟩ := Option.bind_eq_some_iff.mp hcreate
    have hsafe := headersSafe_of_roundTrip nameEvent hready hd hd' hround.headers
    refine ⟨hsafe, fun body hbody => ?_⟩
    obtain ⟨d₀, hd₀, hreplayed, -, hnone⟩ := hheaders hsafe
    cases hd.symm.trans hd₀
    obtain ⟨d₁, hbody₁, -, heq⟩ := createBody_spec nameEvent hreplayed body
    rw [hbody, heq] at hd'
    obtain ⟨data, hprint, rfl⟩ := Option.map_eq_some_iff.mp hd'
    have hsame := hround.body
    rw [hbody] at hsame
    split at hsame
    case isTrue hlen =>
      cases hsame
      exact ⟨hlen, (printf_body_iff _).mp hprint⟩
    case isFalse =>
      -- the headers gave no body
      rw [hbody₁, hnone] at hsame
      cases hsame
  · intro hsafe
    obtain ⟨d, hd, hreplayed, hviews, hnone⟩ := hheaders hsafe.headers
    have hmem : ∀ hp ∈ ev.headers, hp.view ∈ views d := fun hp hmem => by
      rw [hviews]
      exact List.mem_append_right _ (List.mem_map_of_mem hmem)
    rw [hd, Option.bind_some]
    cases hbody : ev.body with
    | none => exact ⟨d, rfl, hnone.trans hbody.symm, hmem⟩
    | some body =>
      obtain ⟨hlen, hformat⟩ := hsafe.body body hbody
      obtain ⟨d₁, -, hviews₁, heq⟩ := createBody_spec nameEvent hreplayed body
      refine ⟨{ d₁ with body := some body }, ?_, hbody.symm, fun hp hhp => ?_⟩
      · rw [heq, switchEventAddBody, (printf_body_iff body).mpr hformat, Option.map_some, if_pos hlen]
      · show hp.view ∈ views d₁
        rw [hviews₁]
        exact List.mem_append_left _ (hmem hp hhp)

end

/-- A header, an array and a body. -/
def plainEvent : SwitchEvent :=
  { switchEventAddHeaderString (switchEventAddHeaderString
      (switchEventAddHeaderString blankEvent stackBottom (bytes "Event-Name") (some (bytes "CUSTOM")))
      stackPush (bytes "b") (some (bytes "x"))) stackPush (bytes "b") (some (bytes "y")) with
    body := some (bytes "all %s") }

/-- An event with an array and a body comes back. -/
theorem plainEvent_roundTrip :
    ∃ d, switchEventCreateJson (fun _ => none) (switchEventSerializeJsonObj plainEvent) = some d
      ∧ RoundTrip plainEvent d := by
  have hheaders : plainEvent.headers =
      [⟨0, bytes "Event-Name", some (bytes "CUSTOM"), [],
          switchCiHashfuncDefault (bytes "Event-Name")⟩,
        ⟨1, bytes "b", some (bytes "ARRAY::x|:y"), [bytes "x", bytes "y"],
          switchCiHashfuncDefault (bytes "b")⟩] := by decide +kernel
  refine (json_roundTrip_iff (fun _ => none) ⟨?_, ?_⟩).mpr ⟨?_, ?_⟩
  · rw [hheaders]
    simp only [List.forall_mem_cons, List.not_mem_nil, false_imp_iff, implies_true, and_true]
    refine ⟨⟨by unfold Plain; decide, ⟨_, rfl, by decide⟩, by decide, by decide⟩,
      ⟨by unfold Plain; decide, ⟨_, rfl, by decide⟩, by decide, by decide⟩⟩
  · rw [names, hheaders]
    decide
  · rw [hheaders]
    simp only [List.forall_mem_cons, List.not_mem_nil, false_imp_iff, implies_true, and_true]
    refine ⟨⟨fun _ => by decide, fun x xs hxs => ?_⟩,
      ⟨fun h => absurd h (by decide), fun x xs hxs => ?_⟩⟩
    · cases hxs
    · cases hxs
      decide
  · rintro body ⟨⟩
    exact ⟨by decide, .inr ⟨bytes "all ", [], rfl, by decide, by decide⟩⟩

/-- `100%%` is read as a format: it comes back as `100%`. -/
theorem json_body_formatted :
    let ev : SwitchEvent := { blankEvent with body := some (bytes "100%%") }
    JsonReady ev
      ∧ (switchEventCreateJson (fun _ => none) (switchEventSerializeJsonObj ev)).map (·.body)
        = some (some (bytes "100%"))
      ∧ ¬ ∃ d, switchEventCreateJson (fun _ => none) (switchEventSerializeJsonObj ev) = some d
        ∧ RoundTrip ev d := by
  intro ev
  have hbody : (switchEventCreateJson (fun _ => none) (switchEventSerializeJsonObj ev)).map (·.body)
      = some (some (bytes "100%")) := by decide +kernel
  refine ⟨⟨fun hp hmem => absurd hmem List.not_mem_nil, List.Pairwise.nil⟩, hbody, ?_⟩
  rintro ⟨d, hcreate, hround⟩
  rw [hcreate, Option.map_some, hround.body] at hbody
  exact absurd hbody (by decide)

end FreeSwitch.Event
