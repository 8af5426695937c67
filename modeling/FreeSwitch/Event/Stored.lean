import FreeSwitch.Event.Dup

/-!
# What is found of a value that was added — `src/switch_event.c`

A value that starts with `ARRAY::` is taken apart by `switch_event_add_array`, and its elements are
pushed one by one: the first makes the header, the others are added to its array. An empty first element
makes none, and one that is an array itself is taken apart again.

* **`find_push`** — a push onto a header that is there.
* **`pushes_bounded`** — an array that is taken apart does not get longer.
* **`find_add_iff`** — the values that are found as they were added.
-/

namespace FreeSwitch.Event

open CString

/-- The elements, pushed one by one. -/
def pushes (name : Str) (ev : SwitchEvent) (elements : List Str) : SwitchEvent :=
  elements.foldl (fun ev => switchEventBaseAddHeader ev stackPush name) ev

/-! ## Lengths -/

theorem length_joinPair_append {l m : List Str} (hl : l ≠ []) (hm : m ≠ []) :
    (joinPair [124, 58] (l ++ m)).length = (joinPair [124, 58] l).length + 2 +
      (joinPair [124, 58] m).length := by
  have hall := CString.length_joinPair_append [124, 58] hl m
  rw [← CString.length_joinPair [124, 58] hm] at hall
  simp only [List.length_cons, List.length_nil] at hall
  omega

theorem length_flatten_le (l : List Str) : (flatten l).length ≤ 7 + (joinPair [124, 58] l).length := by
  have hprefix : arrayPrefix.length = 7 := by decide
  unfold flatten
  rw [List.length_append]
  split
  · omega
  · rw [List.length_nil]
    omega

/-! ## Pushes -/

section

variable {name : Str} (hname : Plain name)

include hname

theorem find_push {ev : SwitchEvent} {hp : Header} (h : switchEventGetHeaderPtr ev name = some hp)
    (data : Str) :
    switchEventGetHeaderPtr (switchEventBaseAddHeader ev stackPush name data) name =
      some (pushElement stackPush hp data) := by
  rw [baseAddHeader_plain ev stackPush hname data]
  obtain ⟨body, hbody⟩ := exists_body_set ev name data
  rw [hbody]
  have hfind : (if stackPush.push || stackPush.unshift then
      switchEventGetHeaderPtr { ev with body } name else none) = some hp := h
  simp only [hfind, update]
  -- the names and the hashes stay
  have hsame : ((fun hp' : Header => decide (named name hp')) ∘ fun hp' : Header =>
      if hp'.addr = hp.addr then pushElement stackPush hp' data else hp') = fun hp' =>
        decide (named name hp') := by
    funext hp'
    show decide (named name (if hp'.addr = hp.addr then pushElement stackPush hp' data else hp')) = _
    split <;> rfl
  show (ev.headers.map _).find? _ = _
  rw [List.find?_map, hsame]
  show (switchEventGetHeaderPtr ev name).map _ = _
  rw [h, Option.map_some, if_pos rfl]

/-- Pushes onto a header that has an array. -/
theorem find_pushes (elements : List Str) :
    ∀ {ev : SwitchEvent} {hp : Header}, switchEventGetHeaderPtr ev name = some hp →
    hp.array ≠ [] → hp.value = some (flatten hp.array) → ∃ hp',
    switchEventGetHeaderPtr (pushes name ev elements) name = some hp' ∧
      hp'.array = hp.array ++ elements ∧ hp'.value = some (flatten hp'.array) := by
  induction elements with
  | nil => exact fun h harray hvalue => ⟨_, h, (List.append_nil _).symm, hvalue⟩
  | cons x elements ih =>
    intro ev hp h harray hvalue
    have hpush := find_push hname h x
    rw [pushElement_of_array harray] at hpush
    obtain ⟨hp', hfind, harray', hvalue'⟩ := ih hpush (by simp) rfl
    refine ⟨hp', hfind, ?_, hvalue'⟩
    rw [harray', List.append_assoc]
    rfl

theorem push_inv {ev : SwitchEvent} (h : Inv ev) (data : Str) :
    Inv (switchEventBaseAddHeader ev stackPush name data) :=
  (add_edits hname ev rfl (some data)).inv_of_copy h

section

variable {ev : SwitchEvent} (habsent : switchEventGetHeaderPtr ev name = none)

include habsent

omit hname in
/-- The header that a push would extend. -/
theorem find_pushed (body : Option Str) (stack : Stack) :
    (if stack.push || stack.unshift then switchEventGetHeaderPtr { ev with body } name else none) =
      none := by
  split
  · exact habsent
  · rfl

theorem find_add_empty (stack : Stack) :
    switchEventGetHeaderPtr (switchEventBaseAddHeader ev stack name []) name = none := by
  rw [baseAddHeader_plain ev stack hname []]
  obtain ⟨body, hbody⟩ := exists_body_set ev name []
  rw [hbody]
  simp only [find_pushed habsent body stack, if_true]
  exact List.find?_eq_none.mpr fun hp hmem => by simpa using not_named_of_mem_del hmem

theorem find_add_plain (hinv : Inv ev) {data : Str} (hdata : PlainValue data) {stack : Stack}
    (htop : stack.top = false) (hunshift : stack.unshift = false) :
    ∃ hp, switchEventGetHeaderPtr (switchEventBaseAddHeader ev stack name data) name = some hp ∧
      hp.value = some data ∧ hp.array = if stack.push then [data] else [] := by
  have hnew := add_new hinv.chained hinv.hashed hname hdata htop hunshift fun _ =>
    (getHeaderPtr_none_iff hinv.hashed).mp habsent
  refine ⟨⟨ev.fresh, name, some data, if stack.push then [data] else [], switchCiHashfuncDefault name⟩,
    ?_, rfl, rfl⟩
  show (switchEventAddHeaderString ev stack name (some data)).headers.find? _ = _
  rw [hnew, List.find?_append, show ev.headers.find? _ = none from habsent, Option.none_or,
    List.find?_singleton, if_pos]
  exact decide_eq_true ⟨.inr rfl, rfl⟩

/-- An array is taken apart, on an event without the header. -/
theorem add_array (hinv : Inv ev) {data : Str} (harray : arrayPrefix <+: data) (stack : Stack) :
    ∃ ev', Inv ev' ∧
    switchEventGetHeaderPtr ev' name = none ∧
      switchEventBaseAddHeader ev stack name data = pushes name ev' (arrayElements data) := by
  rw [baseAddHeader_plain ev stack hname data]
  obtain ⟨body, hbody⟩ := exists_body_set ev name data
  rw [hbody]
  have hne : data ≠ [] := by
    intro hnil
    rw [hnil] at harray
    exact absurd (List.prefix_nil.mp harray) (by decide)
  simp only [find_pushed habsent body stack, if_neg hne, if_pos harray]
  refine ⟨_, (edits_uniq_del { ev with body } name).inv (body_inv hinv body), ?_, rfl⟩
  split
  · exact List.find?_eq_none.mpr fun hp hmem => by simpa using not_named_of_mem_del hmem
  · exact habsent

end

/-- No header is there, or one with an array that is drawn and satisfies `P`. -/
def Holds (name : Str) (ev : SwitchEvent) (P : List Str → Prop) : Prop :=
  switchEventGetHeaderPtr ev name = none ∨
    ∃ hp, switchEventGetHeaderPtr ev name = some hp ∧ hp.array ≠ [] ∧
      hp.value = some (flatten hp.array) ∧ P hp.array

/-- What a push of `data` makes, where no header is there, is not longer; and shorter, if `data` is
empty or an array. -/
def Bounded (name data : Str) : Prop :=
  ∀ ev, Inv ev → switchEventGetHeaderPtr ev name = none →
    Holds name (switchEventBaseAddHeader ev stackPush name data) fun l =>
    (joinPair [124, 58] l).length ≤ data.length ∧
    (¬ PlainValue data → (joinPair [124, 58] l).length < data.length)

theorem pushes_bounded (elements : List Str) : (∀ x ∈ elements, Bounded name x) → ∀ ev, Inv ev →
    switchEventGetHeaderPtr ev name = none → Holds name (pushes name ev elements) fun l =>
      (joinPair [124, 58] l).length ≤ (joinPair [124, 58] elements).length ∧
        ∀ x rest, elements = x :: rest → ¬ PlainValue x →
          (joinPair [124, 58] l).length < (joinPair [124, 58] elements).length := by
  induction elements with
  | nil => exact fun _ ev _ h => .inl h
  | cons x rest ih =>
    intro hbounded ev hinv habsent
    have hjoin : rest ≠ [] →
        (joinPair [124, 58] (x :: rest)).length = x.length + 2 + (joinPair [124, 58] rest).length :=
      fun hrest => length_joinPair_append (List.cons_ne_nil x []) hrest
    show Holds name (pushes name (switchEventBaseAddHeader ev stackPush name x) rest) _
    rcases hbounded x List.mem_cons_self ev hinv habsent with h | ⟨hp, h, harray, hvalue, hle, hlt⟩
    · rcases ih (fun y hy => hbounded y (List.mem_cons_of_mem x hy)) _ (push_inv hname hinv x) h with
        h' | ⟨hp, h', harray, hvalue, hle, -⟩
      · exact .inl h'
      · refine .inr ⟨hp, h', harray, hvalue, ?_⟩
        -- the first element is gone, and its separator
        have hrest : rest ≠ [] := by
          intro hnil
          rw [hnil] at h'
          exact absurd (h.symm.trans h') nofun
        have := hjoin hrest
        exact ⟨by omega, fun _ _ _ _ => by omega⟩
    · obtain ⟨hp', h', harray', hvalue'⟩ := find_pushes hname rest h harray hvalue
      refine .inr ⟨hp', h', ?_, hvalue', ?_⟩
      · rw [harray']
        exact List.append_ne_nil_of_left_ne_nil harray rest
      · rw [harray']
        by_cases hrest : rest = []
        · subst hrest
          rw [List.append_nil]
          exact ⟨hle, fun y _ heq hy => hlt ((List.cons.inj heq).1 ▸ hy)⟩
        · dsimp only
          rw [length_joinPair_append harray hrest, hjoin hrest]
          refine ⟨by omega, fun y _ heq hy => ?_⟩
          have := hlt ((List.cons.inj heq).1 ▸ hy)
          omega

theorem push_bounded (n : Nat) : ∀ data : Str, data.length = n → Bounded name data := by
  induction n using Nat.strong_induction_on with
  | _ n ih =>
    intro data hn ev hinv habsent
    by_cases hempty : data = []
    · rw [hempty]
      exact .inl (find_add_empty hname habsent stackPush)
    by_cases harray : arrayPrefix <+: data
    · obtain ⟨ev', hinv', habsent', hpushes⟩ := add_array hname habsent hinv harray stackPush
      rw [hpushes]
      rcases pushes_bounded hname (arrayElements data)
        (fun x hx => ih x.length (hn ▸ length_lt_of_mem_arrayElements hx) x rfl)
        ev' hinv' habsent' with h | ⟨hp, h, hne, hvalue, hle, -⟩
      · exact .inl h
      · have hdata := congrArg List.length (joinPair_arrayElements harray fun hnil => by
          rw [hnil] at h
          cases habsent'.symm.trans h)
        rw [List.length_append, show arrayPrefix.length = 7 from rfl] at hdata
        exact .inr ⟨hp, h, hne, hvalue, by omega, fun _ => by omega⟩
    · obtain ⟨hp, h, hvalue, hone⟩ :=
        find_add_plain hname habsent hinv ⟨hempty, harray⟩ (show stackPush.top = false from rfl) rfl
      have hone : hp.array = [data] := hone
      refine .inr ⟨hp, h, ?_, ?_, ?_⟩
      · rw [hone]
        exact List.cons_ne_nil data []
      · rw [hone, hvalue]
        rfl
      · rw [hone]
        exact ⟨le_rfl, fun hplain => absurd ⟨hempty, harray⟩ hplain⟩

omit hname in
/-- Nothing is found, or a value that is shorter than the one that was added. -/
theorem found_shorter {found : Option Str} {data : Str}
    (hshort : ∀ value ∈ found, value.length < data.length) {P : Prop}
    (hP : ¬P) : (found = some data ↔ P) ∧ ∀ value, found = some value → value.length ≤ data.length :=
  ⟨iff_of_false (fun h => Nat.lt_irrefl _ (hshort data h)) hP, fun value h => (hshort value h).le⟩

/-- Where no header is there, a value is found as it was added if it is not empty, and an array has two
elements at least, of which the first is neither empty nor an array. -/
theorem find_add_iff {ev : SwitchEvent} (hinv : Inv ev)
    (habsent : switchEventGetHeaderPtr ev name = none) (data : Str) :
    (switchEventGetHeader (switchEventAddHeaderString ev stackBottom name (some data)) name =
      some data ↔
      data ≠ [] ∧ (arrayPrefix <+: data → ∃ x y rest, arrayElements data = x :: y :: rest ∧
        PlainValue x)) ∧
    ∀ value, switchEventGetHeader (switchEventAddHeaderString ev stackBottom name (some data)) name =
      some value →
      value.length ≤ data.length := by
  show (switchEventGetHeader (switchEventBaseAddHeader ev stackBottom name data) name = some data ↔ _) ∧
    ∀ value, switchEventGetHeader (switchEventBaseAddHeader ev stackBottom name data) name =
      some value → _
  unfold switchEventGetHeader
  by_cases hempty : data = []
  · subst hempty
    rw [find_add_empty hname habsent stackBottom]
    exact found_shorter (by simp) fun h => h.1 rfl
  by_cases harray : arrayPrefix <+: data
  · obtain ⟨ev', hinv', habsent', hpushes⟩ := add_array hname habsent hinv harray stackBottom
    rw [hpushes]
    cases helements : arrayElements data with
    | nil =>
      rw [show switchEventGetHeaderPtr (pushes name ev' []) name = none from habsent']
      exact found_shorter (by simp) fun h => absurd (h.2 harray) (by simp)
    | cons x rest =>
      have hdata := joinPair_arrayElements harray (by rw [helements]; exact List.cons_ne_nil x rest)
      have hlength := congrArg List.length hdata
      rw [helements] at hdata hlength
      rw [List.length_append, show arrayPrefix.length = 7 from rfl] at hlength
      by_cases hx : PlainValue x
      · -- the first element makes the header, and the others are pushed onto it
        obtain ⟨hp, h, hvalue, hone⟩ :=
          find_add_plain hname habsent' hinv' hx (show stackPush.top = false from rfl) rfl
        have hone : hp.array = [x] := hone
        obtain ⟨hp', h', harray', hvalue'⟩ :=
          find_pushes hname rest h (by rw [hone]; exact List.cons_ne_nil x [])
          (by rw [hone, hvalue]; rfl)
        rw [show switchEventGetHeaderPtr (pushes name ev' (x :: rest)) name = some hp' from h',
          Option.bind_some, hvalue', harray', hone]
        cases rest with
        | nil =>
          have hshort : (flatten [x]).length < data.length := by
            show x.length < data.length
            have : (joinPair [124, 58] [x]).length = x.length := rfl
            omega
          exact found_shorter (by simpa using hshort) fun h => absurd (h.2 harray) (by simp)
        | cons y rest =>
          have hflat : flatten (x :: y :: rest) = data := by
            rw [flatten, if_pos (by simp), ← hdata]
          refine ⟨⟨fun _ => ⟨hempty, fun _ => ⟨x, y, rest, rfl, hx⟩⟩, fun _ => congrArg some hflat⟩,
            fun value hv => ?_⟩
          rw [← Option.some.inj hv, ← hflat]
          exact le_rfl
      · have hnot : ¬ ∃ x' y rest', x :: rest = x' :: y :: rest' ∧ PlainValue x' := by
          rintro ⟨x', _, _, heq, hx'⟩
          exact hx ((List.cons.inj heq).1 ▸ hx')
        rcases pushes_bounded hname (x :: rest)
          (fun y _ => push_bounded hname y.length y rfl) ev' hinv' habsent' with
          h | ⟨hp, h, -, hvalue, -, hlt⟩
        · rw [h]
          exact found_shorter (by simp) fun h => hnot (h.2 harray)
        · rw [h, Option.bind_some, hvalue]
          have hshort : (flatten hp.array).length < data.length := by
            have := length_flatten_le hp.array
            have := hlt x rest rfl hx
            omega
          exact found_shorter (by simpa using hshort) fun h => hnot (h.2 harray)
  · obtain ⟨hp, h, hvalue, -⟩ :=
      find_add_plain hname habsent hinv ⟨hempty, harray⟩ (show stackBottom.top = false from rfl) rfl
    rw [h, Option.bind_some, hvalue]
    exact ⟨⟨fun _ => ⟨hempty, fun h => absurd h harray⟩, fun _ => rfl⟩,
      fun value hv => (Option.some.inj hv) ▸ le_rfl⟩

end

end FreeSwitch.Event
