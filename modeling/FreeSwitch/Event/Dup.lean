import FreeSwitch.Event.Consistent

/-!
# Event duplication — replaying headers through the add calls

`switch_event_dup` copies by calling: a plain header is added again under its name, an array
is pushed element by element. Whether that gives the same header back depends on the header
and on what has been copied before it.

* **`copyHeader_scalar`** / **`copyHeader_array`** — when it does.
* **`copyAll_views`** — a whole list of headers.
* **`copyAll_names`** — what is left of their names in any case.
-/

namespace FreeSwitch.Event

open CString

/-! ## Names without pointers and hashes -/

/-- Equal up to letter case is enough for equal hashes. -/
theorem hash_congr {s t : Str} (h : ciEq s t) :
    switchCiHashfuncDefault s = switchCiHashfuncDefault t := by
  have hlower : ∀ s : Str, switchCiHashfuncDefault s
      = (lower s).foldl (fun hash c => hash * 33 + c.toUInt32) 0 := by
    intro s
    rw [lower, List.foldl_map]
    rfl
  rw [hlower, hlower, h]

def Hashed (ev : SwitchEvent) : Prop :=
  ∀ hp ∈ ev.headers, hp.hash = switchCiHashfuncDefault hp.name

variable {hp : Header} {name : Str}

theorem named_iff (h : hp.hash = switchCiHashfuncDefault hp.name) :
    named name hp ↔ ciEq hp.name name := by
  constructor
  · exact fun hnamed => hnamed.2
  · exact fun hci => ⟨.inr ((hash_congr hci).symm.trans h.symm), hci⟩

def names (ev : SwitchEvent) : List Str := ev.headers.map Header.name

/-- None of the names is `name`. -/
def Unnamed (seen : List Str) (name : Str) : Prop := ∀ other ∈ seen, ¬ ciEq other name

variable {ev : SwitchEvent}

theorem getHeaderPtr_none_iff (h : Hashed ev) :
    switchEventGetHeaderPtr ev name = none ↔ Unnamed (names ev) name := by
  unfold switchEventGetHeaderPtr Unnamed names
  simp only [List.find?_eq_none, decide_eq_true_eq, List.forall_mem_map]
  refine forall_congr' fun hp => forall_congr' fun hmem => ?_
  rw [named_iff (h hp hmem)]

/-- Deleting what is not there. -/
theorem del_of_unnamed (h : Hashed ev) (hname : Unnamed (names ev) name) :
    (switchEventDelHeader ev name).headers = ev.headers := by
  rw [switchEventDelHeader, del_headers, List.filter_eq_self]
  intro hp hmem
  have hne : ¬ named name hp := by
    rw [named_iff (h hp hmem)]
    exact hname hp.name (List.mem_map_of_mem hmem)
  simp [deleted, hne]

theorem Inv.hashed (h : Inv ev) : Hashed ev := fun hp hmem => (h.headers hp hmem).hash

/-! ## What a reader sees of a header -/

structure View where
  name : Str
  value : Option Str
  array : List Str
  deriving DecidableEq

def Header.view (hp : Header) : View := ⟨hp.name, hp.value, hp.array⟩

def views (ev : SwitchEvent) : List View := ev.headers.map Header.view

/-- The fields the header calls leave alone. -/
structure SameRest (ev ev' : SwitchEvent) : Prop where
  eventId : ev'.eventId = ev.eventId
  flags : ev'.flags = ev.flags
  subclassName : ev'.subclassName = ev.subclassName

theorem SameRest.refl (ev : SwitchEvent) : SameRest ev ev := ⟨rfl, rfl, rfl⟩

variable {ev' : SwitchEvent}

theorem SameRest.trans {ev'' : SwitchEvent} (h : SameRest ev ev') (h' : SameRest ev' ev'') :
    SameRest ev ev'' :=
  ⟨h'.eventId.trans h.eventId, h'.flags.trans h.flags, h'.subclassName.trans h.subclassName⟩

theorem edits_sameRest {scope : Scope} (h : Edits scope ev ev') : SameRest ev ev' := by
  induction h with
  | refl => exact SameRest.refl ev
  | tail _ hedit ih =>
    refine ih.trans ?_
    cases hedit with
    | link stack _ _ _ _ =>
      unfold link
      split <;> exact ⟨rfl, rfl, rfl⟩
    | _ => exact ⟨rfl, rfl, rfl⟩

/-! ## The calls that copy -/

/-- Copying replaces no element, puts none in front and uses no index. -/
def copyScope : Scope := ⟨fun _ _ _ => False, False⟩

theorem Edits.inv_of_copy (h : Edits copyScope ev ev') (hev : Inv ev) : Inv ev' :=
  h.preserves (fun _ _ => edit_preserves fun _ _ _ (hfalse : False) => hfalse.elim) hev

theorem add_edits (hname : Plain name) (ev : SwitchEvent) {stack : Stack}
    (hstack : stack.unshift = false) (data : Option Str) :
    Edits copyScope ev (switchEventAddHeaderString ev stack name data) := by
  cases data with
  | none => exact Relation.ReflTransGen.refl
  | some data =>
    refine baseAddHeader_edits_plain hname _ data rfl ev stack fun h => ?_
    rw [hstack] at h
    cases h

theorem copyHeader_edits (hname : Plain hp.name) (ev : SwitchEvent) :
    Edits copyScope ev (copyHeader ev hp) := by
  unfold copyHeader
  split
  · exact add_edits hname ev rfl hp.value
  · exact edits_foldl _ (fun data _ ev => add_edits hname ev rfl (some data)) ev

/-! ## The body -/

theorem link_body (ev : SwitchEvent) (stack : Stack) (header : Header) :
    (link ev stack header).body = ev.body := by
  unfold link
  split <;> rfl

/-- `P` holds of the body from the start, or from the moment the name sets it. -/
theorem foldl_body {α : Type} {f : SwitchEvent → α → SwitchEvent} {P : Option Str → Prop} :
    ∀ (as : List α), (∀ a ∈ as, ∀ ev, P ev.body → P (f ev a).body) → ∀ ev,
      P ev.body → P (as.foldl f ev).body := by
  intro as h ev hP
  exact List.foldlRecOn (motive := fun ev => P ev.body) as f hP fun ev hP a ha => h a ha ev hP

/-- A property of the body that every setting of it establishes is kept by a call; and a call
on the name `_body` establishes it. -/
theorem add_body {P : Option Str → Prop} (hname : Plain name)
    (hset : name = bytes "_body" → ∀ data, P (some data)) :
    ∀ (n : Nat) (data : Str), data.length = n → ∀ (ev : SwitchEvent) (stack : Stack),
      (name ≠ bytes "_body" → P ev.body) → P (switchEventBaseAddHeader ev stack name data).body := by
  intro n
  induction n using Nat.strong_induction_on with
  | _ n ih =>
    intro data hlen ev stack hev
    rw [baseAddHeader_plain ev stack hname data]
    obtain ⟨ev₁, hev₁, hP⟩ : ∃ ev₁, ev₁ = (if name = bytes "_body" then
        switchEventSetBody ev (some data) else ev) ∧ P ev₁.body := by
      refine ⟨_, rfl, ?_⟩
      split
      case isTrue h => exact hset h data
      case isFalse h => exact hev h
    rw [← hev₁]
    dsimp only
    split
    case h_1 => exact hP
    case h_2 =>
      split
      case isTrue => exact hP
      case isFalse =>
        have hP₂ : P (if ev₁.uniqHeaders then switchEventDelHeader ev₁ name else ev₁).body := by
          split <;> exact hP
        generalize (if ev₁.uniqHeaders then switchEventDelHeader ev₁ name else ev₁) = ev₂ at *
        split
        case isTrue =>
          refine foldl_body _ (fun piece hpiece ev hP => ?_) ev₂ hP₂
          have hlt := length_lt_of_mem_arrayElements hpiece
          exact ih piece.length (hlen ▸ hlt) piece rfl ev stackPush fun _ => hP
        case isFalse =>
          rw [link_body]
          exact hP₂

theorem copyHeader_body {P : Option Str → Prop} (hname : Plain hp.name)
    (hset : hp.name = bytes "_body" → ∀ data, P (some data)) (hP : P ev.body) :
    P (copyHeader ev hp).body := by
  unfold copyHeader
  split
  case isTrue =>
    cases hp.value with
    | none => exact hP
    | some data => exact add_body hname hset _ data rfl ev stackBottom fun _ => hP
  case isFalse =>
    exact foldl_body _ (fun data _ ev hP => add_body hname hset _ data rfl ev stackPush
      fun _ => hP) ev hP

/-! ## One header -/

theorem body_inv (h : Inv ev) (body : Option Str) : Inv { ev with body } :=
  (Edit.body ev body).edits.inv h

/-- With `EF_UNIQ_HEADERS`, nothing goes if there is nothing of that name. -/
theorem uniq_del_unnamed (hchained : Chained ev) (hhashed : Hashed ev) (name : Str)
    (hname : ev.uniqHeaders = true → Unnamed (names ev) name) :
    let ev' := if ev.uniqHeaders then switchEventDelHeader ev name else ev
    ev'.headers = ev.headers ∧ ev'.fresh = ev.fresh ∧ Chained ev' := by
  dsimp only
  split
  case isTrue huniq =>
    exact ⟨del_of_unnamed hhashed (hname huniq), rfl, del_chained hchained name none⟩
  case isFalse => exact ⟨rfl, rfl, hchained⟩

/-- The event with the body set has the same headers. -/
theorem exists_body_set (ev : SwitchEvent) (name data : Str) : ∃ body,
    (if name = bytes "_body" then switchEventSetBody ev (some data) else ev) = { ev with body } := by
  split
  · exact ⟨some data, rfl⟩
  · exact ⟨ev.body, rfl⟩

/-- A call that makes a new header at the end. -/
theorem add_new (hchained : Chained ev) (hhashed : Hashed ev) {data : Str}
    (hname : Plain name) (hdata : PlainValue data) {stack : Stack} (htop : stack.top = false)
    (hunshift : stack.unshift = false)
    (hfree : stack.push = true ∨ ev.uniqHeaders = true → Unnamed (names ev) name) :
    (switchEventAddHeaderString ev stack name (some data)).headers = ev.headers ++ [⟨ev.fresh,
      name, some data, if stack.push then [data] else [], switchCiHashfuncDefault name⟩] := by
  show (switchEventBaseAddHeader ev stack name data).headers = _
  rw [baseAddHeader_plain ev stack hname data]
  obtain ⟨body, hbody⟩ := exists_body_set ev name data
  rw [hbody]
  have hchained' : Chained { ev with body } := ⟨hchained.last, hchained.nodup, hchained.fresh⟩
  have hhashed' : Hashed { ev with body } := hhashed
  have hfind : (if stack.push || stack.unshift then
      switchEventGetHeaderPtr { ev with body } name else none) = none := by
    split
    case isTrue hpush =>
      rw [getHeaderPtr_none_iff hhashed']
      exact hfree (.inl (by simpa [hunshift] using hpush))
    case isFalse => rfl
  obtain ⟨hheaders, hfresh, hchained⟩ := uniq_del_unnamed hchained' hhashed' name
    fun huniq => hfree (.inr huniq)
  simp only [hfind, if_neg hdata.1, if_neg hdata.2]
  generalize (if ({ ev with body } : SwitchEvent).uniqHeaders then
    switchEventDelHeader { ev with body } name else { ev with body }) = ev₂ at *
  rw [link_headers hchained, if_neg (by simp [htop]), hheaders]
  refine congrArg (fun hp => ev.headers ++ [hp]) ?_
  rcases Bool.eq_false_or_eq_true stack.push with hpush | hpush
  · simp [hpush, hashed, pushElement, newHeader, redraw, flatten, joinPair, hfresh]
  · simp [hpush, hunshift, hashed, newHeader, hfresh]

theorem pushElement_of_array (h : hp.array ≠ []) (data : Str) : pushElement stackPush hp data =
      { hp with value := some (flatten (hp.array ++ [data])), array := hp.array ++ [data] } := by
  unfold pushElement
  split
  case h_1 hnil => exact absurd hnil h
  case h_2 => rfl

/-- A push onto the header at the end, the only one of its name. -/
theorem add_push (h : Inv ev) {hps : List Header}
    (hheaders : ev.headers = hps ++ [hp]) (hothers : ∀ other ∈ hps, ¬ ciEq other.name hp.name)
    (harray : hp.array ≠ []) (hname : Plain hp.name) (data : Str) :
    (switchEventAddHeaderString ev stackPush hp.name (some data)).headers = hps ++ [{ hp with
      value := some (flatten (hp.array ++ [data])), array := hp.array ++ [data] }] := by
  show (switchEventBaseAddHeader ev stackPush hp.name data).headers = _
  rw [baseAddHeader_plain ev stackPush hname data]
  obtain ⟨body, hbody⟩ := exists_body_set ev hp.name data
  rw [hbody]
  have hnamed : ∀ other ∈ ev.headers, named hp.name other ↔ ciEq other.name hp.name :=
    fun other hmem => named_iff (h.hashed other hmem)
  have hfind : (if stackPush.push || stackPush.unshift then
      switchEventGetHeaderPtr { ev with body } hp.name else none) = some hp := by
    show ev.headers.find? _ = _
    rw [hheaders, List.find?_append, List.find?_eq_none.mpr]
    · have hself : named hp.name hp := (hnamed hp (by simp [hheaders])).mpr rfl
      simp [hself]
    · intro other hmem
      have hne := hothers other hmem
      rw [← hnamed other (by simp [hheaders, hmem])] at hne
      simpa using hne
  simp only [hfind, update]
  rw [hheaders, List.map_append]
  refine congrArg₂ (· ++ ·) ?_ ?_
  · -- the other nodes have other addresses
    have hid : hps.map (fun other => if other.addr = hp.addr then pushElement stackPush other data
        else other) = hps.map id := by
      refine List.map_congr_left fun other hmem => if_neg fun haddr => ?_
      have heq := h.chained.eq_of_addr (by simp [hheaders, hmem]) (by simp [hheaders]) haddr
      exact hothers other hmem (by rw [heq]; rfl)
    rw [hid, List.map_id]
  · rw [List.map_singleton, if_pos rfl, pushElement_of_array harray]

/-- The rest of an array, pushed onto the header its first element made. -/
theorem push_all (hname : Plain name) {hps : List Header}
    (hothers : ∀ other ∈ hps, ¬ ciEq other.name name) :
    ∀ (xs : List Str) {ev : SwitchEvent} {hp : Header}, Inv ev → ev.headers = hps ++ [hp] →
      hp.name = name → hp.array ≠ [] → hp.value = some (flatten hp.array) →
      ∃ hp', (xs.foldl (fun ev data => switchEventAddHeaderString ev stackPush name (some data))
          ev).headers = hps ++ [hp']
            ∧ hp'.view = ⟨name, some (flatten (hp.array ++ xs)), hp.array ++ xs⟩ := by
  intro xs
  induction xs with
  | nil =>
    intro ev hp _ hheaders hhp _ hvalue
    exact ⟨hp, hheaders, by simp [Header.view, hhp, hvalue]⟩
  | cons x xs ih =>
    intro ev hp hinv hheaders hhp harray hvalue
    subst hhp
    have hheaders' := add_push hinv hheaders hothers harray hname x
    have hinv' : Inv (switchEventAddHeaderString ev stackPush hp.name (some x)) :=
      (add_edits hname ev rfl (some x)).inv_of_copy hinv
    obtain ⟨hp', hfinal, hview⟩ := ih hinv' hheaders' rfl (by simp) rfl
    exact ⟨hp', hfinal, by simpa using hview⟩

theorem copyHeader_scalar (h : Inv ev) (hname : Plain hp.name)
    (harray : hp.array = []) {data : Str} (hvalue : hp.value = some data)
    (hdata : PlainValue data) (hfree : ev.uniqHeaders = true → Unnamed (names ev) hp.name) :
    views (copyHeader ev hp) = views ev ++ [hp.view] := by
  have hnew := add_new h.chained h.hashed hname hdata (show stackBottom.top = false from rfl) rfl
    fun hor => hfree (hor.resolve_left (by decide))
  rw [copyHeader, if_pos harray, hvalue, views, hnew, List.map_append]
  refine congrArg (views ev ++ [·]) ?_
  simp [Header.view, harray, hvalue, stackBottom]

theorem copyHeader_array (h : Inv ev) (hname : Plain hp.name)
    {x : Str} {xs : List Str} (harray : hp.array = x :: xs) (hx : PlainValue x)
    (hvalue : hp.value = some (flatten hp.array)) (hfree : Unnamed (names ev) hp.name) :
    views (copyHeader ev hp) = views ev ++ [hp.view] := by
  have hnew := add_new h.chained h.hashed hname hx (show stackPush.top = false from rfl) rfl fun _ =>
    hfree
  have hinv : Inv (switchEventAddHeaderString ev stackPush hp.name (some x)) :=
    (add_edits hname ev rfl (some x)).inv_of_copy h
  obtain ⟨hp', hfinal, hview⟩ := push_all hname
    (fun other hmem => hfree other.name (List.mem_map_of_mem hmem)) xs hinv hnew rfl
    (by simp [stackPush]) (by simp [stackPush, flatten, joinPair])
  rw [copyHeader, if_neg (by simp [harray]), harray, List.foldl_cons, views, hfinal,
    List.map_append]
  refine congrArg (views ev ++ [·]) ?_
  rw [hview]
  simp [Header.view, harray, hvalue, stackPush]

/-! ## The names a copy adds -/

/-- The name is added at the end, if it was not there. -/
def Grown (seen : List Str) (name : Str) (seen' : List Str) : Prop :=
  seen' = seen ∨ (Unnamed seen name ∧ seen' = seen ++ [name])

theorem Grown.trans {l l' l'' : List Str} (h : Grown l name l')
    (h' : Grown l' name l'') : Grown l name l'' := by
  rcases h with rfl | ⟨hun, rfl⟩
  · exact h'
  · rcases h' with rfl | ⟨hun', -⟩
    · exact .inr ⟨hun, rfl⟩
    · -- the name is there now
      exact absurd rfl (hun' name (by simp))

theorem grown_foldl {f : SwitchEvent → Str → SwitchEvent} :
    ∀ (as : List Str), (∀ a ∈ as, ∀ ev, Inv ev → Inv (f ev a) ∧ Grown (names ev) name (names (f ev a)))
      → ∀ ev, Inv ev → Grown (names ev) name (names (as.foldl f ev)) := by
  intro as h ev hinv
  refine (List.foldlRecOn (motive := fun ev' => Inv ev' ∧ Grown (names ev) name (names ev')) as f ⟨hinv,
    .inl rfl⟩ ?_).2
  intro ev' ⟨hinv', hgrown⟩ a ha
  exact ⟨(h a ha ev' hinv').1, hgrown.trans (h a ha ev' hinv').2⟩

theorem add_names (hname : Plain name) :
    ∀ (n : Nat) (data : Str), data.length = n → ∀ (ev : SwitchEvent) (stack : Stack), Inv ev →
      stack.top = false → stack.unshift = false → (stack.push = true ∨ Unnamed (names ev) name) →
        Grown (names ev) name (names (switchEventBaseAddHeader ev stack name data)) := by
  intro n
  induction n using Nat.strong_induction_on with
  | _ n ih =>
    intro data hlen ev stack h htop hunshift hstack
    rw [baseAddHeader_plain ev stack hname data]
    obtain ⟨body, hbody⟩ := exists_body_set ev name data
    rw [hbody]
    have hinv := body_inv h body
    dsimp only
    split
    case h_1 header _ => exact .inl (map_update Header.name fun _ => rfl)
    case h_2 hfind =>
      have hun : Unnamed (names ev) name := by
        rcases hstack with hpush | hun
        · rw [hpush, Bool.true_or, if_pos rfl, getHeaderPtr_none_iff hinv.hashed] at hfind
          exact hfind
        · exact hun
      split
      case isTrue => exact .inl (congrArg (List.map Header.name) (del_of_unnamed hinv.hashed hun))
      case isFalse hne =>
        obtain ⟨hheaders, -, hchained⟩ := uniq_del_unnamed hinv.chained hinv.hashed name fun _ => hun
        have hinv₂ : Inv (if ({ ev with body } : SwitchEvent).uniqHeaders then
            switchEventDelHeader { ev with body } name else { ev with body }) :=
          (edits_uniq_del _ name).inv hinv
        generalize (if ({ ev with body } : SwitchEvent).uniqHeaders then
          switchEventDelHeader { ev with body } name else { ev with body }) = ev₂ at *
        have hnames : names ev₂ = names ev := congrArg (List.map Header.name) hheaders
        split
        case isTrue =>
          rw [← hnames]
          refine grown_foldl _ (fun piece hpiece ev hinv => ?_) ev₂ hinv₂
          have hlt := length_lt_of_mem_arrayElements hpiece
          exact ⟨(add_edits hname ev rfl (some piece)).inv_of_copy hinv,
            ih piece.length (hlen ▸ hlt) piece rfl ev stackPush hinv rfl rfl (.inl rfl)⟩
        case isFalse =>
          refine .inr ⟨hun, ?_⟩
          rw [names, link_headers hchained, if_neg (by simp [htop]), List.map_append]
          refine congrArg₂ (· ++ ·) hnames ?_
          rw [List.map_singleton, hashed]
          split <;> rfl

theorem copyHeader_names_array (h : Inv ev)
    (hname : Plain hp.name) (harray : hp.array ≠ []) :
    Grown (names ev) hp.name (names (copyHeader ev hp)) := by
  rw [copyHeader, if_neg harray]
  refine grown_foldl _ (fun data _ ev hinv => ?_) ev h
  exact ⟨(add_edits hname ev rfl (some data)).inv_of_copy hinv,
    add_names hname _ data rfl ev stackPush hinv rfl rfl (.inl rfl)⟩

theorem names_eq_of_views {vs : List View}
    (h : views ev' = views ev ++ vs) : names ev' = names ev ++ vs.map View.name := by
  have hnames : ∀ ev : SwitchEvent, names ev = (views ev).map View.name := by
    intro ev
    rw [views, List.map_map]
    rfl
  rw [hnames, h, List.map_append, ← hnames]

/-! ## All headers -/

/-- A plain header has a value that is stored as it is. -/
def ScalarOk (hp : Header) : Prop :=
  hp.array = [] → ∃ data, hp.value = some data ∧ PlainValue data

/-- An array starts with an element that is stored as it is, and the value shows the array. -/
def ArrayOk (hp : Header) : Prop :=
  ∀ x xs, hp.array = x :: xs → PlainValue x ∧ hp.value = some (flatten hp.array)

/-- No array comes after a header of its name. -/
def NoMerge : List Str → List Header → Prop
  | _, [] => True
  | seen, hp :: hps => (hp.array ≠ [] → Unnamed seen hp.name) ∧ NoMerge (seen ++ [hp.name]) hps

/-- What `EF_UNIQ_HEADERS` is for. -/
def UniqNames (ev : SwitchEvent) (hps : List Header) : Prop :=
  ev.uniqHeaders = true →
    (names ev ++ hps.map Header.name).Pairwise fun name name' => ¬ ciEq name name'

theorem UniqNames.unnamed {hps : List Header}
    (h : UniqNames ev (hp :: hps)) (huniq : ev.uniqHeaders = true) :
    Unnamed (names ev) hp.name := fun other hmem =>
  (List.pairwise_append.mp (h huniq)).2.2 other hmem hp.name (by simp)

/-- The event after copying `hp`, if its names are among those seen. -/
theorem UniqNames.next {hps : List Header}
    (h : UniqNames ev (hp :: hps)) (hrest : SameRest ev ev')
    (hsub : (names ev').Sublist (names ev ++ [hp.name])) : UniqNames ev' hps := by
  intro huniq
  have huniq' : ev.uniqHeaders = true := by
    rw [SwitchEvent.uniqHeaders, ← hrest.flags]
    exact huniq
  refine (h huniq').sublist ?_
  rw [List.map_cons, ← List.singleton_append, ← List.append_assoc]
  exact hsub.append_right _

/-- Under these conditions the headers come out as they went in. -/
theorem copyAll_views : ∀ (hps : List Header) {ev : SwitchEvent}, Inv ev → (∀ hp ∈ hps, Plain hp.name) →
      (∀ hp ∈ hps, ScalarOk hp) → (∀ hp ∈ hps, ArrayOk hp) → NoMerge (names ev) hps →
      UniqNames ev hps → views (hps.foldl copyHeader ev) = views ev ++ hps.map Header.view := by
  intro hps
  induction hps with
  | nil => intro ev _ _ _ _ _ _; simp
  | cons hp hps ih =>
    intro ev hinv hplain hscalar harray hmerge huniq
    obtain ⟨hname, hplain⟩ := List.forall_mem_cons.mp hplain
    obtain ⟨hp_scalar, hscalar⟩ := List.forall_mem_cons.mp hscalar
    obtain ⟨hp_array, harray⟩ := List.forall_mem_cons.mp harray
    have hview : views (copyHeader ev hp) = views ev ++ [hp.view] := by
      cases hcase : hp.array with
      | nil =>
        obtain ⟨data, hvalue, hdata⟩ := hp_scalar hcase
        exact copyHeader_scalar hinv hname hcase hvalue hdata huniq.unnamed
      | cons x xs =>
        obtain ⟨hx, hvalue⟩ := hp_array x xs hcase
        exact copyHeader_array hinv hname hcase hx hvalue (hmerge.1 (by simp [hcase]))
    have hedits := copyHeader_edits hname ev
    have hnames : names (copyHeader ev hp) = names ev ++ [hp.name] := names_eq_of_views hview
    rw [List.foldl_cons, ih (hedits.inv_of_copy hinv) hplain hscalar harray
      (hnames ▸ hmerge.2) (huniq.next (edits_sameRest hedits) (by rw [hnames])), hview]
    simp

/-- In any case the names that come out are some of those that went in, in their order; and if
all do, no array was merged. -/
theorem copyAll_names : ∀ (hps : List Header) {ev : SwitchEvent}, Inv ev → (∀ hp ∈ hps, Plain hp.name) →
      (∀ hp ∈ hps, ScalarOk hp) → UniqNames ev hps →
      ∃ l, l.Sublist (hps.map Header.name) ∧ names (hps.foldl copyHeader ev) = names ev ++ l
        ∧ (l.length = hps.length → NoMerge (names ev) hps) := by
  intro hps
  induction hps with
  | nil => intro ev _ _ _ _; exact ⟨[], by simp, by simp, fun _ => trivial⟩
  | cons hp hps ih =>
    intro ev hinv hplain hscalar huniq
    obtain ⟨hname, hplain⟩ := List.forall_mem_cons.mp hplain
    obtain ⟨hp_scalar, hscalar⟩ := List.forall_mem_cons.mp hscalar
    have hedits := copyHeader_edits hname ev
    have hgrown : names (copyHeader ev hp) = names ev
        ∨ ((hp.array ≠ [] → Unnamed (names ev) hp.name)
          ∧ names (copyHeader ev hp) = names ev ++ [hp.name]) := by
      by_cases hcase : hp.array = []
      · obtain ⟨data, hvalue, hdata⟩ := hp_scalar hcase
        have hview := copyHeader_scalar hinv hname hcase hvalue hdata huniq.unnamed
        exact .inr ⟨fun hne => absurd hcase hne, names_eq_of_views hview⟩
      · rcases copyHeader_names_array hinv hname hcase with hsame | ⟨hun, hnew⟩
        · exact .inl hsame
        · exact .inr ⟨fun _ => hun, hnew⟩
    have hrest := @ih (copyHeader ev hp) (hedits.inv_of_copy hinv) hplain hscalar
    rcases hgrown with hsame | ⟨hun, hnew⟩
    · obtain ⟨l, hsub, hl, -⟩ := hrest
        (huniq.next (edits_sameRest hedits) (by rw [hsame]; simp))
      refine ⟨l, hsub.cons _, by rw [List.foldl_cons, hl, hsame], fun hlen => ?_⟩
      -- one name too few
      have hle := hsub.length_le
      simp only [List.length_cons, List.length_map] at hlen hle
      omega
    · obtain ⟨l, hsub, hl, hmerge⟩ := hrest
        (huniq.next (edits_sameRest hedits) (by rw [hnew]))
      refine ⟨hp.name :: l, hsub.cons_cons _, by rw [List.foldl_cons, hl, hnew]; simp, fun hlen => ?_⟩
      refine ⟨hun, ?_⟩
      rw [← hnew]
      exact hmerge (by simpa using hlen)

end FreeSwitch.Event
