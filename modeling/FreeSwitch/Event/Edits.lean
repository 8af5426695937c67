import Mathlib.Data.List.TakeWhile
import FreeSwitch.Event.Headers

/-!
# Event headers — what the calls are made of

`switch_event_base_add_header` has many paths, but each is a short sequence of a few edits of
the event. What an edit preserves holds across every call, so the paths are gone through once,
here.

* **`Edit`** — the edits, with what is known where each is made.
* **`addHeader_edits`** — every call is a sequence of edits.
* **`Edits.preserves`** — the rule for properties of events.
-/

namespace FreeSwitch.Event

open CString

/-! ## Names -/

/-- A name that is not split: it has no bracket. -/
def Plain (name : Str) : Prop := (91 : UInt8) ∉ name

variable {name : Str}

theorem splitIndex_of_plain (h : Plain name) : splitIndex name = (name, none) := by
  have hdrop : name.dropWhile (· ≠ 91) = [] := by
    rw [List.dropWhile_eq_nil_iff]
    intro c hc
    have hne : c ≠ 91 := fun heq => h (heq ▸ hc)
    simpa using hne
  rw [splitIndex, hdrop]

theorem splitIndex_plain {headerName : Str} {index : Option Int}
    (h : splitIndex headerName = (name, index)) : Plain name := by
  unfold splitIndex at h
  split at h
  case h_1 hdrop =>
    cases h
    rw [List.dropWhile_eq_nil_iff] at hdrop
    intro hmem
    simpa using hdrop 91 hmem
  case h_2 =>
    cases h
    intro hmem
    simpa using List.mem_takeWhile_imp hmem

theorem splitIndex_none {headerName : Str} (h : splitIndex headerName = (name, none)) :
    name = headerName := by
  unfold splitIndex at h
  split at h
  · exact (congrArg Prod.fst h).symm
  · cases h

/-! ## Edits -/

/-- A value that is stored as it is: neither a deletion nor an array. -/
def PlainValue (data : Str) : Prop := data ≠ [] ∧ ¬ arrayPrefix <+: data

/-- What a group of calls may do. -/
structure Scope where
  /-- The elements that may be replaced in place. -/
  replace : Header → Nat → Str → Prop
  /-- Whether elements may be put in front, and arrays written through an index. -/
  free : Prop

/-- Everything is allowed. -/
def anyScope : Scope := ⟨fun _ _ _ => True, True⟩

/-- A new header: with a plain value, or with an array that has just been drawn. -/
def Drawn (scope : Scope) (hp : Header) : Prop :=
  (hp.array = [] ∧ ∃ data, hp.value = some data ∧ PlainValue data)
    ∨ (hp.array ≠ [] ∧ hp.value = some (flatten hp.array)
      ∧ (scope.free ∨ ∃ data, hp.array = [data] ∧ PlainValue data))

inductive Edit (scope : Scope) : SwitchEvent → SwitchEvent → Prop where
  | body (ev : SwitchEvent) (body : Option Str) : Edit scope ev (switchEventSetBody ev body)
  | del (ev : SwitchEvent) (name : Str) (val : Option Str) :
      Edit scope ev (switchEventDelHeaderVal ev name val)
  | push (ev : SwitchEvent) (stack : Stack) (addr : Nat) (data : Str)
      (hstack : stack.push = true ∨ scope.free) :
      Edit scope ev (update ev addr fun hp => pushElement stack hp data)
  | extend (ev : SwitchEvent) (addr index : Nat) (data : Str) (hfree : scope.free) :
      Edit scope ev (update ev addr fun hp => extend hp index data)
  /-- Without a redraw. -/
  | replace (ev : SwitchEvent) {header : Header} {index : Nat} (data : Str)
      (hmem : header ∈ ev.headers) (hindex : index < header.array.length)
      (hallowed : scope.replace header index data) :
      Edit scope ev (update ev header.addr fun hp => { hp with array := hp.array.set index data })
  | link (ev : SwitchEvent) (stack : Stack) {header : Header} (haddr : header.addr = ev.fresh)
      (hplain : Plain header.name) (hdrawn : Drawn scope header)
      (huniq : ev.uniqHeaders = true → ∀ hp ∈ ev.headers, ¬ named header.name hp) :
      Edit scope ev (link ev stack header)

def Edits (scope : Scope) : SwitchEvent → SwitchEvent → Prop :=
  Relation.ReflTransGen (Edit scope)

section

variable {scope : Scope}

theorem Edit.edits {ev ev' : SwitchEvent} (h : Edit scope ev ev') : Edits scope ev ev' :=
  Relation.ReflTransGen.single h

theorem Edits.preserves {P : SwitchEvent → Prop} (hpres : ∀ ev ev', P ev → Edit scope ev ev' → P ev')
    {ev ev' : SwitchEvent} (h : Edits scope ev ev') (hev : P ev) : P ev' := by
  induction h with
  | refl => exact hev
  | tail _ hedit ih => exact hpres _ _ ih hedit

theorem edits_foldl {α : Type} {f : SwitchEvent → α → SwitchEvent} :
    ∀ (as : List α), (∀ a ∈ as, ∀ ev, Edits scope ev (f ev a)) → ∀ ev,
      Edits scope ev (as.foldl f ev) := by
  intro as h ev
  exact List.foldlRecOn (motive := Edits scope ev) as f .refl fun ev' hev' a ha =>
    hev'.trans (h a ha ev')

/-! ## Deletion -/

theorem delWalk_fst (name : Str) (val : Option Str) : ∀ (hps : List Header) (last lp : Option Nat),
      (delWalk name val last lp hps).1 = hps.filter fun hp => ¬ deleted name val hp := by
  intro hps
  induction hps with
  | nil => intro last lp; rfl
  | cons hp hps ih =>
    intro last lp
    unfold delWalk
    split
    case isTrue hdel => rw [ih, List.filter_cons_of_neg (by simp [hdel])]
    case isFalse hkeep =>
      rw [List.filter_cons_of_pos (by simp [hkeep])]
      exact congrArg (hp :: ·) (ih _ _)

theorem del_headers (ev : SwitchEvent) (name : Str) (val : Option Str) :
    (switchEventDelHeaderVal ev name val).headers
      = ev.headers.filter fun hp => ¬ deleted name val hp :=
  delWalk_fst name val ev.headers ev.lastHeader none

theorem not_named_of_mem_del {ev : SwitchEvent} {hp : Header}
    (h : hp ∈ (switchEventDelHeader ev name).headers) : ¬ named name hp := by
  rw [switchEventDelHeader, del_headers, List.mem_filter] at h
  simpa [deleted] using h.2

/-! ## The calls -/

theorem pushElement_newHeader_drawn (stack : Stack) (ev : SwitchEvent) (name : Str) {data : Str}
    (hdata : PlainValue data) : Drawn scope (pushElement stack (newHeader ev name) data) := by
  have harray : (pushElement stack (newHeader ev name) data).array = [data] := by
    simp [pushElement, newHeader, redraw]
  exact .inr ⟨by simp [harray], rfl, .inr ⟨data, harray, hdata⟩⟩

theorem extend_drawn (hfree : scope.free) (hp : Header) (index : Nat) (data : Str) :
    Drawn scope (extend hp index data) :=
  .inr ⟨by simp [extend, redraw], rfl, .inl hfree⟩

/-- `EF_UNIQ_HEADERS`: what is called `name` goes first. -/
theorem edits_uniq_del (ev : SwitchEvent) (name : Str) :
    Edits scope ev (if ev.uniqHeaders then switchEventDelHeader ev name else ev) := by
  split
  · exact (Edit.del ev name none).edits
  · exact Relation.ReflTransGen.refl

theorem uniq_del_spec (ev : SwitchEvent) (name : Str) :
    (if ev.uniqHeaders then switchEventDelHeader ev name else ev).fresh = ev.fresh
      ∧ ((if ev.uniqHeaders then switchEventDelHeader ev name else ev).uniqHeaders = true →
        ∀ hp ∈ (if ev.uniqHeaders then switchEventDelHeader ev name else ev).headers,
          ¬ named name hp) := by
  split
  case isTrue h => exact ⟨rfl, fun _ hp hmem => not_named_of_mem_del hmem⟩
  case isFalse h => exact ⟨rfl, fun huniq => absurd huniq h⟩

theorem setIndexed_edits (ev : SwitchEvent) (stack : Stack) (hname : Plain name)
    (index : Int) (data : Str) (hfree : scope.free)
    (hallowed : ∀ header, switchEventGetHeaderPtr ev name = some header →
      -1 < index → index ≤ 4000 → index < header.array.length → scope.replace header index.toNat data) :
    Edits scope ev (setIndexed ev stack name index data) := by
  unfold setIndexed
  split
  case h_1 header hfind =>
    split
    case isTrue hrange =>
      split
      case isTrue hlt =>
        exact (Edit.replace ev data (List.mem_of_find?_eq_some hfind) (by omega)
          (hallowed header hfind hrange.1 hrange.2 hlt)).edits
      case isFalse => exact (Edit.extend ev header.addr index.toNat data hfree).edits
    case isFalse => exact Relation.ReflTransGen.refl
  case h_2 =>
    obtain ⟨hfresh, huniq⟩ := uniq_del_spec ev name
    dsimp only
    split
    case isTrue hrange =>
      exact (edits_uniq_del ev name).trans
        (Edit.link _ stack hfresh.symm hname (extend_drawn hfree _ _ _) huniq).edits
    case isFalse => exact edits_uniq_del ev name

/-- The call on a name without an index, with the recursion as a plain fold. -/
theorem baseAddHeader_plain (ev : SwitchEvent) (stack : Stack) (hname : Plain name) (data : Str) :
    switchEventBaseAddHeader ev stack name data =
      let ev := if name = bytes "_body" then switchEventSetBody ev (some data) else ev
      match if stack.push || stack.unshift then switchEventGetHeaderPtr ev name else none with
      | some header => update ev header.addr fun hp => pushElement stack hp data
      | none =>
        if data = [] then switchEventDelHeader ev name
        else
          let ev := if ev.uniqHeaders then switchEventDelHeader ev name else ev
          if arrayPrefix <+: data then
            (arrayElements data).foldl (fun ev => switchEventBaseAddHeader ev stackPush name) ev
          else
            let header := newHeader ev name
            link ev stack
              (if stack.push || stack.unshift then pushElement stack header data
                else { header with value := some data }) := by
  have h := switchEventBaseAddHeader.eq_def ev stack name data
  simp only [splitIndex_of_plain hname, List.foldl_attach] at h
  exact h

theorem baseAddHeader_indexed (ev : SwitchEvent) (stack : Stack) {headerName : Str}
    {index : Int} (h : splitIndex headerName = (name, some index)) (data : Str) :
    switchEventBaseAddHeader ev stack headerName data =
      setIndexed (if headerName = bytes "_body" then switchEventSetBody ev (some data) else ev)
        stack name index data := by
  rw [switchEventBaseAddHeader]
  simp only [h]

theorem edits_body (ev : SwitchEvent) (headerName data : Str) :
    Edits scope ev (if headerName = bytes "_body" then switchEventSetBody ev (some data) else ev) := by
  split
  · exact (Edit.body ev (some data)).edits
  · exact Relation.ReflTransGen.refl

/-- By induction on the length of `data`: the elements of an array value are shorter. -/
theorem baseAddHeader_edits_plain (hname : Plain name) :
    ∀ (n : Nat) (data : Str), data.length = n → ∀ (ev : SwitchEvent) (stack : Stack),
      (stack.unshift = true → scope.free) →
      Edits scope ev (switchEventBaseAddHeader ev stack name data) := by
  intro n
  induction n using Nat.strong_induction_on with
  | _ n ih =>
    intro data hlen ev stack hstack
    rw [baseAddHeader_plain ev stack hname data]
    refine (edits_body ev name data).trans ?_
    generalize (if name = bytes "_body" then switchEventSetBody ev (some data) else ev) = ev
    dsimp only
    split
    case h_1 header hfind =>
      refine (Edit.push ev stack header.addr data ?_).edits
      rcases Bool.eq_false_or_eq_true stack.push with hpush | hpush
      · exact .inl hpush
      · refine .inr (hstack ?_)
        by_contra hunshift
        simp [hpush, hunshift] at hfind
    case h_2 =>
      split
      case isTrue => exact (Edit.del ev name none).edits
      case isFalse hne =>
        obtain ⟨-, huniq⟩ := uniq_del_spec ev name
        refine (edits_uniq_del ev name).trans ?_
        generalize (if ev.uniqHeaders then switchEventDelHeader ev name else ev) = ev at huniq ⊢
        split
        case isTrue harray =>
          refine edits_foldl _ (fun piece hpiece ev => ?_) _
          have hlt := length_lt_of_mem_arrayElements hpiece
          exact ih piece.length (hlen ▸ hlt) piece rfl ev stackPush fun h => absurd h (by decide)
        case isFalse hvalue =>
          refine (Edit.link _ stack ?_ ?_ ?_ ?_).edits
          · split <;> rfl
          · split <;> exact hname
          · split
            · exact pushElement_newHeader_drawn stack ev name ⟨hne, hvalue⟩
            · exact .inl ⟨rfl, data, rfl, hne, hvalue⟩
          · split <;> exact huniq

/-- The call replaces an element of `header` in place. -/
def Replaces (ev : SwitchEvent) (headerName : Str) (header : Header) (index : Nat) : Prop :=
  ∃ name, splitIndex headerName = (name, some (index : Int)) ∧ index ≤ 4000
    ∧ switchEventGetHeaderPtr ev name = some header ∧ index < header.array.length

theorem addHeader_edits (ev : SwitchEvent) (stack : Stack) (headerName : Str) (data : Option Str)
    (hfree : scope.free)
    (hallowed : ∀ data' header index, data = some data' → Replaces ev headerName header index →
      scope.replace header index data') :
        Edits scope ev (switchEventAddHeaderString ev stack headerName data) := by
  cases data with
  | none => exact Relation.ReflTransGen.refl
  | some data =>
    cases h : splitIndex headerName with
    | mk name index =>
      have hname := splitIndex_plain h
      cases index with
      | none =>
        rw [splitIndex_none h] at hname
        exact baseAddHeader_edits_plain hname _ data rfl ev stack fun _ => hfree
      | some index =>
        rw [switchEventAddHeaderString, baseAddHeader_indexed ev stack h]
        refine (edits_body ev headerName data).trans
          (setIndexed_edits _ stack hname index data hfree ?_)
        intro header hfind hlow hhigh hlt
        have hfind' : switchEventGetHeaderPtr ev name = some header := by
          rw [← hfind]
          split <;> rfl
        have hindex : (index.toNat : Int) = index := Int.toNat_of_nonneg (by omega)
        exact hallowed data header index.toNat rfl
          ⟨name, by rw [hindex, h], by omega, hfind', by omega⟩

end

end FreeSwitch.Event
