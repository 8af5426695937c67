import FreeSwitch.Event.Edits

/-!
# Event headers — the list and its tail pointer

Whatever the calls do to values and arrays, the list of nodes stays in shape: `last_header` is
the last node, no node is in the list twice, and the next node is a new one. With that, what a
call leaves in the list can be said without pointers.

* **`link_headers`** — a new header is in front or at the end.
* **`edit_chained`** — every edit keeps the list in shape.
* **`forall_headers_of_edit`** — the rule for properties of the single headers.
-/

namespace FreeSwitch.Event

open CString

/-- The list is in shape. -/
structure Chained (ev : SwitchEvent) : Prop where
  last : ev.lastHeader = ev.headers.getLast?.map Header.addr
  nodup : (ev.headers.map Header.addr).Nodup
  fresh : ∀ hp ∈ ev.headers, hp.addr < ev.fresh

variable {ev : SwitchEvent}

theorem Chained.eq_of_addr (h : Chained ev) {hp hp' : Header}
    (hmem : hp ∈ ev.headers) (hmem' : hp' ∈ ev.headers) (haddr : hp.addr = hp'.addr) : hp = hp' :=
  List.inj_on_of_nodup_map h.nodup hmem hmem' haddr

/-! ## The list operations -/

/-- Behind the last node is the end of the list. -/
theorem linkAfter_last (header : Header) :
    ∀ (hps : List Header) {last : Nat}, (hps.map Header.addr).Nodup →
      hps.getLast?.map Header.addr = some last → linkAfter last header hps = hps ++ [header] := by
  intro hps
  induction hps with
  | nil => intro last _ h; simp at h
  | cons hp hps ih =>
    intro last hnodup hlast
    unfold linkAfter
    cases hps with
    | nil =>
      rw [if_pos (by simpa using hlast)]
      rfl
    | cons hq hqs =>
      rw [List.getLast?_cons_cons] at hlast
      have hmem : last ∈ (hq :: hqs).map Header.addr := by
        rw [← List.getLast?_map] at hlast
        exact List.mem_of_getLast? hlast
      have hne : hp.addr ≠ last := by
        rintro rfl
        exact (List.nodup_cons.mp hnodup).1 hmem
      rw [if_neg hne, ih (List.nodup_cons.mp hnodup).2 hlast]
      rfl

/-- The pointer the walk leaves: the last node kept, or `lp` if none is. -/
theorem delWalk_snd (name : Str) (val : Option Str) :
    ∀ (hps : List Header) (last lp : Option Nat), hps ≠ [] → (hps.map Header.addr).Nodup →
      last = hps.getLast?.map Header.addr → (delWalk name val last lp hps).2 =
          (((hps.filter fun hp => ¬ deleted name val hp).getLast?.map Header.addr).or lp) := by
  intro hps
  induction hps with
  | nil => intro last lp hne; exact absurd rfl hne
  | cons hp hps ih =>
    intro last lp _ hnodup hlast
    have htail := (List.nodup_cons.mp hnodup).2
    by_cases hdel : deleted name val hp
    · rw [List.filter_cons_of_neg (by simp [hdel]), delWalk, if_pos hdel]
      cases hps with
      | nil => simp [delWalk]
      | cons hq hqs =>
        -- the last node is a later one
        have hlast' : last = (hq :: hqs).getLast?.map Header.addr := by
          rw [hlast, List.getLast?_cons_cons]
        have hne : last ≠ some hp.addr := by
          rw [hlast', ← List.getLast?_map]
          intro heq
          exact (List.nodup_cons.mp hnodup).1 (List.mem_of_getLast? heq)
        rw [if_neg (by simp [hne])]
        exact ih last lp (by simp) htail hlast'
    · rw [List.filter_cons_of_pos (by simp [hdel]), delWalk, if_neg hdel]
      cases hps with
      | nil => simpa [delWalk] using hlast
      | cons hq hqs =>
        rw [ih last (some hp.addr) (by simp) htail (by rw [hlast, List.getLast?_cons_cons]),
          List.getLast?_cons]
        cases (List.filter (fun hp => ¬ deleted name val hp) (hq :: hqs)).getLast? <;> rfl

/-! ## What the edits leave in the list -/

/-- The header as it goes into the list. -/
def hashed (header : Header) : Header :=
  { header with hash := switchCiHashfuncDefault header.name }

/-- A header that goes to the end is hung behind the last one. -/
theorem link_headers (h : Chained ev) (stack : Stack) (header : Header) :
    (link ev stack header).headers =
      if stack.top then hashed header :: ev.headers else ev.headers ++ [hashed header] := by
  unfold link
  split
  case isTrue => rfl
  case isFalse =>
    have hlast := h.last
    dsimp only
    cases hl : ev.lastHeader with
    | none =>
      rw [hl] at hlast
      have hnil : ev.headers = [] := by
        cases hh : ev.headers with
        | nil => rfl
        | cons hp hps => simp [hh] at hlast
      rw [hnil]
      rfl
    | some last => exact linkAfter_last _ _ h.nodup (hlast.symm.trans hl)

theorem mem_link (h : Chained ev) {stack : Stack} {header hp : Header} :
    hp ∈ (link ev stack header).headers ↔ hp = hashed header ∨ hp ∈ ev.headers := by
  rw [link_headers h]
  split <;> simp [or_comm]

theorem mem_update {addr : Nat} {f : Header → Header} {hp' : Header}
    (hmem : hp' ∈ (update ev addr f).headers) :
    ∃ hp ∈ ev.headers, (hp.addr = addr ∧ hp' = f hp) ∨ (hp.addr ≠ addr ∧ hp' = hp) := by
  obtain ⟨hp, hhp, rfl⟩ := List.mem_map.mp hmem
  refine ⟨hp, hhp, ?_⟩
  split
  case isTrue heq => exact .inl ⟨heq, rfl⟩
  case isFalse hne => exact .inr ⟨hne, rfl⟩

/-- A write that leaves a field of the node alone leaves it alone all along the list. -/
theorem map_update {α : Type} (g : Header → α) {addr : Nat}
    {f : Header → Header} (hf : ∀ hp, g (f hp) = g hp) :
    (update ev addr f).headers.map g = ev.headers.map g := by
  rw [update, List.map_map]
  refine List.map_congr_left fun hp _ => ?_
  show g (if hp.addr = addr then f hp else hp) = g hp
  split
  · exact hf hp
  · rfl

/-! ## The list stays in shape -/

theorem del_chained (h : Chained ev) (name : Str) (val : Option Str) :
    Chained (switchEventDelHeaderVal ev name val) := by
  have hheaders := del_headers ev name val
  have hsub : (switchEventDelHeaderVal ev name val).headers.Sublist ev.headers := by
    rw [hheaders]
    exact List.filter_sublist
  refine ⟨?_, h.nodup.sublist (hsub.map _), fun hp hmem => h.fresh hp (hsub.subset hmem)⟩
  rw [hheaders]
  show (delWalk name val ev.lastHeader none ev.headers).2 = _
  by_cases hnil : ev.headers = []
  · rw [h.last, hnil]
    rfl
  · rw [delWalk_snd name val ev.headers _ none hnil h.nodup h.last]
    simp

theorem update_chained (h : Chained ev) (addr : Nat) {f : Header → Header}
    (haddr : ∀ hp, (f hp).addr = hp.addr) : Chained (update ev addr f) := by
  have hmap : (update ev addr f).headers.map Header.addr = ev.headers.map Header.addr :=
    map_update Header.addr haddr
  refine ⟨?_, hmap ▸ h.nodup, fun hp' hmem => ?_⟩
  · rw [← List.getLast?_map, hmap, List.getLast?_map]
    exact h.last
  · have hmem' : hp'.addr ∈ ev.headers.map Header.addr := hmap ▸ List.mem_map_of_mem hmem
    obtain ⟨hp, hhp, heq⟩ := List.mem_map.mp hmem'
    exact heq ▸ h.fresh hp hhp

theorem link_chained (h : Chained ev) (stack : Stack) {header : Header}
    (haddr : header.addr = ev.fresh) : Chained (link ev stack header) := by
  have hheaders := link_headers h stack header
  have hnew : header.addr ∉ ev.headers.map Header.addr := by
    intro hmem
    obtain ⟨hp, hhp, heq⟩ := List.mem_map.mp hmem
    have hlt := h.fresh hp hhp
    omega
  have hfresh : (link ev stack header).fresh = ev.fresh + 1 := by
    unfold link
    split <;> rfl
  refine ⟨?_, ?_, fun hp hhp => ?_⟩
  · rw [hheaders]
    have hlast := h.last
    unfold link
    split
    case isTrue htop =>
      show some (ev.lastHeader.getD header.addr) = _
      rw [List.getLast?_cons, hlast]
      cases ev.headers.getLast? <;> rfl
    case isFalse htop => simp [hashed]
  · rw [hheaders]
    split
    · exact List.nodup_cons.mpr ⟨hnew, h.nodup⟩
    · rw [List.map_append]
      exact h.nodup.append (List.nodup_singleton _) (by simpa [hashed] using hnew)
  · rw [hfresh]
    rcases (mem_link h).mp hhp with rfl | hold
    · exact haddr ▸ Nat.lt_succ_self _
    · exact Nat.lt_succ_of_lt (h.fresh hp hold)

section

variable {scope : Scope}

theorem edit_chained {ev' : SwitchEvent} (h : Chained ev) (hedit : Edit scope ev ev') :
    Chained ev' := by
  cases hedit with
  | body body => exact ⟨h.last, h.nodup, h.fresh⟩
  | del name val => exact del_chained h name val
  | push stack addr data hstack => exact update_chained h addr fun _ => rfl
  | extend addr index data hfree => exact update_chained h addr fun _ => rfl
  | replace data hmem hindex hallowed => exact update_chained h _ fun _ => rfl
  | link stack haddr _ _ _ => exact link_chained h stack haddr

/-- What holds of a new header, and is kept by a push, an extension and a replacement, holds
of all headers. -/
theorem forall_headers_of_edit {R : Header → Prop}
    (hpush : ∀ stack hp data, (stack.push = true ∨ scope.free) → R hp →
      R (pushElement stack hp data)) (hextend :
      ∀ hp index data, scope.free → R hp → R (extend hp index data))
    (hreplace : ∀ hp index data, index < hp.array.length → scope.replace hp index data → R hp →
      R { hp with array := hp.array.set index data })
    (hlink : ∀ header, Plain header.name → Drawn scope header → R (hashed header))
    {ev' : SwitchEvent} (h : Chained ev) (hR : ∀ hp ∈ ev.headers, R hp)
    (hedit : Edit scope ev ev') : ∀ hp ∈ ev'.headers, R hp := by
  cases hedit with
  | body body => exact hR
  | del name val =>
    intro hp hmem
    rw [del_headers] at hmem
    exact hR hp (List.mem_of_mem_filter hmem)
  | push stack addr data hstack =>
    intro hp' hmem
    obtain ⟨hp, hhp, ⟨-, rfl⟩ | ⟨-, rfl⟩⟩ := mem_update hmem
    · exact hpush stack hp data hstack (hR hp hhp)
    · exact hR _ hhp
  | extend addr index data hfree =>
    intro hp' hmem
    obtain ⟨hp, hhp, ⟨-, rfl⟩ | ⟨-, rfl⟩⟩ := mem_update hmem
    · exact hextend hp index data hfree (hR hp hhp)
    · exact hR _ hhp
  | @replace header index data hmem hindex hallowed =>
    intro hp' hmem'
    obtain ⟨hp, hhp, ⟨haddr, rfl⟩ | ⟨-, rfl⟩⟩ := mem_update hmem'
    · have hheader : hp = header := h.eq_of_addr hhp hmem haddr
      subst hheader
      exact hreplace hp index data hindex hallowed (hR hp hhp)
    · exact hR _ hhp
  | link stack _ hplain hdrawn _ =>
    intro hp hmem
    rcases (mem_link h).mp hmem with rfl | hold
    · exact hlink _ hplain hdrawn
    · exact hR hp hold

end

end FreeSwitch.Event
