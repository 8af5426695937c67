import FreeSwitch.Event.Dup

/-!
# Event headers — unique names

In an event with `EF_UNIQ_HEADERS` every header that goes into the list has all the headers of its name
deleted before. So no name is there twice, whichever way the calls take, as long as names do not change.
`switch_event_rename_header` changes them, and does not look whether there is a header of the new name.

* **`edit_unique`** — what keeps the names unique, edit by edit.
* **`rename_unique_iff`** — a renaming keeps them unique exactly if no other header has the new name.
* **`unique_headers_iff`** — over sequences of calls.
-/

namespace FreeSwitch.Event

open CString Runs

/-! ## The code -/

/-- Every header of the name gets the new one, with its hash. -/
def switchEventRenameHeader (ev : SwitchEvent) (headerName : Option Str)
    (newHeaderName : Str) : SwitchEvent :=
  match headerName with
  | none => ev
  | some headerName =>
    { ev with
      headers := ev.headers.map fun hp =>
        if named headerName hp then
          { hp with name := newHeaderName, hash := switchCiHashfuncDefault newHeaderName } else hp }

inductive HeaderCall where
  | addHeaderString (stack : Stack) (headerName : Str) (data : Option Str)
  | delHeaderVal (headerName : Str) (val : Option Str)
  | renameHeader (headerName : Option Str) (newHeaderName : Str)

def headerCall (ev : SwitchEvent) : HeaderCall → SwitchEvent
  | .addHeaderString stack headerName data => switchEventAddHeaderString ev stack headerName data
  | .delHeaderVal headerName val => switchEventDelHeaderVal ev headerName val
  | .renameHeader headerName newHeaderName => switchEventRenameHeader ev headerName newHeaderName

/-! ## Unique names -/

/-- No two headers of the list have names that are equal up to letter case. -/
def UniqueHeaders (ev : SwitchEvent) : Prop := ev.headers.Pairwise fun hp hp' => ¬ciEq hp.name hp'.name

instance (ev : SwitchEvent) : Decidable (UniqueHeaders ev) :=
  inferInstanceAs (Decidable (List.Pairwise _ _))

/-- With what the names are found by, and the flag. -/
structure UniqInv (ev : SwitchEvent) : Prop where
  unique : UniqueHeaders ev
  hashed : Hashed ev
  chained : Chained ev
  flag : ev.uniqHeaders = true

section

variable {ev ev' : SwitchEvent}

theorem uniqueHeaders_of_names (hnames : ev'.headers.map Header.name = ev.headers.map Header.name)
    (h : UniqueHeaders ev) :
    UniqueHeaders ev' := by
  have hpairwise : ∀ ev : SwitchEvent,
      UniqueHeaders ev ↔ (ev.headers.map Header.name).Pairwise fun s t => ¬ciEq s t :=
    fun ev => by rw [List.pairwise_map]; rfl
  rw [hpairwise] at h ⊢
  rwa [hnames]

theorem edit_unique (h : UniqInv ev) (hedit : Edit anyScope ev ev') : UniqueHeaders ev' := by
  cases hedit with
  | body body => exact h.unique
  | del name val =>
    unfold UniqueHeaders
    rw [del_headers]
    exact h.unique.filter _
  | push stack addr data hstack =>
    exact uniqueHeaders_of_names (map_update Header.name fun _ => rfl) h.unique
  | extend addr index data hfree =>
    exact uniqueHeaders_of_names (map_update Header.name fun _ => rfl) h.unique
  | replace data hmem hindex hallowed =>
    exact uniqueHeaders_of_names (map_update Header.name fun _ => rfl) h.unique
  | @link stack header haddr hplain hdrawn huniq =>
    have hother : ∀ hp ∈ ev.headers, ¬ciEq hp.name header.name := fun hp hmem hci =>
      huniq h.flag hp hmem ((named_iff (h.hashed hp hmem)).mpr hci)
    unfold UniqueHeaders
    rw [link_headers h.chained]
    split
    · exact List.pairwise_cons.mpr ⟨fun hp hmem hci => hother hp hmem hci.symm, h.unique⟩
    · refine List.pairwise_append.mpr ⟨h.unique, List.pairwise_singleton _ _,
        fun hp hmem hp' hmem' => ?_⟩
      rw [List.mem_singleton.mp hmem']
      exact hother hp hmem

theorem edit_uniqInv (h : UniqInv ev) (hedit : Edit anyScope ev ev') : UniqInv ev' where
  unique := edit_unique h hedit
  hashed := forall_headers_of_edit (fun _ _ _ _ hhash => hhash) (fun _ _ _ _ hhash => hhash)
    (fun _ _ _ _ _ hhash => hhash)
    (fun _ _ _ => rfl) h.chained h.hashed hedit
  chained := edit_chained h.chained hedit
  flag := by
    unfold SwitchEvent.uniqHeaders
    rw [(edits_sameRest hedit.edits).flags]
    exact h.flag

/-! ## Renaming -/

/-- If there is a header to rename, no other one has the new name. -/
def NoClash (ev : SwitchEvent) : HeaderCall → Prop
  | .renameHeader (some headerName) newHeaderName =>
    (∃ hp ∈ ev.headers, ciEq hp.name headerName) →
      ∀ hp ∈ ev.headers, ¬ciEq hp.name headerName → ¬ciEq hp.name newHeaderName
  | _ => True

instance (ev : SwitchEvent) (c : HeaderCall) : Decidable (NoClash ev c) :=
  match c with
  | .renameHeader (some headerName) newHeaderName =>
    inferInstanceAs (Decidable ((∃ hp ∈ ev.headers, ciEq hp.name headerName) →
      ∀ hp ∈ ev.headers, ¬ciEq hp.name headerName → ¬ciEq hp.name newHeaderName))
  | .renameHeader none _ => inferInstanceAs (Decidable True)
  | .addHeaderString _ _ _ => inferInstanceAs (Decidable True)
  | .delHeaderVal _ _ => inferInstanceAs (Decidable True)

/-- A header behind a renaming. -/
def renamed (headerName newHeaderName : Str) (hp : Header) : Header :=
  if ciEq hp.name headerName then
    { hp with name := newHeaderName, hash := switchCiHashfuncDefault newHeaderName } else hp

theorem rename_headers (h : Hashed ev) (headerName newHeaderName : Str) :
    (switchEventRenameHeader ev (some headerName) newHeaderName).headers
      = ev.headers.map (renamed headerName newHeaderName) := by
  refine List.map_congr_left fun hp hmem => ?_
  unfold renamed
  simp only [named_iff (h hp hmem)]

theorem renamed_addr (headerName newHeaderName : Str) (hp : Header) :
    (renamed headerName newHeaderName hp).addr = hp.addr := by
  unfold renamed
  split <;> rfl

theorem rename_chained (hhashed : Hashed ev) (h : Chained ev) (headerName newHeaderName : Str) :
    Chained (switchEventRenameHeader ev (some headerName) newHeaderName) := by
  have hmap : (switchEventRenameHeader ev (some headerName) newHeaderName).headers.map Header.addr
      = ev.headers.map Header.addr := by
    rw [rename_headers hhashed, List.map_map]
    exact List.map_congr_left fun hp _ => renamed_addr headerName newHeaderName hp
  refine ⟨?_, hmap ▸ h.nodup, fun hp hmem => ?_⟩
  · rw [← List.getLast?_map, hmap, List.getLast?_map]
    exact h.last
  · obtain ⟨hp', hmem', heq⟩ :=
      List.mem_map.mp (hmap ▸ List.mem_map_of_mem hmem : hp.addr ∈ ev.headers.map Header.addr)
    rw [← heq]
    exact h.fresh hp' hmem'

theorem rename_hashed (h : Hashed ev) (headerName newHeaderName : Str) :
    Hashed (switchEventRenameHeader ev (some headerName) newHeaderName) := by
  intro hp hmem
  rw [rename_headers h] at hmem
  obtain ⟨hp', hmem', rfl⟩ := List.mem_map.mp hmem
  unfold renamed
  split
  · rfl
  · exact h hp' hmem'

/-- Renaming keeps the names unique exactly if it does not meet another header. -/
theorem rename_unique_iff (h : UniqInv ev) (headerName newHeaderName : Str) :
    UniqueHeaders (switchEventRenameHeader ev (some headerName) newHeaderName)
      ↔ NoClash ev (.renameHeader (some headerName) newHeaderName) := by
  have hsymm : Std.Symm fun hp hp' : Header =>
      ¬ciEq (renamed headerName newHeaderName hp).name (renamed headerName newHeaderName hp').name :=
    ⟨fun _ _ hne hci => hne hci.symm⟩
  unfold UniqueHeaders
  rw [rename_headers h.hashed, List.pairwise_map]
  constructor
  · rintro hunique ⟨old, hold, hci⟩ hp hmem hother hnew
    have hne : hp ≠ old := fun heq => hother (heq ▸ hci)
    have hdiffer := hunique.forall hmem hold hne
    unfold renamed at hdiffer
    rw [if_neg hother, if_pos hci] at hdiffer
    exact hdiffer hnew
  · intro hclash
    refine h.unique.imp_of_mem fun {hp hp'} hmem hmem' hne => ?_
    unfold renamed
    split
    · rename_i hci
      split
      · rename_i hci'
        exact absurd (hci.trans hci'.symm) hne
      · rename_i hother
        exact fun hnew => hclash ⟨hp, hmem, hci⟩ hp' hmem' hother hnew.symm
    · rename_i hother
      split
      · rename_i hci'
        exact hclash ⟨hp', hmem', hci'⟩ hp hmem hother
      · exact hne

/-! ## Sequences of calls -/

theorem headerCall_keeps {c : HeaderCall} (h : UniqInv ev) (hok : NoClash ev c) :
    UniqInv (headerCall ev c) := by
  cases c with
  | addHeaderString stack headerName data =>
    have hedits : Edits anyScope ev (switchEventAddHeaderString ev stack headerName data) :=
      addHeader_edits ev stack headerName data trivial fun _ _ _ _ _ => trivial
    exact hedits.preserves (fun _ _ => edit_uniqInv) h
  | delHeaderVal headerName val => exact edit_uniqInv h (.del ev headerName val)
  | renameHeader headerName newHeaderName =>
    cases headerName with
    | none => exact h
    | some headerName =>
      exact ⟨(rename_unique_iff h headerName newHeaderName).mpr hok,
        rename_hashed h.hashed headerName newHeaderName,
        rename_chained h.hashed h.chained headerName newHeaderName, h.flag⟩

theorem noClash_of_unique {c : HeaderCall} (h : UniqInv ev)
    (hunique : UniqueHeaders (headerCall ev c)) : NoClash ev c := by
  cases c with
  | addHeaderString | delHeaderVal => trivial
  | renameHeader headerName newHeaderName =>
    cases headerName with
    | none => trivial
    | some headerName => exact (rename_unique_iff h headerName newHeaderName).mp hunique

theorem uniqInv_of_empty (hempty : Empty ev) (hflag : ev.uniqHeaders = true) : UniqInv ev where
  unique := by
    unfold UniqueHeaders
    rw [hempty.1]
    exact List.Pairwise.nil
  hashed := (inv_of_empty hempty).hashed
  chained := (inv_of_empty hempty).chained
  flag := hflag

end

/-- From an event without headers that has the flag, along any sequence of calls: no two headers have
the same name in any state, exactly if no call renames a header to the name of another one. -/
theorem unique_headers_iff (ev : SwitchEvent) (calls : List HeaderCall) (hempty : Empty ev)
    (hflag : ev.uniqHeaders = true) :
    (∀ done rest, calls = done ++ rest → UniqueHeaders (done.foldl headerCall ev))
      ↔ ∀ done c rest, calls = done ++ c :: rest → NoClash (done.foldl headerCall ev) c :=
  prefixes_iff (P := UniqInv) (Q := UniqueHeaders) (fun _ h => h.unique)
    (fun _ _ h => noClash_of_unique h) (fun _ _ h => headerCall_keeps h) calls ev
    (uniqInv_of_empty hempty hflag)

/-- An event with the flag, as `switch_event_create_plain` makes it for parameters. -/
def uniqEvent : SwitchEvent := { blankEvent with eventId := .requestParams, flags := 1 }

/-- An array, and a name that is not there. -/
theorem unique_headers_renamed :
    let calls : List HeaderCall :=
      [.addHeaderString stackBottom (bytes "a") (some (bytes "ARRAY::x|:y")),
      .renameHeader (some (bytes "A")) (bytes "b")]
    ∀ done rest, calls = done ++ rest → UniqueHeaders (done.foldl headerCall uniqEvent) := by
  intro calls
  refine (unique_headers_iff uniqEvent calls ⟨rfl, rfl⟩ rfl).mpr fun done c rest heq => ?_
  -- only the second call renames
  rcases done with - | ⟨d, - | ⟨d', done⟩⟩
  · obtain ⟨rfl, -⟩ := List.cons.inj heq
    trivial
  · obtain ⟨rfl, htail⟩ := List.cons.inj heq
    obtain ⟨rfl, -⟩ := List.cons.inj htail
    decide +kernel
  · have hlen := congrArg List.length heq
    simp [calls] at hlen

/-- `a` is renamed to `B`, and `b` is there. -/
theorem renamed_twice :
    ¬UniqueHeaders ([HeaderCall.addHeaderString stackBottom (bytes "a") (some (bytes "x")),
      .addHeaderString stackBottom (bytes "b") (some (bytes "y")),
      .renameHeader (some (bytes "a")) (bytes "B")].foldl headerCall
        uniqEvent) := by
  decide +kernel

end FreeSwitch.Event
