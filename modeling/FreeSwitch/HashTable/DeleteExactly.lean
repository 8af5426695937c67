import FreeSwitch.Event.Dup
import FreeSwitch.HashTable.CoreHash

/-!
# Which entries `switch_core_hash_delete_multi` deletes

The keys that the callback picks become headers of one name, and the keys deleted are the values of
these headers. The event takes an empty value for a deletion of all headers of the name, and a value
that begins with `ARRAY::` for elements to push onto the first of them.

* **`Shelf.add`** — the values that the event holds, as a list that the keys are put on one after the
  other.
* **`added_flat`**, **`flat_of_added`** — the keys that are put on an empty list as they are.
* **`deleteMultiCase_leaves_iff`** — the keys for which the entries picked are the ones deleted.
-/

namespace FreeSwitch.HashTable

open CString Event

/-! ## Tables with and without letter case -/

def switchHashDefaultCi (s : Str) : UInt32 :=
  s.foldl (fun hash c => (toLower c).toUInt32 + (hash <<< 6) + (hash <<< 16) - hash) 0

theorem hashDefaultCi_congr {s t : Str} (h : ciEq s t) :
    switchHashDefaultCi s = switchHashDefaultCi t := by
  have hlower : ∀ s : Str, switchHashDefaultCi s
      = (lower s).foldl (fun (hash : UInt32) c => c.toUInt32 + (hash <<< 6) +
        (hash <<< 16) - hash) 0 := by
    intro s
    rw [lower, List.foldl_map]
    rfl
  rw [hlower, hlower, h]

/-- Strings, without case. -/
def stringKeysCi : KeyType Str where
  hashf := switchHashDefaultCi
  eqf k l := decide (ciEq k l)
  refl _ := decide_eq_true rfl
  symm _ _ h := decide_eq_true (of_decide_eq_true h).symm
  trans _ _ _ h h' := decide_eq_true ((of_decide_eq_true h).trans (of_decide_eq_true h'))
  agree _ _ h := hashDefaultCi_congr (of_decide_eq_true h)

/-- The functions that `switch_core_hash_init_case` creates a table with. -/
def keysOf (caseSensitive : Bool) : KeyType Str := if caseSensitive then stringKeys else stringKeysCi

theorem length_eq_of_eqf {caseSensitive : Bool} {k l : Str}
    (h : (keysOf caseSensitive).eqf k l = true) :
    k.length = l.length := by
  cases caseSensitive with
  | true => exact congrArg List.length (beq_iff_eq.mp h)
  | false =>
    have hlower : lower k = lower l := of_decide_eq_true h
    rw [← List.length_map toLower, show k.map toLower = l.map toLower from hlower, List.length_map]

/-! ## The code -/

variable {υ : Type}

/-- `!callback || callback(key, val, pData)`, for a callback that looks at the key and the value. -/
def picks (callback : Option (Str → υ → Bool)) (e : Entry Str υ) : Bool :=
  match callback with
  | none => true
  | some callback => callback e.k e.v

/-- The walk: the event with a header for each key picked. -/
def collect (callback : Option (Str → υ → Bool)) (h : SwitchHash υ) : SwitchEvent :=
  (contents h).foldl
    (fun ev e => if picks callback e then
      switchEventAddHeaderString ev stackBottom (bytes "delete") (some e.k) else ev)
    blankEvent

/-- `switch_core_hash_delete_multi` on either kind of table. -/
def switchCoreHashDeleteMultiCase (caseSensitive : Bool) (callback : Option (Str → υ → Bool))
    (h : SwitchHash υ) :
    Option (SwitchHash υ) := do
  let keys ← (collect callback h).headers.mapM Header.value
  return keys.foldl (fun h key => (switchHashtableRemove (keysOf caseSensitive) h key).1) h

/-- A key that an event keeps as it is. -/
def PlainKey (k : Str) : Prop := k ≠ [] ∧ ¬arrayPrefix <+: k

theorem mapM_value_eq {headers : List Header} {keys : List Str}
    (hvalues : headers.map Header.value = keys.map some) :
    headers.mapM Header.value = some keys := by
  have hall := congrArg (List.mapM id) hvalues
  rw [List.mapM_map, List.mapM_map] at hall
  exact hall.trans (List.mapM_pure.trans (congrArg some (List.map_id keys)))

/-! ## The list of keys in the event -/

/-- A header of the list: its value, and its array. -/
abbrev Slot : Type := Str × List Str

/-- A push goes to the first header. With no header yet it makes one. -/
def pushed : List Slot → Str → List Slot
  | (value, array) :: slots, data =>
    let array := (if array = [] then [value] else array) ++ [data]
    (flatten array, array) :: slots
  | [], data =>
    if data = [] then []
    else if arrayPrefix <+: data then
      (arrayElements data).attach.foldl (fun slots piece => pushed slots piece.1) []
    else [(data, [data])]
termination_by _ data => data.length
decreasing_by exact length_lt_of_mem_arrayElements piece.2

theorem pushed_nil (data : Str) : pushed [] data =
      if data = [] then [] else if arrayPrefix <+: data then
        (arrayElements data).foldl pushed [] else [(data, [data])] := by
  rw [pushed, List.foldl_attach]

/-- A key is put on the list. -/
def added (slots : List Slot) (data : Str) : List Slot :=
  if data = [] then []
  else if arrayPrefix <+: data then (arrayElements data).foldl pushed slots
  else slots ++ [(data, [])]

/-- The event has these headers, all named `delete`. -/
structure Shelf (ev : SwitchEvent) (slots : List Slot) : Prop where
  chained : Chained ev
  hashed : Hashed ev
  shared : ev.uniqHeaders = false
  views : views ev = slots.map fun slot => ⟨bytes "delete", some slot.1, slot.2⟩

namespace Shelf

variable {ev : SwitchEvent} {slots : List Slot}

theorem names_eq (h : Shelf ev slots) : ∀ hp ∈ ev.headers, hp.name = bytes "delete" := by
  intro hp hmem
  have hview : hp.view ∈ Event.views ev := List.mem_map_of_mem hmem
  rw [h.views] at hview
  obtain ⟨slot, -, hslot⟩ := List.mem_map.mp hview
  exact (congrArg View.name hslot).symm

theorem named (h : Shelf ev slots) : ∀ hp ∈ ev.headers, Event.named (bytes "delete") hp := by
  intro hp hmem
  rw [named_iff (h.hashed hp hmem), h.names_eq hp hmem]
  rfl

theorem values (h : Shelf ev slots) : ev.headers.mapM Header.value = some (slots.map Prod.fst) := by
  apply mapM_value_eq
  have hvalues := congrArg (List.map View.value) h.views
  rw [Event.views, List.map_map, List.map_map] at hvalues
  rw [List.map_map]
  exact hvalues

/-- Everything is deleted. -/
theorem del (h : Shelf ev slots) : Shelf (switchEventDelHeader ev (bytes "delete")) [] := by
  have hnil : (switchEventDelHeader ev (bytes "delete")).headers = [] := by
    rw [switchEventDelHeader, del_headers, List.filter_eq_nil_iff]
    intro hp hmem
    simp [deleted, h.named hp hmem]
  refine ⟨del_chained h.chained _ _, ?_, h.shared, ?_⟩
  · intro hp hmem
    rw [hnil] at hmem
    cases hmem
  · rw [Event.views, hnil]
    rfl

/-- A new header goes to the end. -/
theorem link (h : Shelf ev slots) {header : Header} (haddr : header.addr = ev.fresh) {slot : Slot}
    (hview : header.view = ⟨bytes "delete", some slot.1, slot.2⟩) {stack : Stack}
    (hbottom : stack.top = false) :
    Shelf (Event.link ev stack header) (slots ++ [slot]) := by
  have hheaders : (Event.link ev stack header).headers = ev.headers ++ [Event.hashed header] := by
    rw [link_headers h.chained, if_neg (by rw [hbottom]; decide)]
  refine ⟨link_chained h.chained _ haddr, ?_, ?_, ?_⟩
  · intro hp hmem
    rcases (mem_link h.chained).mp hmem with rfl | hmem
    · rfl
    · exact h.hashed hp hmem
  · unfold Event.link
    split <;> exact h.shared
  · rw [Event.views, hheaders, List.map_append, List.map_append]
    refine congrArg₂ (· ++ ·) h.views ?_
    rw [List.map_singleton, List.map_singleton, ← hview]
    rfl

/-- A push onto the first header. -/
theorem update {slot : Slot} (h : Shelf ev (slot :: slots)) (data : Str) :
    ∃ header, switchEventGetHeaderPtr ev (bytes "delete") = some header ∧
      Shelf (Event.update ev header.addr fun hp => pushElement stackPush hp data)
        (pushed (slot :: slots) data) := by
  obtain ⟨value, array⟩ := slot
  have hviews := h.views
  cases hheaders : ev.headers with
  | nil =>
    rw [Event.views, hheaders] at hviews
    cases hviews
  | cons header headers =>
    rw [Event.views, hheaders, List.map_cons, List.map_cons] at hviews
    obtain ⟨hfirst, hrest⟩ := List.cons.inj hviews
    refine ⟨header, ?_, update_chained h.chained _ fun _ => rfl, ?_, h.shared, ?_⟩
    · rw [switchEventGetHeaderPtr, hheaders, List.find?_cons_of_pos]
      exact decide_eq_true (h.named header (by rw [hheaders]; exact List.mem_cons_self))
    · intro hp hmem
      obtain ⟨hp', hmem', ⟨-, rfl⟩ | ⟨-, rfl⟩⟩ := mem_update hmem
      · exact h.hashed hp' hmem'
      · exact h.hashed _ hmem'
    · have hnodup := h.chained.nodup
      rw [hheaders, List.map_cons, List.nodup_cons] at hnodup
      -- the nodes behind the first have other addresses
      have hothers : headers.map (fun hp => if hp.addr = header.addr then
          pushElement stackPush hp data else hp) = headers := by
        refine (List.map_congr_left fun hp hmem => if_neg fun haddr => ?_).trans (List.map_id' headers)
        exact hnodup.1 (haddr ▸ List.mem_map_of_mem hmem)
      rw [Event.views, Event.update, hheaders]
      dsimp only
      rw [List.map_cons, if_pos rfl, hothers, List.map_cons, hrest, pushed, List.map_cons]
      refine congrArg (· :: _) ?_
      have hname : header.name = bytes "delete" := congrArg View.name hfirst
      have hvalue : header.value = some value := congrArg View.value hfirst
      have harray : header.array = array := congrArg View.array hfirst
      rw [pushElement, hvalue, harray]
      cases array with
      | nil => rw [Header.view, ← hname]; rfl
      | cons a array => rw [Header.view, ← hname]; rfl

end Shelf

/-- The call with this name in an event without `EF_UNIQ_HEADERS`. -/
theorem baseAddHeader_delete {ev : SwitchEvent} (hshared : ev.uniqHeaders = false) (stack : Stack)
    (data : Str) :
    switchEventBaseAddHeader ev stack (bytes "delete") data =
      match if stack.push || stack.unshift then switchEventGetHeaderPtr ev (bytes "delete")
        else none with
      | some header => update ev header.addr fun hp => pushElement stack hp data
      | none =>
        if data = [] then switchEventDelHeader ev (bytes "delete")
        else if arrayPrefix <+: data then
          (arrayElements data).foldl
            (fun ev => switchEventBaseAddHeader ev stackPush (bytes "delete")) ev
        else
          link ev stack
            (if stack.push || stack.unshift then pushElement stack (newHeader ev (bytes "delete")) data
              else { newHeader ev (bytes "delete") with value := some data }) := by
  have hname : Plain (bytes "delete") := show (91 : UInt8) ∉ bytes "delete" by decide
  rw [baseAddHeader_plain ev stack hname data, if_neg (by decide)]
  dsimp only
  rw [hshared]
  rfl

/-- By induction on the length: the elements of an array value are shorter. -/
theorem Shelf.push {ev : SwitchEvent} {slots : List Slot} (h : Shelf ev slots) (data : Str) :
    Shelf (switchEventBaseAddHeader ev stackPush (bytes "delete") data) (pushed slots data) := by
  induction hlen : data.length using Nat.strong_induction_on generalizing data ev slots with
  | _ n ih =>
    rw [baseAddHeader_delete h.shared]
    cases slots with
    | cons slot slots =>
      obtain ⟨header, hptr, hshelf⟩ := h.update data
      rw [hptr]
      exact hshelf
    | nil =>
      have hnone : switchEventGetHeaderPtr ev (bytes "delete") = none := by
        rw [switchEventGetHeaderPtr, List.map_eq_nil_iff.mp h.views]
        rfl
      rw [hnone, pushed_nil]
      show Shelf (if data = [] then _ else _) _
      split
      · exact h.del
      · split
        · refine List.foldl_rel h fun piece hpiece ev slots hshelf => ?_
          exact ih _ (hlen ▸ length_lt_of_mem_arrayElements hpiece) hshelf piece rfl
        · refine @Shelf.link _ _ h _ rfl (data, [data]) ?_ _ rfl
          simp [Header.view, pushElement, newHeader, redraw, flatten, joinPair, stackPush]

theorem Shelf.add {ev : SwitchEvent} {slots : List Slot} (h : Shelf ev slots) (data : Str) :
    Shelf (switchEventAddHeaderString ev stackBottom (bytes "delete") (some data))
      (added slots data) := by
  show Shelf (switchEventBaseAddHeader ev stackBottom (bytes "delete") data) _
  rw [baseAddHeader_delete h.shared, added]
  show Shelf (if data = [] then _ else _) _
  split
  · exact h.del
  · split
    · exact List.foldl_rel h fun piece _ ev slots hshelf => hshelf.push piece
    · exact Shelf.link h rfl rfl rfl

theorem shelf_blankEvent : Shelf blankEvent [] :=
  ⟨⟨rfl, List.nodup_nil, nofun⟩, nofun, rfl, rfl⟩

/-! ## Keys that are put on the list as they are -/

instance (k : Str) : Decidable (PlainKey k) := inferInstanceAs (Decidable (_ ∧ _))

/-- An array of two elements or more, of which the event keeps the first as it is. -/
def FlatKey (k : Str) : Prop :=
  arrayPrefix <+: k ∧ 2 ≤ (arrayElements k).length ∧ PlainKey ((arrayElements k).headD [])

instance (k : Str) : Decidable (FlatKey k) := inferInstanceAs (Decidable (_ ∧ _))

/-- The pieces that are pushed behind others. -/
theorem foldl_pushed_cons {array : List Str} (hne : array ≠ []) (slots : List Slot)
    (pieces : List Str) :
    pieces.foldl pushed ((flatten array, array) :: slots) =
      (flatten (array ++ pieces), array ++ pieces) :: slots := by
  induction pieces generalizing array with
  | nil => rw [List.append_nil, List.foldl_nil]
  | cons piece pieces ih =>
    rw [List.foldl_cons, pushed, if_neg hne]
    show List.foldl pushed ((flatten (array ++ [piece]), array ++ [piece]) :: slots) pieces = _
    rw [ih (by simp), List.append_assoc]
    rfl

theorem foldl_pushed_plain {piece : Str} (hpiece : PlainKey piece) (pieces : List Str) :
    (piece :: pieces).foldl pushed [] = [(flatten (piece :: pieces), piece :: pieces)] := by
  rw [List.foldl_cons, pushed_nil, if_neg hpiece.1, if_neg hpiece.2]
  exact foldl_pushed_cons (List.cons_ne_nil piece []) [] pieces

/-- What the pieces of an array leave on the empty list: nothing, themselves if the first is plain, or
something shorter. -/
def Unpacked (pieces : List Str) (slots : List Slot) : Prop :=
  slots = [] ∨ ∃ array, array ≠ [] ∧ slots = [(flatten array, array)] ∧
    (PlainKey (pieces.headD []) ∧ array = pieces ∨
      (joinPair [124, 58] array).length < (joinPair [124, 58] pieces).length)

theorem Unpacked.length_le {pieces array : List Str} (h : PlainKey (pieces.headD []) ∧ array = pieces ∨
    (joinPair [124, 58] array).length < (joinPair [124, 58] pieces).length) :
    (joinPair [124, 58] array).length ≤ (joinPair [124, 58] pieces).length := by
  rcases h with ⟨-, rfl⟩ | hlt
  · exact Nat.le_refl _
  · exact Nat.le_of_lt hlt

/-- A first piece that is not plain: what it leaves is shorter than it is. -/
theorem pushed_nil_of_not_plain {piece : Str} (hpiece : ¬PlainKey piece)
    (hunpacked : Unpacked (arrayElements piece) ((arrayElements piece).foldl pushed [])) :
    pushed [] piece = [] ∨ ∃ array, array ≠ [] ∧ pushed [] piece = [(flatten array, array)] ∧
      (joinPair [124, 58] array).length < piece.length := by
  rw [pushed_nil]
  by_cases hempty : piece = []
  · exact .inl (if_pos hempty)
  · have harray : arrayPrefix <+: piece := not_not.mp fun hnot => hpiece ⟨hempty, hnot⟩
    rw [if_neg hempty, if_pos harray]
    rcases hunpacked with hnil | ⟨array, hne, hslots, hshorter⟩
    · exact .inl hnil
    · refine .inr ⟨array, hne, hslots, ?_⟩
      have helements : arrayElements piece ≠ [] := by
        intro hnil
        rw [hnil] at hslots
        exact nomatch hslots
      have hle := Unpacked.length_le hshorter
      have hlength := congrArg List.length (joinPair_arrayElements harray helements)
      rw [List.length_append, show arrayPrefix.length = 7 from rfl] at hlength
      omega

/-- By induction on the lengths of the pieces, and for each on their number. -/
theorem unpacked_foldl (n : Nat) :
    ∀ pieces : List Str, (∀ piece ∈ pieces, piece.length < n) →
      Unpacked pieces (pieces.foldl pushed []) := by
  induction n using Nat.strong_induction_on with
  | _ n ih =>
    intro pieces
    induction pieces with
    | nil => exact fun _ => .inl rfl
    | cons piece pieces ihpieces =>
      intro hlengths
      by_cases hpiece : PlainKey piece
      · exact .inr ⟨piece :: pieces, List.cons_ne_nil _ _, foldl_pushed_plain hpiece pieces,
          .inl ⟨hpiece, rfl⟩⟩
      · have hfirst := pushed_nil_of_not_plain hpiece
          (ih piece.length (hlengths piece List.mem_cons_self) _ fun _ =>
            length_lt_of_mem_arrayElements)
        have hwhole : (joinPair [124, 58] (piece :: pieces)).length =
            piece.length + (pieces.map fun p => 2 + p.length).sum :=
              length_joinPair_append [124, 58] (List.cons_ne_nil piece []) pieces
        rw [List.foldl_cons]
        rcases hfirst with hnil | ⟨array, hne, hslots, hshorter⟩
        · rw [hnil]
          rcases ihpieces fun p hp =>
            hlengths p (List.mem_cons_of_mem _ hp) with hnone | ⟨array, hne, hslots, hshorter⟩
          · exact .inl hnone
          · have hpieces : pieces ≠ [] := by
              rintro rfl
              exact nomatch hslots
            have hle := Unpacked.length_le hshorter
            have hsum : (joinPair [124, 58] pieces).length + 2 =
                (pieces.map fun p => 2 + p.length).sum :=
              length_joinPair [124, 58] hpieces
            exact .inr ⟨array, hne, hslots, .inr (by omega)⟩
        · rw [hslots, foldl_pushed_cons hne]
          have hlength : (joinPair [124, 58] (array ++ pieces)).length =
              (joinPair [124, 58] array).length + (pieces.map fun p => 2 + p.length).sum :=
            length_joinPair_append [124, 58] hne pieces
          exact .inr ⟨array ++ pieces, by simp [hne], rfl, .inr (by omega)⟩

theorem unpacked_arrayElements (k : Str) :
    Unpacked (arrayElements k) ((arrayElements k).foldl pushed []) :=
  unpacked_foldl k.length _ fun _ => length_lt_of_mem_arrayElements

theorem added_plain {k : Str} (hk : PlainKey k) (slots : List Slot) :
    added slots k = slots ++ [(k, [])] := by
  rw [added, if_neg hk.1, if_neg hk.2]

theorem added_flat {k : Str} (hk : FlatKey k) : added [] k = [(k, arrayElements k)] := by
  obtain ⟨hbegins, hlength, hhead⟩ := hk
  rw [added, if_neg (by rintro rfl; exact absurd hbegins (by decide)), if_pos hbegins]
  have hwhole := joinPair_arrayElements hbegins
    (by rintro hnil; rw [hnil] at hlength; exact absurd hlength (by decide))
  generalize arrayElements k = elements at *
  cases elements with
  | nil => exact absurd hlength (by decide)
  | cons e elements =>
    have hhead : PlainKey e := hhead
    rw [foldl_pushed_plain hhead, flatten,
      if_pos (show 1 < (e :: elements).length from hlength), ← hwhole]

/-- A key that leaves a value of its length on the empty list. -/
theorem flat_of_added {k value : Str} {array : List Str} (hadded : added [] k = [(value, array)])
    (hlength : value.length = k.length) : PlainKey k ∨ FlatKey k := by
  by_cases hplain : PlainKey k
  · exact .inl hplain
  · refine .inr ?_
    rw [added] at hadded
    split at hadded
    · cases hadded
    · rename_i hempty
      have hbegins : arrayPrefix <+: k := not_not.mp fun hnot => hplain ⟨hempty, hnot⟩
      rw [if_pos hbegins] at hadded
      have hne : arrayElements k ≠ [] := by
        intro hnil
        rw [hnil] at hadded
        cases hadded
      have hwhole := congrArg List.length (joinPair_arrayElements hbegins hne)
      rw [List.length_append, show arrayPrefix.length = 7 from rfl] at hwhole
      have hunpacked := unpacked_arrayElements k
      rw [hadded] at hunpacked
      rcases hunpacked with hnil | ⟨array', -, hslots, hshorter⟩
      · cases hnil
      · cases hslots
        -- the value has to make up for the seven bytes in front
        have hmany : 1 < array.length ∧
            (joinPair [124, 58] array).length = (joinPair [124, 58] (arrayElements k)).length := by
          have hle := Unpacked.length_le hshorter
          rw [flatten, List.length_append] at hlength
          split at hlength
          · rename_i hmany
            rw [show arrayPrefix.length = 7 from rfl] at hlength
            exact ⟨hmany, by omega⟩
          · rw [List.length_nil] at hlength
            omega
        rcases hshorter with ⟨hhead, rfl⟩ | hlt
        · exact ⟨hbegins, hmany.1, hhead⟩
        · omega

/-! ## Counting -/

theorem length_foldl_pushed (slot : Slot) (slots : List Slot) (pieces : List Str) :
    (pieces.foldl pushed (slot :: slots)).length = slots.length + 1 := by
  induction pieces generalizing slot with
  | nil => rfl
  | cons piece pieces ih =>
    rw [List.foldl_cons, pushed]
    exact ih _

theorem length_added_le (slots : List Slot) (k : Str) : (added slots k).length ≤ slots.length + 1 := by
  unfold added
  split
  · exact Nat.zero_le _
  · split
    · cases slots with
      | cons slot slots =>
        rw [length_foldl_pushed]
        exact Nat.le_succ _
      | nil =>
        rcases unpacked_arrayElements k with hnil | ⟨array, -, hslots, -⟩
        · rw [hnil]
          exact Nat.zero_le _
        · rw [hslots]
          exact Nat.le_refl _
    · rw [List.length_append]
      exact Nat.le_refl _

theorem plain_of_length_added {slots : List Slot} (hne : slots ≠ []) {k : Str}
    (hlength : slots.length < (added slots k).length) : PlainKey k := by
  unfold added at hlength
  split at hlength
  · exact absurd hlength (Nat.not_lt_zero _)
  · rename_i hempty
    split at hlength
    · cases slots with
      | nil => exact absurd rfl hne
      | cons slot slots =>
        rw [length_foldl_pushed] at hlength
        exact absurd hlength (Nat.lt_irrefl _)
    · rename_i harray
      exact ⟨hempty, harray⟩

theorem length_foldl_added_le (ks : List Str) (slots : List Slot) :
    (ks.foldl added slots).length ≤ slots.length + ks.length := by
  induction ks generalizing slots with
  | nil => exact Nat.le_refl _
  | cons k ks ih =>
    have hstep := length_added_le slots k
    have hrest := ih (added slots k)
    rw [List.foldl_cons, List.length_cons]
    omega

/-- Behind a first value every key has to make one of its own. -/
theorem plain_of_length_foldl {ks : List Str} {slots : List Slot} (hne : slots ≠ [])
    (hlength : slots.length + ks.length ≤ (ks.foldl added slots).length) : ∀ k ∈ ks, PlainKey k := by
  induction ks generalizing slots with
  | nil => exact nofun
  | cons k ks ih =>
    have hrest := length_foldl_added_le ks (added slots k)
    have hstep := length_added_le slots k
    rw [List.foldl_cons, List.length_cons] at hlength
    have hk : PlainKey k := plain_of_length_added hne (by omega)
    have hmore : added slots k ≠ [] := by
      rw [added_plain hk]
      simp
    exact List.forall_mem_cons.mpr ⟨hk, ih hmore (by omega)⟩

theorem foldl_added_plain {ks : List Str} (hks : ∀ k ∈ ks, PlainKey k) (slots : List Slot) :
    ks.foldl added slots = slots ++ ks.map (·, []) := by
  induction ks generalizing slots with
  | nil => rw [List.foldl_nil, List.map_nil, List.append_nil]
  | cons k ks ih =>
    rw [List.foldl_cons, added_plain (hks k List.mem_cons_self),
      ih fun l hl => hks l (List.mem_cons_of_mem _ hl),
      List.append_assoc]
    rfl

/-- Keys that differ need as many values to be equal to. -/
theorem length_le_of_covered {K : KeyType Str} {ks values : List Str}
    (hdistinct : ks.Pairwise fun k l => K.eqf k l = false)
    (hcovered : ∀ k ∈ ks, ∃ value ∈ values, K.eqf value k = true) : ks.length ≤ values.length := by
  induction ks generalizing values with
  | nil => exact Nat.zero_le _
  | cons k ks ih =>
    obtain ⟨hk, hks⟩ := List.pairwise_cons.mp hdistinct
    obtain ⟨value, hvalue, heq⟩ := hcovered k List.mem_cons_self
    have hrest : ∀ l ∈ ks, ∃ value' ∈ values.erase value, K.eqf value' l = true := by
      intro l hl
      obtain ⟨value', hvalue', heq'⟩ := hcovered l (List.mem_cons_of_mem _ hl)
      refine ⟨value', (List.mem_erase_of_ne ?_).mpr hvalue', heq'⟩
      rintro rfl
      have hne := hk l hl
      rw [← K.eqf_congr heq, heq'] at hne
      cases hne
    have hlength := ih hks hrest
    rw [List.length_erase_of_mem hvalue] at hlength
    have hpos := List.length_pos_of_mem hvalue
    rw [List.length_cons]
    omega

/-! ## The entries deleted -/

/-- The keys picked, in the order of the walk. -/
def pickedKeys (callback : Option (Str → υ → Bool)) (h : SwitchHash υ) : List Str :=
  ((contents h).filter (picks callback)).map Entry.k

/-- The keys that the event gives back as they are: plain ones, of which the first may also be a flat
one. -/
def Collectable : List Str → Prop
  | [] => True
  | k :: ks => (PlainKey k ∨ FlatKey k) ∧ ∀ l ∈ ks, PlainKey l

instance (ks : List Str) : Decidable (Collectable ks) :=
  match ks with
  | [] => inferInstanceAs (Decidable True)
  | _ :: _ => inferInstanceAs (Decidable (_ ∧ _))

theorem values_of_collectable {ks : List Str} (h : Collectable ks) :
    (ks.foldl added []).map Prod.fst = ks := by
  cases ks with
  | nil => rfl
  | cons k ks =>
    obtain ⟨hk, hks⟩ := h
    have hfirst : ∃ array, added [] k = [(k, array)] := by
      rcases hk with hplain | hflat
      · exact ⟨[], added_plain hplain []⟩
      · exact ⟨_, added_flat hflat⟩
    obtain ⟨array, hfirst⟩ := hfirst
    rw [List.foldl_cons, hfirst, foldl_added_plain hks, List.map_append, List.map_map]
    exact congrArg (k :: ·) (List.map_id ks)

theorem collectable_of_covered {caseSensitive : Bool} {ks : List Str}
    (hdistinct : ks.Pairwise fun k l => (keysOf caseSensitive).eqf k l = false)
    (hcovered : ∀ k ∈ ks, ∃ value ∈ (ks.foldl added []).map Prod.fst,
      (keysOf caseSensitive).eqf value k = true) :
    Collectable ks := by
  have hlength := length_le_of_covered hdistinct hcovered
  rw [List.length_map] at hlength
  cases ks with
  | nil => trivial
  | cons k ks =>
    rw [List.foldl_cons] at hlength hcovered
    rw [List.length_cons] at hlength
    have hfirst := length_added_le [] k
    have hrest := length_foldl_added_le ks (added [] k)
    cases hadded : added [] k with
    | nil =>
      rw [hadded] at hlength hrest
      rw [List.length_nil] at hrest
      omega
    | cons slot slots =>
      obtain ⟨value, array⟩ := slot
      rw [hadded, List.length_cons, List.length_nil, Nat.add_le_add_iff_right, Nat.le_zero,
        List.length_eq_zero_iff] at hfirst
      subst hfirst
      rw [hadded] at hlength hcovered
      have hfull : [(value, array)].length + ks.length ≤ (ks.foldl added [(value, array)]).length := by
        rw [List.length_singleton, Nat.add_comm]
        exact hlength
      have hks := plain_of_length_foldl (List.cons_ne_nil _ _) hfull
      refine ⟨?_, hks⟩
      rw [foldl_added_plain hks, List.map_append, List.map_map] at hcovered
      obtain ⟨value', hvalue', heq⟩ := hcovered k List.mem_cons_self
      -- the other values are other keys
      have hvalue : value' = value := by
        rcases List.mem_append.mp hvalue' with hvalue' | hvalue'
        · exact List.mem_singleton.mp hvalue'
        · have hmem : value' ∈ ks := by simpa using hvalue'
          have hne := (List.pairwise_cons.mp hdistinct).1 value' hmem
          rw [(keysOf caseSensitive).eqf_comm, heq] at hne
          cases hne
      exact flat_of_added hadded (hvalue ▸ length_eq_of_eqf heq)

theorem shelf_collect (callback : Option (Str → υ → Bool)) (h : SwitchHash υ) :
    Shelf (collect callback h) ((pickedKeys callback h).foldl added []) := by
  rw [pickedKeys, List.foldl_map, List.foldl_filter]
  -- one entry of the walk
  refine List.foldl_rel shelf_blankEvent fun e _ ev slots hshelf => ?_
  split
  · exact hshelf.add e.k
  · exact hshelf

theorem deleteMultiCase_eq (caseSensitive : Bool) (callback : Option (Str → υ → Bool))
    (h : SwitchHash υ) :
    switchCoreHashDeleteMultiCase caseSensitive callback h =
      some ((((pickedKeys callback h).foldl added []).map Prod.fst).foldl
        (fun h key => (switchHashtableRemove (keysOf caseSensitive) h key).1) h) := by
  rw [switchCoreHashDeleteMultiCase, (shelf_collect callback h).values]
  rfl

section

variable {K : KeyType Str} {h : SwitchHash υ}

theorem foldl_remove (hw : Wf K h) (keys : List Str) :
    let h' := keys.foldl (fun h key => (switchHashtableRemove K h key).1) h
    Wf K h' ∧ contents h' = (contents h).filter (fun e => !keys.any fun key => K.eqf key e.k)
      ∧ (h.entrycount = UInt32.ofNat (contents h).length →
        h'.entrycount = UInt32.ofNat (contents h').length) := by
  induction keys generalizing h with
  | nil => exact ⟨hw, (List.filter_eq_self.mpr fun _ _ => rfl).symm, id⟩
  | cons key keys ih =>
    obtain ⟨hw₁, hcontents₁, hcount₁⟩ := removeAt_spec hw key
    obtain ⟨hw', hcontents', hcount'⟩ := ih hw₁
    refine ⟨hw', ?_, fun hcount => hcount' (hcount₁ hcount)⟩
    rw [List.foldl_cons]
    refine hcontents'.trans ?_
    rw [hcontents₁, List.filter_filter]
    refine List.filter_congr fun e _ => ?_
    rw [List.any_cons, Bool.not_or, Bool.and_comm]

/-- The entries of `h` that were not picked, and no others, in a table that is in order. -/
structure Leaves (K : KeyType Str) (callback : Option (Str → υ → Bool))
    (h h' : SwitchHash υ) : Prop where
  wf : Wf K h'
  counted : h'.entrycount = UInt32.ofNat (contents h').length
  contents : contents h' = (contents h).filter fun e => !picks callback e

end

theorem deleteMultiCase_leaves_iff {caseSensitive : Bool} {h : SwitchHash υ}
    (hw : Wf (keysOf caseSensitive) h)
    (hcounted : h.entrycount = UInt32.ofNat (contents h).length) (callback : Option (Str → υ → Bool)) :
    (∃ h', switchCoreHashDeleteMultiCase caseSensitive callback h = some h' ∧
      Leaves (keysOf caseSensitive) callback h h')
      ↔ Collectable (pickedKeys callback h) := by
  obtain ⟨hw', hcontents, hcount⟩ :=
    foldl_remove hw (((pickedKeys callback h).foldl added []).map Prod.fst)
  have hdistinct : (pickedKeys callback h).Pairwise fun k l => (keysOf caseSensitive).eqf k l = false :=
    List.pairwise_map.mpr (hw.distinct.filter _)
  rw [deleteMultiCase_eq]
  constructor
  · intro ⟨h', heq, hleaves⟩
    rw [← Option.some.inj heq] at hleaves
    refine collectable_of_covered hdistinct fun k hk => ?_
    obtain ⟨e, he, rfl⟩ := List.mem_map.mp hk
    obtain ⟨hmem, hpicks⟩ := List.mem_filter.mp he
    -- an entry that was picked is not among those left
    have hgone : e ∉ (contents h).filter fun e => !picks callback e := by
      rw [List.mem_filter, hpicks]
      exact fun hleft => Bool.false_ne_true hleft.2
    rw [← hleaves.contents, hcontents, List.mem_filter, Bool.not_eq_true', Bool.eq_false_iff,
      not_and_not_right] at hgone
    exact List.any_eq_true.mp (hgone hmem)
  · intro hcollectable
    refine ⟨_, rfl, hw', hcount hcounted, ?_⟩
    rw [hcontents, values_of_collectable hcollectable]
    refine List.filter_congr fun e he => congrArg Bool.not ?_
    rw [Bool.eq_iff_iff, List.any_eq_true]
    constructor
    · intro ⟨key, hkey, heq⟩
      obtain ⟨e', he', rfl⟩ := List.mem_map.mp hkey
      obtain ⟨hmem', hpicks⟩ := List.mem_filter.mp he'
      rwa [hw.eq_of_eqf hmem' he heq] at hpicks
    · exact fun hpicks => ⟨e.k, List.mem_map_of_mem (List.mem_filter.mpr ⟨he, hpicks⟩),
        (keysOf caseSensitive).refl e.k⟩

/-- Over the tables that inserts and removals make: the entries that the callback picks are deleted and
the others stay, exactly if the event gives the keys back as they are. -/
theorem deleteMulti_exact_iff (caseSensitive : Bool) (callback : Option (Str → υ → Bool))
    (ops : List (Op Str υ)) :
    let h := ops.foldl (apply (keysOf caseSensitive)) switchCoreHashInit
    (∃ h', switchCoreHashDeleteMultiCase caseSensitive callback h = some h' ∧
      Leaves (keysOf caseSensitive) callback h h')
      ↔ Collectable (pickedKeys callback h) := by
  have hholds : Holds (keysOf caseSensitive) (switchCoreHashInit : SwitchHash υ) fun _ => none :=
    holds_create (rfl : switchCreateHashtable 16 = some switchCoreHashInit)
  have hh := hholds.foldl ops
  exact deleteMultiCase_leaves_iff hh.wf hh.counted callback

/-- The keys `a` and `ARRAY::b`. -/
def arrayKeyTable : SwitchHash Nat :=
  [Op.insert (bytes "a") 1 true false false, .insert (bytes "ARRAY::b") 2 true false false].foldl
    (apply (keysOf true))
    switchCoreHashInit

/-- Without a callback the table should be empty, and `ARRAY::b` is in it still. -/
theorem deleteMulti_leaves_array_key :
    (∃ h', switchCoreHashDeleteMultiCase true none arrayKeyTable = some h' ∧
        switchHashtableSearch (keysOf true) h' (bytes "ARRAY::b") = some 2) ∧
      ¬∃ h', switchCoreHashDeleteMultiCase true none arrayKeyTable = some h' ∧
      Leaves (keysOf true) none arrayKeyTable h' := by
  have hholds : Holds (keysOf true) arrayKeyTable _ :=
    Holds.foldl (holds_create (rfl : switchCreateHashtable 16 = some switchCoreHashInit)) _
  refine ⟨?_, ?_⟩
  · have hkeys : pickedKeys none arrayKeyTable = [bytes "ARRAY::b", bytes "a"] := by decide
    have hslots : [bytes "ARRAY::b", bytes "a"].foldl added [] =
        [(bytes "b", [bytes "b"]), (bytes "a", [])] := by
      show added (added [] (bytes "ARRAY::b")) (bytes "a") = _
      rw [added_plain (by decide), added, if_neg (by decide), if_pos (by decide)]
      show pushed [] (bytes "b") ++ _ = _
      rw [pushed_nil, if_neg (by decide), if_neg (by decide)]
      rfl
    refine ⟨_, deleteMultiCase_eq true none arrayKeyTable, ?_⟩
    rw [hkeys, hslots]
    decide +kernel
  · rw [deleteMultiCase_leaves_iff hholds.wf hholds.counted]
    decide

end FreeSwitch.HashTable
