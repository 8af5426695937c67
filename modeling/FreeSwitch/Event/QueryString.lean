import FreeSwitch.Event.Faithful
import FreeSwitch.Event.UrlDecode

/-!
# Query strings — `switch_http_parse_qs`, `src/switch_utils.c`

A query is cut at `&`, and each part is decoded before it is cut at `=`. The headers go into an event,
which for a request without one has `EF_UNIQ_HEADERS`.

* **`parsePair_cases`** — what a part of the query asks for.
* **`countP_flawed_le`** — no call leaves a header that no call can ask for.
* **`query_headers_iff`** — the queries that are read as they were written; **`query_name_cut`** — a
  name with an `=`.
-/

namespace FreeSwitch.Event

open CString

/-! ## The code -/

/-- One round of the loop, for the text up to the next `&`. -/
def parsePair (ev : SwitchEvent) (q : Str) : SwitchEvent :=
  let q := (switchUrlDecode (q.map fun c => if c = 43 then 32 else c)).takeWhile (· ≠ 0)
  match q.dropWhile (· ≠ 61) with
  | _ :: val => switchEventAddHeaderString ev stackBottom (q.takeWhile (· ≠ 61)) (some val)
  | [] => ev

def switchHttpParseQs (headers : SwitchEvent) (qs : Str) : SwitchEvent :=
  (qs.splitOn 38).foldl parsePair headers

/-! ## The format -/

/-- Letters, digits and `-._`. -/
def unreserved (c : UInt8) : Bool :=
  (65 ≤ c && c ≤ 90) || (97 ≤ c && c ≤ 122) || isDigit c || c == 45 || c == 46 || c == 95

def formByte (c : UInt8) : Str := if unreserved c then [c] else if c = 32 then [43] else percent c

def pairText (pair : Str × Str) : Str := pair.1.flatMap formByte ++ 61 :: pair.2.flatMap formByte

/-- `application/x-www-form-urlencoded`. -/
def formUrlencoded (pairs : List (Str × Str)) : Str := [38].intercalate (pairs.map pairText)

theorem formByte_cases (c : UInt8) :
    38 ∉ formByte c ∧ ((formByte c).map (fun c => if c = 43 then 32 else c) = percent c
      ∨ (formByte c).map (fun c => if c = 43 then 32 else c) = [c] ∧ c ≠ 37) := by
  have hall : ∀ n < 256, 38 ∉ formByte (UInt8.ofNat n)
      ∧ ((formByte (UInt8.ofNat n)).map (fun c => if c = 43 then 32 else c) = percent (UInt8.ofNat n)
        ∨ (formByte (UInt8.ofNat n)).map (fun c => if c = 43 then 32 else c) = [UInt8.ofNat n]
          ∧ UInt8.ofNat n ≠ 37) := by
    decide +kernel
  simpa using hall c.toNat c.toNat_lt

variable {pairs : List (Str × Str)}

/-- Between the ampersands are the pairs. -/
theorem splitOn_formUrlencoded (h : pairs ≠ []) :
    (formUrlencoded pairs).splitOn 38 = pairs.map pairText := by
  refine List.splitOn_intercalate 38 ?_ (by simpa using h)
  intro text hmem
  obtain ⟨pair, -, rfl⟩ := List.mem_map.mp hmem
  have hnone : ∀ s : Str, 38 ∉ s.flatMap formByte := by
    intro s hmem
    obtain ⟨c, -, hc⟩ := List.mem_flatMap.mp hmem
    exact (formByte_cases c).1 hc
  simp [pairText, hnone]

theorem decode_pairText (pair : Str × Str) :
    switchUrlDecode ((pairText pair).map fun c => if c = 43 then 32 else c)
      = pair.1 ++ 61 :: pair.2 := by
  have hunits := switchUrlDecode_units fun c => (formByte_cases c).2
  have hlast := hunits pair.2 []
  rw [List.append_nil, switchUrlDecode, List.append_nil] at hlast
  rw [pairText, List.map_append, List.map_flatMap, List.map_cons, List.map_flatMap, hunits]
  show pair.1 ++ switchUrlDecode (61 :: _) = _
  rw [switchUrlDecode_cons (by decide), hlast]

/-! ## What is asked for -/

/-- A pair whose name has no `=`, with C strings. -/
def Clean (pair : Str × Str) : Prop := 61 ∉ pair.1 ∧ 0 ∉ pair.1 ∧ 0 ∉ pair.2

theorem parsePair_of_clean (ev : SwitchEvent) {pair : Str × Str} (h : Clean pair) :
    parsePair ev (pairText pair) = switchEventAddHeaderString ev stackBottom pair.1 (some pair.2) := by
  obtain ⟨hequals, hname, hvalue⟩ := h
  have hstay : ∀ {b : UInt8} {s : Str}, b ∉ s → ∀ c ∈ s, decide (c ≠ b) = true := by
    intro b s hb c hc
    simp only [ne_eq, decide_eq_true_eq]
    rintro rfl
    exact hb hc
  have hnul : (0 : UInt8) ∉ pair.1 ++ 61 :: pair.2 := by simp [hname, hvalue]
  have hrest : (pair.1 ++ 61 :: pair.2).dropWhile (· ≠ 61) = 61 :: pair.2 := by
    rw [List.dropWhile_append_of_pos (hstay hequals)]
    rfl
  have hfront : (pair.1 ++ 61 :: pair.2).takeWhile (· ≠ 61) = pair.1 := by
    rw [List.takeWhile_append_of_pos (hstay hequals)]
    exact List.append_nil _
  rw [parsePair, decode_pairText, List.takeWhile_eq_self_iff.mpr (hstay hnul), hrest, hfront]

/-- In any case the name that is asked for is a part of the name. -/
theorem parsePair_cases (ev : SwitchEvent) (pair : Str × Str) :
    parsePair ev (pairText pair) = ev ∨ ∃ asked, Clean asked ∧ asked.1 ⊆ pair.1 ∧
      parsePair ev (pairText pair)
        = switchEventAddHeaderString ev stackBottom asked.1 (some asked.2) := by
  rw [parsePair, decode_pairText]
  have hpart : ((pair.1 ++ 61 :: pair.2).takeWhile (· ≠ 0)).takeWhile (· ≠ 61) ⊆ pair.1 := by
    rw [List.takeWhile_takeWhile, List.takeWhile_append]
    split
    · rw [List.takeWhile_cons_of_neg (by decide), List.append_nil]
      exact List.Subset.refl _
    · exact (List.takeWhile_sublist _).subset
  have hnul : (0 : UInt8) ∉ (pair.1 ++ 61 :: pair.2).takeWhile (· ≠ 0) := fun h => by
    simpa using List.mem_takeWhile_imp h
  generalize (pair.1 ++ 61 :: pair.2).takeWhile (· ≠ 0) = q at hpart hnul
  split
  · next equals val hval =>
    refine .inr ⟨(q.takeWhile (· ≠ 61), val), ⟨?_, ?_, ?_⟩, hpart, rfl⟩
    · exact fun h => by simpa using List.mem_takeWhile_imp h
    · exact fun h => hnul ((List.takeWhile_sublist _).subset h)
    · intro h
      exact hnul ((List.dropWhile_sublist (· ≠ 61)).subset (hval ▸ List.mem_cons_of_mem equals h))
  · exact .inl rfl

/-! ## What is left behind -/

/-- A plain header with an `=` in its name, or that is no C string. -/
def flawed (view : View) : Bool :=
  view.array.isEmpty && (view.name.contains 61 || view.name.contains 0 ||
    (view.value.getD []).contains 0)

theorem countP_flawed_del (ev : SwitchEvent) (name : Str) (val : Option Str) :
    (views (switchEventDelHeaderVal ev name val)).countP flawed ≤ (views ev).countP flawed := by
  rw [views, del_headers]
  exact (List.filter_sublist.map _).countP_le

theorem countP_flawed_update (ev : SwitchEvent) (addr : Nat) {f : Header → Header}
    (hf : ∀ hp, flawed (f hp).view = false) :
    (views (update ev addr f)).countP flawed ≤ (views ev).countP flawed := by
  rw [views, views, update, List.map_map, List.countP_map, List.countP_map]
  refine List.countP_mono_left fun hp _ h => ?_
  simp only [Function.comp_apply] at h
  split at h
  · rw [hf hp] at h
    cases h
  · exact h

theorem countP_flawed_link {ev : SwitchEvent} (h : Chained ev) {stack : Stack} {header : Header}
    (hheader : flawed header.view = false) :
    (views (link ev stack header)).countP flawed = (views ev).countP flawed := by
  have hview : flawed (hashed header).view = false := hheader
  rw [views, link_headers h]
  split <;> simp [views, hview]

theorem pushElement_not_flawed {stack : Stack} (hstack : stack.push = true) (hp : Header) (data : Str) :
    flawed (pushElement stack hp data).view = false := by
  simp [flawed, Header.view, pushElement, redraw, hstack]

/-- A call for a clean header leaves no more flawed ones than there were. The elements of an array are
pushed one by one, by calls of the same function. -/
theorem countP_flawed_add {name : Str} (hname : Plain name) (hequals : 61 ∉ name) (hnul : 0 ∉ name) :
    ∀ (n : Nat) (data : Str), data.length = n → ∀ (ev : SwitchEvent) (stack : Stack), Chained ev →
      stack.unshift = false → (stack.push = true ∨ 0 ∉ data) →
        (views (switchEventBaseAddHeader ev stack name data)).countP flawed
          ≤ (views ev).countP flawed := by
  intro n
  induction n using Nat.strong_induction_on with
  | _ n ih =>
    intro data hlen ev stack hchained hunshift hdata
    rw [baseAddHeader_plain ev stack hname data]
    obtain ⟨body, hbody⟩ := exists_body_set ev name data
    rw [hbody]
    have hchained' : Chained { ev with body } := ⟨hchained.last, hchained.nodup, hchained.fresh⟩
    refine Nat.le_trans ?_ (show (views { ev with body }).countP flawed ≤ _ from Nat.le_refl _)
    generalize ({ ev with body } : SwitchEvent) = ev at hchained'
    dsimp only
    split
    case h_1 header hfind =>
      have hpush : stack.push = true := by
        by_contra h
        simp [h, hunshift] at hfind
      exact countP_flawed_update ev _ fun hp => pushElement_not_flawed hpush hp data
    case h_2 =>
      split
      case isTrue => exact countP_flawed_del ev name none
      case isFalse =>
        have hdel : Chained (if ev.uniqHeaders then switchEventDelHeader ev name else ev)
            ∧ (views (if ev.uniqHeaders then switchEventDelHeader ev name else ev)).countP flawed
              ≤ (views ev).countP flawed := by
          split
          · exact ⟨del_chained hchained' name none, countP_flawed_del ev name none⟩
          · exact ⟨hchained', Nat.le_refl _⟩
        obtain ⟨hchained₂, hle⟩ := hdel
        refine Nat.le_trans ?_ hle
        generalize (if ev.uniqHeaders then switchEventDelHeader ev name else ev) = ev₂ at hchained₂
        split
        case isTrue =>
          -- the elements, with the list in shape after each of them
          refine (List.foldlRecOn (motive := fun ev => Chained ev
            ∧ (views ev).countP flawed ≤ (views ev₂).countP flawed) _ _
            ⟨hchained₂, Nat.le_refl _⟩ ?_).2
          intro ev hkept piece hpiece
          obtain ⟨hev, hle⟩ := hkept
          have hedits : Edits copyScope ev
              (switchEventAddHeaderString ev stackPush name (some piece)) :=
            add_edits hname ev rfl (some piece)
          refine ⟨hedits.preserves (fun _ _ => edit_chained) hev, Nat.le_trans ?_ hle⟩
          have hlt := length_lt_of_mem_arrayElements hpiece
          exact ih piece.length (hlen ▸ hlt) piece rfl ev stackPush hev rfl (.inl rfl)
        case isFalse =>
          refine (countP_flawed_link hchained₂ ?_).le
          split
          · next hpush =>
            exact pushElement_not_flawed (by simpa [hunshift] using hpush) _ data
          · next hpush =>
            have hclean : 0 ∉ data := hdata.resolve_left fun h => hpush (by simp [h])
            simp [flawed, Header.view, newHeader, hequals, hnul, hclean]

/-! ## The whole query -/

theorem parsePair_edits (ev : SwitchEvent) (q : Str) : Edits anyScope ev (parsePair ev q) := by
  rw [parsePair]
  split
  · exact addHeader_edits ev stackBottom _ _ trivial fun _ _ _ _ _ => trivial
  · exact Relation.ReflTransGen.refl

theorem countP_flawed_le (hplain : ∀ pair ∈ pairs, Plain pair.1) {ev : SwitchEvent}
    (h : Chained ev) :
    (views ((pairs.map pairText).foldl parsePair ev)).countP flawed ≤ (views ev).countP flawed := by
  induction pairs generalizing ev with
  | nil => exact Nat.le_refl _
  | cons pair pairs ih =>
    refine Nat.le_trans (ih (fun p hp => hplain p (List.mem_cons_of_mem pair hp))
      ((parsePair_edits ev _).preserves (fun _ _ => edit_chained) h)) ?_
    rcases parsePair_cases ev pair with hskip | ⟨asked, ⟨hequals, hname, hvalue⟩, hpart, hadd⟩
    · rw [hskip]
    · rw [hadd]
      exact countP_flawed_add (fun hmem => hplain pair List.mem_cons_self (hpart hmem)) hequals hname _
        asked.2 rfl ev
        stackBottom h rfl (.inr hvalue)

/-- A header as it is asked for. -/
def plainView (pair : Str × Str) : View := ⟨pair.1, some pair.2, []⟩

/-- The conditions on the pairs. -/
structure Readable (ev : SwitchEvent) (pairs : List (Str × Str)) : Prop where
  clean : ∀ pair ∈ pairs, Clean pair
  scalar : ∀ pair ∈ pairs, ¬arrayPrefix <+: pair.2
  uniq : ev.uniqHeaders = true → (names ev ++ pairs.map Prod.fst).Pairwise fun name name' =>
    ¬ciEq name name'

theorem views_of_readable (hpairs : ∀ pair ∈ pairs, pair.2 ≠ [] ∧ Plain pair.1)
    {ev : SwitchEvent} (h : Built ev) (hread : Readable ev pairs) :
    views ((pairs.map pairText).foldl parsePair ev) = views ev ++ pairs.map plainView := by
  induction pairs generalizing ev with
  | nil => exact (List.append_nil _).symm
  | cons pair pairs ih =>
    obtain ⟨hne, hplain⟩ := hpairs pair List.mem_cons_self
    have hbuilt : Built (parsePair ev (pairText pair)) :=
      (parsePair_edits ev _).preserves (fun _ _ => edit_built) h
    have hflags := (edits_sameRest (parsePair_edits ev (pairText pair))).flags
    have hfree : stackBottom.push = true ∨ ev.uniqHeaders = true → Unnamed (names ev) pair.1 := by
      rintro (hpush | huniq) other hmem
      · cases hpush
      · exact (List.pairwise_append.mp (hread.uniq huniq)).2.2 other hmem pair.1 List.mem_cons_self
    have hnew := add_new h.chained h.hashed hplain ⟨hne, hread.scalar pair List.mem_cons_self⟩
      (show stackBottom.top = false from rfl) rfl hfree
    rw [← parsePair_of_clean ev (hread.clean pair List.mem_cons_self)] at hnew
    have hviews : views (parsePair ev (pairText pair)) = views ev ++ [plainView pair] := by
      rw [views, hnew, List.map_append]
      rfl
    have hnames : names (parsePair ev (pairText pair)) = names ev ++ [pair.1] := by
      rw [names, hnew, List.map_append]
      rfl
    rw [List.map_cons, List.foldl_cons,
      ih (fun p hp => hpairs p (List.mem_cons_of_mem pair hp)) hbuilt ?_, hviews,
      List.append_assoc]
    · rfl
    · refine ⟨fun p hp => hread.clean p (List.mem_cons_of_mem pair hp),
        fun p hp => hread.scalar p (List.mem_cons_of_mem pair hp), fun huniq => ?_⟩
      rw [hnames, List.append_assoc]
      refine hread.uniq ?_
      rwa [SwitchEvent.uniqHeaders, ← hflags]

theorem readable_of_views (hpairs : ∀ pair ∈ pairs, Plain pair.1) {ev : SwitchEvent}
    (h : Built ev)
    (hviews : views ((pairs.map pairText).foldl parsePair ev) = views ev ++ pairs.map plainView) :
    Readable ev pairs := by
  have hedits : Edits anyScope ev ((pairs.map pairText).foldl parsePair ev) :=
    edits_foldl _ (fun q _ ev => parsePair_edits ev q) ev
  have hbuilt := hedits.preserves (fun _ _ => edit_built) h
  refine ⟨fun pair hmem => ?_, fun pair hmem => ?_, fun huniq => ?_⟩
  · have hle := countP_flawed_le hpairs h.chained
    rw [hviews, List.countP_append] at hle
    have hnone := List.countP_eq_zero.mp (Nat.eq_zero_of_le_zero (Nat.le_of_add_le_add_left hle))
    have hpair := hnone (plainView pair) (List.mem_map_of_mem hmem)
    simpa [flawed, plainView, Clean, and_assoc] using hpair
  · have hview : plainView pair ∈ views ((pairs.map pairText).foldl parsePair ev) := by
      rw [hviews]
      exact List.mem_append_right _ (List.mem_map_of_mem hmem)
    obtain ⟨hp, hhp, heq⟩ := List.mem_map.mp hview
    obtain ⟨data, hdata, hscalar⟩ := hbuilt.scalar hp hhp (congrArg View.array heq)
    have hvalue : hp.value = some pair.2 := congrArg View.value heq
    rw [hvalue] at hdata
    rw [Option.some.inj hdata]
    exact hscalar.2
  · have hnames := congrArg (List.map View.name) hviews
    rw [views, views, List.map_append, List.map_map, List.map_map, List.map_map] at hnames
    have hpairwise := (hbuilt.uniq (by rwa [SwitchEvent.uniqHeaders, (edits_sameRest hedits).flags])).1
    exact hnames ▸ hpairwise

/-- The headers of the query are those that it was made of, behind those that were there, exactly if no
name has an `=`, nothing has a NUL, no value starts like an array, and where names are unique, no name
is there twice. -/
theorem query_headers_iff (ev : SwitchEvent) (h : Built ev) (pairs : List (Str × Str))
    (hpairs : ∀ pair ∈ pairs, pair.1 ≠ [] ∧ pair.2 ≠ [] ∧ 91 ∉ pair.1) :
    views (switchHttpParseQs ev (formUrlencoded pairs)) = views ev ++ pairs.map plainView
      ↔ Readable ev pairs := by
  by_cases hnil : pairs = []
  · subst hnil
    refine iff_of_true (List.append_nil _).symm ⟨nofun, nofun, fun huniq => ?_⟩
    rw [List.map_nil, List.append_nil]
    exact (h.uniq huniq).1
  · rw [switchHttpParseQs, splitOn_formUrlencoded hnil]
    exact ⟨readable_of_views (fun pair hmem => (hpairs pair hmem).2.2) h,
      views_of_readable (fun pair hmem => (hpairs pair hmem).2) h⟩

/-- `a=%3D`: the value is a `=`. -/
theorem query_headers_iff_one :
    views (switchHttpParseQs blankEvent (formUrlencoded [([97], [61])])) = [⟨[97], some [61], []⟩] := by
  refine (query_headers_iff blankEvent (built_of_empty ⟨rfl, rfl⟩ fun _ => rfl) [([97], [61])] ?_).mpr
    ⟨?_, ?_, ?_⟩
  · decide
  · simp [Clean]
  · decide
  · simp [blankEvent, names]

/-- The name `a=b` and the value `c` become the name `a` and the value `b=c`. -/
theorem query_name_cut :
    views (switchHttpParseQs blankEvent (formUrlencoded [([97, 61, 98], [99])]))
      = [⟨[97], some [98, 61, 99], []⟩]
      ∧ views (switchHttpParseQs blankEvent (formUrlencoded [([97, 61, 98], [99])]))
        ≠ views blankEvent ++ [([97, 61, 98], [99])].map plainView := by
  have hadd : switchHttpParseQs blankEvent (formUrlencoded [([97, 61, 98], [99])])
      = switchEventAddHeaderString blankEvent stackBottom [97] (some [98, 61, 99]) := by
    rw [switchHttpParseQs, splitOn_formUrlencoded (by simp)]
    show parsePair blankEvent (pairText ([97, 61, 98], [99])) = _
    rw [parsePair, decode_pairText]
    rfl
  have hbuilt := @built_of_empty blankEvent ⟨rfl, rfl⟩ fun _ => rfl
  have hviews : views (switchHttpParseQs blankEvent (formUrlencoded [([97, 61, 98], [99])]))
      = [⟨[97], some [98, 61, 99], []⟩] := by
    rw [hadd, views,
      add_new hbuilt.chained hbuilt.hashed (by simp [Plain]) ⟨by decide, by decide⟩ rfl rfl
      fun h => absurd h (by decide)]
    rfl
  refine ⟨hviews, ?_⟩
  rw [hviews]
  decide

end FreeSwitch.Event
