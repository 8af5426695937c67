import FreeSwitch.Event.Stored
import FreeSwitch.Msrp.FindDelim
import FreeSwitch.Msrp.Parse
import FreeSwitch.Msrp.PerformSend

/-!
# The value of a header — `msrp_parse_header` and `switch_msrp_msg_add_header` of `src/switch_msrp.c`

A value is cut out of its line and given to `switch_msrp_msg_add_header` as a format; what comes out
goes to the event, which has a meaning of its own for an empty value and for one that starts with
`ARRAY::`.

* **`addHeader_iff`** — the values that are kept as they are.
* **`turn_header`**, **`turn_start`** — the line of a header, and the start line.
* **`described`** — the description that a reply adds, read off the bytes of its line.
* **`header_value_iff`** — both as the peer sent them.
-/

namespace FreeSwitch.Msrp

open CString Event

/-! ## The event -/

/-- A value that neither `switch_vasprintf` nor the event changes. -/
def Verbatim (value : Str) : Prop :=
  37 ∉ value ∧ value ≠ [] ∧
  (arrayPrefix <+: value → ∃ x y rest, arrayElements value = x :: y :: rest ∧ PlainValue x)

variable {name : Str}

theorem plain_of_headerNames {i : Nat} (h : headerNames[i]? = some name) : Plain name := by
  have hall : ∀ name ∈ headerNames, Plain name := by
    unfold Plain
    decide
  exact hall name (List.mem_of_getElem? h)

theorem addHeader_ok (msg : Msg) {h : HeaderType × Str × List Str}
    (hformat : (printf h.2.1 h.2.2).isSome = true)
    (hname : h.1 ≠ .unknown) : ∃ msg', addHeader msg h = .ok msg' := by
  obtain ⟨data, hdata⟩ := Option.isSome_iff_exists.mp hformat
  obtain ⟨name, hname⟩ : ∃ name, headerNames[h.1.index]? = some name := by
    cases hh : h.1 <;> first | exact absurd hh hname | exact ⟨_, rfl⟩
  unfold addHeader
  rw [hdata, hname]
  exact ⟨_, rfl⟩

theorem addHeaders_ok {adds : List (HeaderType × Str × List Str)} (msg : Msg)
    (hformats : ∀ h ∈ adds, (printf h.2.1 h.2.2).isSome = true) (hnames : ∀ h ∈ adds, h.1 ≠ .unknown) :
    ∃ msg', addHeaders adds msg = .ok msg' := by
  induction adds generalizing msg with
  | nil => exact ⟨msg, rfl⟩
  | cons h adds ih =>
    obtain ⟨msg₁, hmsg₁⟩ :=
      addHeader_ok msg (hformats h List.mem_cons_self) (hnames h List.mem_cons_self)
    obtain ⟨msg₂, hmsg₂⟩ := ih msg₁ (fun g hg => hformats g (List.mem_cons_of_mem _ hg))
      (fun g hg => hnames g (List.mem_cons_of_mem _ hg))
    refine ⟨msg₂, ?_⟩
    show (addHeader msg h).bind (addHeaders adds) = _
    rw [hmsg₁]
    exact hmsg₂

variable {h : HeaderType}

theorem addHeader_stored (msg : Msg) {value data : Str} (hname : headerNames[h.index]? = some name)
    (hdata : printf value [] = some data) : ∃ msg', addHeader msg (h, value, []) = .ok msg' ∧
      getHeader msg' h = switchEventGetHeader
        (switchEventAddHeaderString msg.headers stackBottom name (some data)) name := by
  unfold addHeader
  simp only [hdata, hname]
  refine ⟨_, rfl, ?_⟩
  rw [getHeader, hname, Option.bind_some]
  cases h <;> rfl

theorem addHeader_iff {msg : Msg} (hinv : Inv msg.headers)
    (hname : headerNames[h.index]? = some name)
    (habsent : switchEventGetHeaderPtr msg.headers name = none) (value : Str) :
    (∃ msg', addHeader msg (h, value, []) = .ok msg' ∧ getHeader msg' h = some value) ↔
      Verbatim value := by
  have hfound := find_add_iff (plain_of_headerNames hname) hinv habsent
  have hstored : ∀ {data}, printf value [] = some data →
      ((∃ msg', addHeader msg (h, value, []) = .ok msg' ∧ getHeader msg' h = some value) ↔
        switchEventGetHeader (switchEventAddHeaderString msg.headers stackBottom name (some data)) name
          = some value) := by
    intro data hdata
    obtain ⟨msg', hmsg', hget'⟩ := addHeader_stored msg hname hdata
    rw [hmsg', ← hget']
    exact ⟨fun ⟨m, hm, hget⟩ => by rw [Except.ok.inj hm]; exact hget, fun hget => ⟨msg', rfl, hget⟩⟩
  by_cases hpercent : 37 ∈ value
  · refine iff_of_false ?_ fun hv => hv.1 hpercent
    cases hdata : printf value [] with
    | none =>
      rintro ⟨msg', hok, -⟩
      unfold addHeader at hok
      simp only [hdata] at hok
      exact absurd hok nofun
    | some data =>
      rw [hstored hdata]
      intro hget
      have hshort := (length_printf_nil hdata).2 hpercent
      exact absurd ((hfound data).2 value hget) (by omega)
  · rw [hstored (printf_text hpercent []), (hfound value).1]
    exact ⟨fun hv => ⟨hpercent, hv⟩, fun hv => hv.2⟩

/-! ## Memory -/

variable {mem : Str}

theorem drop_append_of_drop {p : Nat} {u v : Str} (h : mem.drop p = u ++ v) :
    mem.drop (p + u.length) = v := by
  rw [← List.drop_drop, h, List.drop_left]

theorem scanTo_eq {stop : UInt8 → Bool} {c : UInt8} {t : Str} (hc : stop c = true) (u : Str) :
    ∀ {p last : Nat},
    mem.drop p = u ++ c :: t → (∀ x ∈ u, stop x = false) → p + u.length < last →
    scanTo mem stop p last = p + u.length := by
  induction u with
  | nil =>
    intro p last h _ hlast
    rw [scanTo, show last - p = last - p - 1 + 1 by simp at hlast; omega, scan, peek_eq h, if_pos hc]
    rfl
  | cons x u ih =>
    intro p last h hu hlast
    rw [List.length_cons] at hlast ⊢
    have hnext := ih (drop_succ_eq h) (fun y hy => hu y (List.mem_cons_of_mem x hy))
      (by omega : p + 1 + u.length < last)
    rw [scanTo, show last - p = last - (p + 1) + 1 by omega, scan, peek_eq h,
      if_neg (by rw [hu x List.mem_cons_self]; simp)]
    rw [scanTo] at hnext
    omega

/-- A text that ends where `c` was. -/
theorem cstr_set {p : Nat} {u t : Str} {c : UInt8} (h : mem.drop p = u ++ c :: t)
    (hu : ∀ x ∈ u, x ≠ 0) :
    cstr (mem.set (p + u.length) 0) p = u := by
  rw [cstr, List.drop_set, if_neg (by omega), h, Nat.add_sub_cancel_left,
    List.set_append_right _ _ le_rfl, Nat.sub_self,
    List.set_cons_zero, takeWhile_append_stop]
  · intro x hx
    simpa using hu x hx
  · intro x hx
    obtain rfl := Option.some.inj hx
    rfl

/-! ## Lines -/

/-- The bytes of a value. -/
def Field (value : Str) : Prop := ∀ c ∈ value, c ≠ 0 ∧ c ≠ 10 ∧ c ≠ 13

/-- The line `Name: value`, up to `last`. -/
def HeaderAt (mem : Str) (p last : Nat) (name value : Str) : Prop :=
  ∃ rest, mem.drop p = name ++ 32 :: (value ++ 13 :: 10 :: rest) ∧
    p + name.length + value.length + 3 ≤ last

/-- `MSRP id` and a space, with something behind it. -/
def StartAt (mem : Str) (p last : Nat) (id : Str) : Prop :=
  ∃ rest, mem.drop p = bytes "MSRP " ++ (id ++ 32 :: rest) ∧ p + 5 + id.length < last

theorem startsCI_of_drop {p : Nat} {t rest : Str} (h : mem.drop p = t ++ rest) :
    startsCI mem p t = true := by
  rw [startsCI, h, lower, lower, List.map_append]
  exact decide_eq_true (List.prefix_append _ _)

/-- Two names that stand at one place. -/
theorem comparable_of_startsCI {p : Nat} {t rest : Str} (ht : startsCI mem p t = true)
    (h : mem.drop p = name ++ rest) :
    lower t <+: lower name ∨ lower name <+: lower t :=
  List.prefix_or_prefix_of_prefix (of_decide_eq_true ht) (of_decide_eq_true (startsCI_of_drop h))

theorem lineAt_header {p : Nat} {rest : Str} (hline : (name, h) ∈ headerLines)
    (hat : mem.drop p = name ++ rest) (d : Option Str) : lineAt mem p d = .header h name.length := by
  have hstart : ∀ x ∈ headerLines,
      ¬ (lower (bytes "MSRP ") <+: lower x.1 ∨ lower x.1 <+: lower (bytes "MSRP ")) := by decide
  have hapart : ∀ x ∈ headerLines, ∀ y ∈ headerLines, lower x.1 <+: lower y.1 ∨
      lower y.1 <+: lower x.1 → x = y := by decide
  unfold lineAt
  rw [if_neg fun h => hstart _ hline (comparable_of_startsCI h hat)]
  cases hfind : headerLines.find? fun x => startsCI mem p x.1 with
  | none => exact absurd (startsCI_of_drop hat) (by simpa using List.find?_eq_none.mp hfind _ hline)
  | some x =>
    have hstarts : startsCI mem p x.1 = true := by simpa using List.find?_some hfind
    rw [hapart x (List.mem_of_find?_eq_some hfind) _ hline (comparable_of_startsCI hstarts hat)]

theorem parseHeader_eq {p last : Nat} {value : Str} (hat : HeaderAt mem p last name value)
    (hvalue : Field value) :
    ∃ mem' p', parseHeader mem p name.length last = some (mem', p', value) := by
  obtain ⟨rest, hat, hlast⟩ := hat
  have hspace := drop_append_of_drop hat
  have hstart : skipSpace mem (p + name.length) = p + name.length + 1 := by
    rw [skipSpace, peek_eq hspace, if_pos rfl]
  have htext := drop_succ_eq hspace
  have hstop : scanTo mem (fun c => c == 10) (p + name.length + 1) last = p + name.length + 1 +
      value.length + 1 := by
    have hline : mem.drop (p + name.length + 1) = (value ++ [13]) ++ 10 :: rest := by
      rw [htext, List.append_assoc]; rfl
    have hlength : (value ++ [13]).length = value.length + 1 := List.length_append
    refine (@scanTo_eq mem (fun c => c == 10) 10 rest rfl (value ++ [13]) _ last hline ?_
      (by omega)).trans (by omega)
    intro x hx
    rcases List.mem_append.mp hx with hx | hx
    · simpa using (hvalue x hx).2.1
    · rw [List.mem_singleton.mp hx]
      rfl
  have hcr : peek mem (p + name.length + 1 + value.length) = 13 := peek_eq (drop_append_of_drop htext)
  have hcut : cutLine mem (p + name.length + 1 + value.length + 1) =
      (mem.set (p + name.length + 1 + value.length + 1) 0).set
        (p + name.length + 1 + value.length) 0 := by
    rw [cutLine, Nat.add_sub_cancel, if_pos hcr, List.set_comm _ _ (by omega)]
  have hcstr : cstr (cutLine mem (p + name.length + 1 + value.length + 1)) (p + name.length + 1) =
      value := by
    -- the value ends at the first of the two bytes that were cleared
    rw [hcut]
    apply cstr_set (c := 13) (t := 0 :: rest)
    · rw [List.drop_set, if_neg (by omega), htext, List.set_append_right _ _ (by omega),
        show p + name.length + 1 + value.length + 1 - (p + name.length + 1) - value.length = 1 by omega]
      rfl
    · exact fun x hx => (hvalue x hx).1
  refine ⟨cutLine mem (p + name.length + 1 + value.length + 1),
    p + name.length + 1 + value.length + 1 + 1, ?_⟩
  unfold parseHeader
  simp only [hstart, hstop,
    if_pos (show p + name.length + 1 < p + name.length + 1 + value.length + 1 by omega), hcstr]

theorem turn_header {p last : Nat} {value : Str} (hline : (name, h) ∈ headerLines)
    (hat : HeaderAt mem p last name value) (hvalue : Field value) (msg : Msg) :
    ∃ mem' p', turn last mem p msg =
      (addHeader msg (h, value, [])).map fun msg' => ⟨mem', p', msg', [(h, value, [])], true⟩ := by
  obtain ⟨mem', p', hparse⟩ := parseHeader_eq hat hvalue
  obtain ⟨rest, hdrop, -⟩ := hat
  refine ⟨mem', p', ?_⟩
  have hadds : addHeaders [(h, value, [])] msg = addHeader msg (h, value, []) := by
    rw [addHeaders, List.foldlM_cons]
    exact bind_pure _
  rw [turn, if_neg (by rw [lineAt_header hline hdrop]; exact fun h => absurd h.1 nofun), lineTurn,
    lineAt_header hline hdrop]
  simp only [headerLine, hparse, Turn.filed, hadds]
  cases addHeader msg (h, value, []) <;> rfl


/-! ## The start line -/

/-- A scan stops behind the bytes that do not stop it. -/
theorem scan_eq {stop : UInt8 → Bool} (hzero : stop 0 = true) (n : Nat) : ∀ p,
    scan mem stop p n = p + (((mem.drop p).take n).takeWhile fun c => !stop c).length := by
  induction n with
  | zero => exact fun p => rfl
  | succ n ih =>
    intro p
    cases hdrop : mem.drop p with
    | nil =>
      have hpeek : peek mem p = 0 := by
        rw [peek, List.getD_eq_getElem?_getD, List.getElem?_eq_none (List.drop_eq_nil_iff.mp hdrop)]
        rfl
      rw [scan, hpeek, if_pos hzero]
      rfl
    | cons c t =>
      rw [scan, peek_eq hdrop, List.take_succ_cons, List.takeWhile_cons]
      cases stop c
      · rw [if_neg (by decide), ih, drop_succ_eq hdrop]
        simp only [Bool.not_false, if_true, List.length_cons]
        omega
      · rfl

/-- A string ends before a byte that was cleared. -/
theorem cstr_set_subset {p q : Nat} (hpq : p ≤ q) :
    cstr (mem.set q 0) p ⊆ (mem.drop p).take (q - p) := by
  rw [cstr, List.drop_set, if_neg (by omega)]
  generalize mem.drop p = t, q - p = k
  induction t generalizing k with
  | nil => exact List.nil_subset _
  | cons c t ih =>
    cases k with
    | zero => exact List.nil_subset _
    | succ k =>
      rw [List.set_cons_succ, List.takeWhile_cons, List.take_succ_cons]
      split
      · exact List.cons_subset_cons c (ih k)
      · exact List.nil_subset _

theorem cstr_cutLine_subset {p q : Nat} (hpq : p < q) :
    cstr (cutLine mem q) p ⊆ (mem.drop p).take (q - p) := by
  unfold cutLine
  split
  · rw [List.set_comm _ _ (by omega)]
    intro c hc
    have hbefore := cstr_set_subset (by omega) hc
    rw [List.drop_set, if_neg (by omega), List.take_set_of_le (by omega)] at hbefore
    exact List.take_subset_take_left _ (by omega) hbefore
  · exact cstr_set_subset (by omega)

/-- The methods of a start line that is no reply. -/
def methods : List Str := [bytes "SEND", bytes "REPORT", bytes "AUTH"]

/-- The description of a reply: what stands behind its code, up to the end of the line. Of the text, the
first `room` bytes are in the buffer. -/
def described (room : Nat) (text : Str) : Str :=
  if methods.any fun method => decide (lower method <+: lower text) then []
  else
    let code := (text.take room).takeWhile fun c => !upTo 32 c
    if code = [] then [] else ((text.take room).drop (code.length + 1)).takeWhile fun c => !upTo 10 c

/-- A reply adds nothing but the description of its code. -/
theorem replyLine_adds (last p : Nat) (msg : Msg) (adds : List (HeaderType × Str × List Str))
    (hreply : ¬ (methods.any fun method => startsCI mem p method) = true) :
    ∃ extra, (replyLine last mem p msg adds).adds = adds ++ extra ∧
      (∀ a ∈ extra, a.1 = .codeDescription ∧ a.2.2 = [] ∧ a.2.1 ⊆ described (last - p) (mem.drop p)) ∧
      (replyLine last mem p msg adds).msg.headers = msg.headers := by
  have hdescribed : described (last - p) (mem.drop p) = _ := if_neg hreply
  have hstop : scanTo mem (upTo 32) p last = _ := scan_eq rfl _ p
  dsimp only at hdescribed
  generalize hcode : ((mem.drop p).take (last - p)).takeWhile (fun c => !upTo 32 c) = code at *
  -- the bytes behind the code are those that were there
  have hrest : ((mem.drop p).take (last - p)).drop (code.length + 1) =
      (mem.drop (p + code.length + 1)).take (last - (p + code.length + 1)) := by
    rw [List.drop_take, List.drop_drop, Nat.sub_sub, ← Nat.add_assoc]
  have hend : scanTo (mem.set (p + code.length) 0) (upTo 10) (p + code.length + 1) last = _ :=
    scan_eq rfl _ _
  rw [List.drop_set, if_pos (by omega), ← hrest] at hend
  unfold replyLine
  dsimp only
  rw [hstop]
  split
  case isFalse => exact ⟨[], (List.append_nil adds).symm, fun a ha => absurd ha List.not_mem_nil, rfl⟩
  next hne =>
  rw [hend]
  split
  case isFalse => exact ⟨[], (List.append_nil adds).symm, fun a ha => absurd ha List.not_mem_nil, rfl⟩
  next hmore =>
  refine ⟨_, rfl, List.forall_mem_singleton.mpr ⟨rfl, rfl, ?_⟩, rfl⟩
  rw [hdescribed, if_neg (by rintro rfl; simp at hne)]
  refine fun c hc => ?_
  have hbefore := cstr_cutLine_subset hmore hc
  have hprefix : (((mem.drop p).take (last - p)).drop (code.length + 1)).takeWhile
      (fun c => !upTo 10 c) <+:
      mem.drop (p + code.length + 1) := by
    rw [hrest]
    exact (List.takeWhile_prefix _).trans (List.take_prefix _ _)
  rw [List.drop_set, if_pos (by omega), Nat.add_sub_cancel_left,
    ← List.prefix_iff_eq_take.mp hprefix] at hbefore
  exact hbefore

/-- The line behind the transaction id adds nothing but the description of a code. -/
theorem methodLine_adds (last p : Nat) (msg : Msg) (adds : List (HeaderType × Str × List Str)) :
    ∃ extra, (methodLine last mem p msg adds).adds = adds ++ extra ∧
      (∀ a ∈ extra, a.1 = .codeDescription ∧ a.2.2 = [] ∧ a.2.1 ⊆ described (last - p) (mem.drop p)) ∧
      (methodLine last mem p msg adds).msg.headers = msg.headers := by
  unfold methodLine
  split_ifs
  case neg hsend hreport hauth =>
    refine replyLine_adds last p msg adds ?_
    simp [methods, hsend, hreport, hauth]
  all_goals exact ⟨[], (List.append_nil adds).symm, fun a ha => absurd ha List.not_mem_nil, rfl⟩

theorem addHeader_transactionId {msg msg' : Msg} {a : HeaderType × Str × List Str}
    (h : addHeader msg a = .ok msg') :
    msg'.transactionId = if a.1 = .trasactionId then getHeader msg' .trasactionId
      else msg.transactionId := by
  unfold addHeader at h
  split at h
  · exact absurd h nofun
  · exact absurd h nofun
  · next data name _ hname =>
    obtain rfl := Except.ok.inj h
    cases hkind : a.1 <;> rw [hkind] at hname <;> first | rfl | skip
    rw [if_pos rfl, getHeader, hname]
    rfl

theorem addHeaders_transactionId {adds : List (HeaderType × Str × List Str)}
    (hadds : ∀ a ∈ adds, a.1 ≠ .trasactionId) :
    ∀ {msg msg' : Msg}, addHeaders adds msg = .ok msg' → msg'.transactionId = msg.transactionId := by
  induction adds with
  | nil => exact fun h => congrArg Msg.transactionId (Except.ok.inj h).symm
  | cons a adds ih =>
    intro msg msg' h
    have hbind : (addHeader msg a).bind (addHeaders adds) = .ok msg' := h
    cases ha : addHeader msg a with
    | error e => rw [ha] at hbind; exact absurd hbind nofun
    | ok msg₁ =>
      rw [ha] at hbind
      rw [ih (fun b hb => hadds b (List.mem_cons_of_mem a hb)) hbind, addHeader_transactionId ha,
        if_neg (hadds a List.mem_cons_self)]

theorem turn_start {p last : Nat} {id : Str} (hat : StartAt mem p last id) (hid : Field id)
    (hspace : 32 ∉ id) (hne : id ≠ [])
    (msg : Msg) : ∃ extra, turn last mem p msg = (lineTurn last mem p msg).filed ∧
      (lineTurn last mem p msg).msg.headers = msg.headers ∧ (lineTurn last mem p msg).adds =
        (.trasactionId, id, []) :: (.delimiter, bytes "-------%s", [id]) :: extra ∧
      ∀ a ∈ extra, a.1 = .codeDescription ∧ a.2.2 = [] ∧
        a.2.1 ⊆ described (last - (p + 6 + id.length)) (mem.drop (p + 6 + id.length)) := by
  obtain ⟨rest, hat, hlast⟩ := hat
  have hline : lineAt mem p msg.delimiter = .start := by
    unfold lineAt
    rw [if_pos (startsCI_of_drop hat)]
  have htext : mem.drop (p + 5) = id ++ 32 :: rest := drop_append_of_drop hat
  have hstop : scanTo mem (upTo 32) (p + 5) last = p + 5 + id.length := by
    refine scanTo_eq rfl id htext (fun x hx => ?_) hlast
    have hzero := (hid x hx).1
    have hx : x ≠ 32 := fun h => hspace (h ▸ hx)
    simp [upTo, hzero, hx]
  have hpos := List.length_pos_iff.mpr hne
  have hturn : lineTurn last mem p msg =
      methodLine last (mem.set (p + 5 + id.length) 0) (p + 5 + id.length + 1)
      { msg with state := .parseHeader } [(.trasactionId, id, []),
        (.delimiter, bytes "-------%s", [id])] := by
    rw [lineTurn, hline]
    simp only [startLine, hstop, if_pos (show p + 5 < p + 5 + id.length by omega),
      cstr_set htext fun x hx => (hid x hx).1]
  obtain ⟨extra, hadds, hextra, hheaders⟩ :=
    @methodLine_adds (mem.set (p + 5 + id.length) 0) last (p + 5 + id.length + 1)
    { msg with state := .parseHeader } [(.trasactionId, id, []), (.delimiter, bytes "-------%s", [id])]
  rw [List.drop_set, if_pos (by omega),
    show p + 5 + id.length + 1 = p + 6 + id.length by omega] at hextra
  rw [hturn]
  refine ⟨extra, ?_, hheaders, hadds, hextra⟩
  rw [turn, if_neg (by rw [hline]; exact fun h => absurd h.1 (by decide)), hturn]

/-! ## Values -/

/-- The message has no such header. -/
def Absent (msg : Msg) (h : HeaderType) : Prop :=
  headerNames[h.index]?.bind (switchEventGetHeaderPtr msg.headers) = none

section

variable {p last : Nat} {value : Str} {msg : Msg}

theorem turn_header_iff (hinv : Inv msg.headers) (hline : (name, h) ∈ headerLines)
    (hat : HeaderAt mem p last name value) (hvalue : Field value) (habsent : Absent msg h) :
    (∃ t, turn last mem p msg = .ok t ∧ getHeader t.msg h = some value) ↔ Verbatim value := by
  have hnames : ∀ x ∈ headerLines, (headerNames[x.2.index]?).isSome = true := by decide
  obtain ⟨header, hheader⟩ := Option.isSome_iff_exists.mp (hnames _ hline)
  rw [Absent, hheader, Option.bind_some] at habsent
  obtain ⟨mem', p', hturn⟩ := turn_header hline hat hvalue msg
  rw [← addHeader_iff hinv hheader habsent value, hturn]
  cases addHeader msg (h, value, []) with
  | error e => exact ⟨fun ⟨_, h, _⟩ => absurd h nofun, fun ⟨_, h, _⟩ => absurd h nofun⟩
  | ok msg' =>
    refine ⟨fun ⟨t, ht, hget⟩ => ⟨msg', rfl, ?_⟩, fun ⟨m, hm, hget⟩ => ⟨_, rfl, ?_⟩⟩
    · rw [← Except.ok.inj ht] at hget
      exact hget
    · rw [← Except.ok.inj hm] at hget
      exact hget

theorem turn_start_iff (hinv : Inv msg.headers) (hat : StartAt mem p last value) (hvalue : Field value)
    (hspace : 32 ∉ value) (hne : value ≠ []) (habsent : Absent msg .trasactionId)
    (hdesc : 37 ∉ described (last - (p + 6 + value.length)) (mem.drop (p + 6 + value.length))) :
    (∃ t, turn last mem p msg = .ok t ∧ t.msg.transactionId = some value) ↔ Verbatim value := by
  obtain ⟨extra, hturn, hheaders, hadds, hextra⟩ := turn_start hat hvalue hspace hne msg
  rw [hturn]
  generalize lineTurn last mem p msg = t at *
  have hothers :
      ∀ a ∈ ((.delimiter, bytes "-------%s", [value]) :: extra : List (HeaderType × Str × List Str)),
      a.1 ≠ .trasactionId ∧ a.1 ≠ .unknown ∧ (printf a.2.1 a.2.2).isSome = true := by
    refine List.forall_mem_cons.mpr ⟨⟨nofun, nofun, rfl⟩, fun a ha => ?_⟩
    obtain ⟨hkind, hargs, htext⟩ := hextra a ha
    rw [hkind, hargs, printf_text fun hpercent => hdesc (htext hpercent)]
    exact ⟨nofun, nofun, rfl⟩
  have hiff := addHeader_iff (h := .trasactionId) (show Inv t.msg.headers from hheaders ▸ hinv) rfl
    (by rw [hheaders]; exact habsent) value
  rw [← hiff]
  unfold Turn.filed
  rw [hadds]
  -- the headers behind the transaction id are added, and leave it
  have hbind : ∀ msg,
      addHeaders ((.trasactionId, value, []) :: (.delimiter, bytes "-------%s", [value]) :: extra) msg =
      (addHeader msg (.trasactionId, value, [])).bind
        (addHeaders ((.delimiter, bytes "-------%s", [value]) :: extra)) := fun _ => rfl
  rw [hbind]
  cases hadd : addHeader t.msg (.trasactionId, value, []) with
  | error e => exact ⟨fun ⟨_, h, _⟩ => absurd h nofun, fun ⟨_, h, _⟩ => absurd h nofun⟩
  | ok msg₁ =>
    obtain ⟨msg₂, hmsg₂⟩ := addHeaders_ok msg₁ (fun a ha => (hothers a ha).2.2) fun a ha =>
      (hothers a ha).2.1
    have hkept := addHeaders_transactionId (fun a ha => (hothers a ha).1) hmsg₂
    rw [addHeader_transactionId hadd, if_pos rfl] at hkept
    simp only [Except.bind, hmsg₂]
    refine ⟨fun ⟨t', ht', hget⟩ => ⟨msg₁, rfl, ?_⟩, fun ⟨m, hm, hget⟩ => ⟨_, rfl, ?_⟩⟩
    · rw [← Except.ok.inj ht', hkept] at hget
      exact hget
    · rw [hkept, Except.ok.inj hm]
      exact hget

/-- A header that is there already stays the one that is found. -/
theorem turn_header_again (hinv : Inv msg.headers) (hline : (name, h) ∈ headerLines)
    (hat : HeaderAt mem p last name value) (hvalue : Field value)
    (huniq : msg.headers.uniqHeaders = false)
    (hpercent : 37 ∉ value) (hplain : PlainValue value) {hp : Header}
    (hthere : headerNames[h.index]?.bind (switchEventGetHeaderPtr msg.headers) = some hp) :
    ∃ t, turn last mem p msg = .ok t ∧ getHeader t.msg h = hp.value := by
  obtain ⟨header, hheader, hfind⟩ := Option.bind_eq_some_iff.mp hthere
  obtain ⟨mem', p', hturn⟩ := turn_header hline hat hvalue msg
  have hnew := add_new hinv.chained hinv.hashed (plain_of_headerNames hheader) hplain
    (show stackBottom.top = false from rfl) rfl
    fun h => absurd (huniq ▸ h) (by decide)
  obtain ⟨msg', hmsg', hget⟩ := addHeader_stored msg hheader (printf_text hpercent [])
  rw [hturn, hmsg']
  refine ⟨_, rfl, hget.trans ?_⟩
  show (List.find? _ _).bind Header.value = _
  rw [hnew, List.find?_append, show msg.headers.headers.find? _ = some hp from hfind, Option.some_or,
    Option.bind_some]

end

/-- On the first line of a header and on the start line, the value is kept as it was sent if it is
`Verbatim`; on a later line of the same header the earlier value stays. -/
theorem header_value_iff {p last : Nat} {value : Str} {msg : Msg} (hinv : Inv msg.headers)
    (hvalue : Field value) :
    (∀ name h, (name, h) ∈ headerLines → HeaderAt mem p last name value → Absent msg h →
      ((∃ t, turn last mem p msg = .ok t ∧ getHeader t.msg h = some value) ↔ Verbatim value)) ∧
    (StartAt mem p last value → 32 ∉ value → value ≠ [] → Absent msg .trasactionId →
      37 ∉ described (last - (p + 6 + value.length)) (mem.drop (p + 6 + value.length)) →
      ((∃ t, turn last mem p msg = .ok t ∧ t.msg.transactionId = some value) ↔ Verbatim value)) ∧
    ∀ name h, (name, h) ∈ headerLines → HeaderAt mem p last name value →
      msg.headers.uniqHeaders = false → 37 ∉ value →
      PlainValue value → ∀ hp,
      headerNames[h.index]?.bind (switchEventGetHeaderPtr msg.headers) = some hp →
        ∃ t, turn last mem p msg = .ok t ∧ getHeader t.msg h = hp.value := by
  refine ⟨?_, ?_, ?_⟩
  · exact fun name h hline hat habsent => turn_header_iff hinv hline hat hvalue habsent
  · exact fun hat hspace hne habsent hdesc => turn_start_iff hinv hat hvalue hspace hne habsent hdesc
  · exact fun name h hline hat huniq hpercent hplain hp hthere =>
      turn_header_again hinv hline hat hvalue huniq hpercent hplain hthere

theorem field_of_all {value : Str} (h : value.all (fun c => c != 0 && (c != 10 && c != 13)) = true) :
    Field value :=
  fun c hc => by simpa using List.all_eq_true.mp h c hc

theorem inv_blank : Inv (Msg.create blankEvent).headers := inv_of_empty ⟨rfl, rfl⟩

/-- `Status: 200 OK`, in a message without headers. -/
theorem header_value_status :
    ∃ t, turn 16 (bytes "Status: 200 OK\r\n") 0 (Msg.create blankEvent) = .ok t ∧
    getHeader t.msg .status = some (bytes "200 OK") := by
  have hfield : Field (bytes "200 OK") := field_of_all (by decide)
  refine ((header_value_iff inv_blank hfield).1 (bytes "Status:") .status
    (by decide) ⟨[], by decide, by decide⟩ rfl).mpr ?_
  exact ⟨by decide, by decide, fun h => absurd h (by decide)⟩

/-- `Message-ID: 50%s` is taken for a format. -/
theorem header_value_percent :
    HeaderAt (bytes "Message-ID: 50%s\r\n") 0 18 (bytes "Message-ID:") (bytes "50%s") ∧
    ¬ ∃ t, turn 18 (bytes "Message-ID: 50%s\r\n") 0 (Msg.create blankEvent) = .ok t ∧
      getHeader t.msg .messageId = some (bytes "50%s") := by
  have hat : HeaderAt (bytes "Message-ID: 50%s\r\n") 0 18 (bytes "Message-ID:") (bytes "50%s") :=
    ⟨[], by decide, by decide⟩
  refine ⟨hat, fun h => ?_⟩
  exact absurd
    ((turn_header_iff (h := .messageId) inv_blank
      (by decide) hat (field_of_all (by decide)) rfl).mp h).1 (by decide)

end FreeSwitch.Msrp
