import FreeSwitch.Utils
import FreeSwitch.Utils.Schedule

/-!
# Conditions on date and time — `switch_xml_std_datetime_check`

A condition of the dialplan may ask for a year, a weekday, a time of day and so on. The function looks
at one attribute after the other and keeps the outcome in `time_match`, which is -1 as long as no
attribute has been seen; once it is 0 nothing more is tested. The time itself comes exploded in two
zones: the local one, and the one that the caller names.

* **`switchTodCmp`**, **`todLoop_eq`** — lists of times of day, beside those of `Utils.Schedule`.
* **`Means`** — the well-formed values of an attribute, what each of them asks for, and how it is read.
* **`foldlM_check`** — what is left in `time_match` at the end.
* **`datetime_iff`** — when the function is right about given attributes at an instant; it is if those
  up to the first that does not hold are `fine`. **`winter_missed`** — `dst="false"`, which is not.
-/

namespace FreeSwitch.DateTime

open CString Schedule

/-! ## Times of day -/

/-- The texts before and behind the first `c`: `strchr`, and a null byte where it is found. -/
def cutAt (c : UInt8) (s : Str) : Option (Str × Str) :=
  (strchr c s).map fun t => (s.takeWhile (· ≠ c), t.tail)

/-- `(atol(h) * 60 * 60) + (atol(m) * 60) + atol(s)` in an `int`. -/
def secondsOf (h m s : Str) : Int := (strtol h * 60 * 60 + strtol m * 60 + strtol s).bmod (2 ^ 32)

/-- One item of the list. -/
def todItem (cur : Str) (val : Int) : Bool :=
  match cutAt 58 cur with
  | none => false
  | some (minh, minm) =>
    match cutAt 45 minm with
    | none => false
    | some (minm, maxh) =>
      match cutAt 58 maxh with
      | none => false
      | some (maxh, maxm) =>
        -- the seconds may be left out
        let minms := (cutAt 58 minm).getD (minm, bytes "00")
        let maxms := (cutAt 58 maxm).getD (maxm, bytes "00")
        decide (InRange (secondsOf minh minms.1 minms.2) (secondsOf maxh maxms.1 maxms.2) val)

def todLoop (val : Int) : Nat → Str → Option Bool
  | 0, _ => none
  | fuel + 1, cur =>
    if todItem (cur.takeWhile (· ≠ 44)) val then some true
    else
      match strchr 44 cur with
      | some p => todLoop val fuel p.tail
      | none => some false

def switchTodCmp (fuel : Nat) (exp : Str) (val : Int) : Option Bool := todLoop val fuel exp

/-- `h:m` or `h:m:s`. -/
structure Time where
  hour : Number
  minute : Number
  second : Option Number
  hour_le : hour.value ≤ 24
  minute_lt : minute.value < 60
  second_lt : ∀ s ∈ second, s.value < 60

namespace Time

/-- What stands behind the hour. -/
def tail (t : Time) : Str := t.minute.digits ++ (t.second.elim [] fun s => 58 :: s.digits)

def text (t : Time) : Str := t.hour.digits ++ 58 :: t.tail

def seconds (t : Time) : Int :=
  t.hour.value * 3600 + t.minute.value * 60 + (t.second.elim 0 Number.value : Nat)

end Time

theorem cutAt_append {c : UInt8} {a : Str} (ha : c ∉ a) (b : Str) :
    cutAt c (a ++ c :: b) = some (a, b) := by
  rw [cutAt, strchr_append ha, Option.map_some, takeWhile_append_stop]
  · rfl
  · intro x hx
    exact decide_eq_true fun h => ha (h ▸ hx)
  · intro x hx
    rw [← Option.some.inj hx]
    exact decide_eq_false (by simp)

theorem cutAt_none {c : UInt8} {s : Str} (h : c ∉ s) : cutAt c s = none := by
  rw [cutAt, strchr, if_neg h]
  rfl

theorem not_mem_digits (n : Number) {c : UInt8} (hc : isDigit c = false) : c ∉ n.digits := by
  intro hmem
  rw [n.all c hmem] at hc
  cases hc

theorem Time.not_mem_tail (t : Time) {c : UInt8} (hc : isDigit c = false) (hcolon : c ≠ 58) :
    c ∉ t.tail := by
  intro hmem
  rcases List.mem_append.mp hmem with hmem | hmem
  · exact not_mem_digits _ hc hmem
  · cases hsecond : t.second with
    | none =>
      rw [hsecond] at hmem
      cases hmem
    | some s =>
      rw [hsecond] at hmem
      rcases List.mem_cons.mp hmem with rfl | hmem
      · exact hcolon rfl
      · exact not_mem_digits s hc hmem

theorem Time.not_mem_text (t : Time) {c : UInt8} (hc : isDigit c = false) (hcolon : c ≠ 58) :
    c ∉ t.text := by
  intro hmem
  rcases List.mem_append.mp hmem with hmem | hmem
  · exact not_mem_digits _ hc hmem
  · rcases List.mem_cons.mp hmem with rfl | hmem
    · exact hcolon rfl
    · exact t.not_mem_tail hc hcolon hmem

theorem strtol_number {n : Number} (h : n.value < 60) : strtol n.digits = n.value := by
  rw [strtol_of_isDigit n.all]
  exact min_eq_left (by show (n.value : Int) ≤ _; omega)

/-- The two texts behind the hour are read as the minutes and seconds. -/
theorem Time.secondsOf_eq (t : Time) :
    secondsOf t.hour.digits ((cutAt 58 t.tail).getD (t.tail, bytes "00")).1
      ((cutAt 58 t.tail).getD (t.tail, bytes "00")).2 = t.seconds := by
  have hhour := t.hour_le
  have hminute := t.minute_lt
  have hstop : (58 : UInt8) ∉ t.minute.digits := not_mem_digits _ (by decide)
  unfold secondsOf seconds
  cases hsecond : t.second with
  | none =>
    have htail : t.tail = t.minute.digits := by rw [tail, hsecond, Option.elim_none, List.append_nil]
    rw [htail, cutAt_none hstop, Option.getD_none, strtol_number (by omega), strtol_number hminute,
      show strtol (bytes "00") = 0 by decide, Int.bmod_eq_of_le (by omega) (by omega), Option.elim_none]
    omega
  | some s =>
    have hs := t.second_lt s hsecond
    have htail : t.tail = t.minute.digits ++ 58 :: s.digits := by rw [tail, hsecond, Option.elim_some]
    rw [htail, cutAt_append hstop, Option.getD_some, strtol_number (by omega), strtol_number hminute,
      strtol_number hs,
      Int.bmod_eq_of_le (by omega) (by omega), Option.elim_some]
    omega

theorem todItem_eq (a b : Time) (val : Int) :
    todItem ((Item.range a b).text Time.text) val = decide (InRange a.seconds b.seconds val) := by
  have hminus : (45 : UInt8) ∉ a.tail := a.not_mem_tail (by decide) (by decide)
  have htext : (Item.range a b).text Time.text = a.hour.digits ++ 58 :: (a.tail ++ 45 :: b.text) := by
    simp [Item.text, Time.text]
  unfold todItem
  rw [htext, cutAt_append (not_mem_digits _ (by decide))]
  dsimp only
  rw [cutAt_append hminus]
  dsimp only
  rw [Time.text, cutAt_append (not_mem_digits _ (by decide))]
  dsimp only
  rw [a.secondsOf_eq, b.secondsOf_eq]

def Times (l : List (Time × Time)) : List (Item Time) := l.map fun r => .range r.1 r.2

theorem todLoop_eq {l : List (Time × Time)} (hne : l ≠ []) (val : Int) : ∀ fuel, l.length ≤ fuel →
    switchTodCmp fuel (listText Time.text (Times l)) val =
      some (decide (Denotes Time.seconds val (Times l))) := by
  intro fuel hfuel
  refine @loop_eq Time Time.text Time.seconds (todLoop val) val (Times l) 1 ?_
    (by simpa [Times] using hne) fuel
    (by rw [Times, List.length_map]; omega)
  intro item hitem fuel tail htail
  obtain ⟨⟨a, b⟩, _, rfl⟩ := List.mem_map.mp hitem
  refine ⟨fuel, le_rfl, ?_⟩
  have hcomma : (44 : UInt8) ∉ (Item.range a b).text Time.text := by
    intro hmem
    rcases List.mem_append.mp hmem with hmem | hmem
    · exact a.not_mem_text (by decide) (by decide) hmem
    · rcases List.mem_cons.mp hmem with heq | hmem
      · exact absurd heq (by decide)
      · exact b.not_mem_text (by decide) (by decide) hmem
  have htake : ((Item.range a b).text Time.text ++ tail).takeWhile (· ≠ 44) =
      (Item.range a b).text Time.text := by
    apply takeWhile_append_stop
    · intro x hx
      exact decide_eq_true fun h => hcomma (h ▸ hx)
    · intro x hx
      rcases htail with rfl | ⟨exp, rfl⟩
      · cases hx
      · rw [← Option.some.inj hx]
        rfl
  rw [todLoop, htake, todItem_eq]
  simp only [decide_eq_true_eq]
  rcases htail with rfl | ⟨exp, rfl⟩
  · rw [List.append_nil, strchr, if_neg hcomma]
    rfl
  · rw [strchr_append hcomma]
    rfl

/-! ## The function -/

/-- `switch_time_exp_t`, as far as it is read. -/
structure Tm where
  sec : Nat
  min : Nat
  hour : Nat
  mday : Nat
  mon : Nat
  year : Int
  wday : Nat
  yday : Nat
  isdst : Int
  gmtoff : Int
  one_le_mday : 1 ≤ mday
  mday_le : mday ≤ 31
  wday_lt : wday < 7

/-- The instant of a check: `tm2` is local time, `tm` the time with the offset or in the zone that the
caller gives. -/
structure Clock where
  offset : Option Int
  tm : Tm
  tm2 : Tm
  gmtoff_eq : ∀ hours, offset = some hours → tm.gmtoff = hours * 3600

/-- The attributes that are read: `date-time`, `minute-of-day`, `time-of-day`, `tz-offset` and those of
one word. -/
inductive Attr where
  | tzOffset | dst | dateTime | year | yday | mon | mday | week | mweek | wday | hour | minute
  | minuteOfDay | timeOfDay
  deriving DecidableEq

def eoffset (c : Clock) : Int :=
  let eoffset := c.offset.getD (-1000)
  if eoffset = -1000 then c.tm.gmtoff.tdiv 3600 else eoffset

def loffset (c : Clock) (tzoff : Str) : Int :=
  let loffset := if tzoff ≠ [] ∧ switchIsNumber tzoff then atoi tzoff else -1000
  if loffset = -1000 then eoffset c else loffset

/-- `ceil((tm_mday + firstdow) / 7.0)`, with C's remainder. -/
def weekOfMonth (tm : Tm) : Int :=
  let firstdow := (7 - ((tm.mday : Int) - (tm.wday + 1)).tmod 7).tmod 7
  (-(-(tm.mday + firstdow) / 7))

/-- The right side of `time_match = …` for an attribute; `fulldate` is `switch_fulldate_cmp` at the
instant. -/
def test (fuel : Nat) (fulldate : Str → Bool) (c : Clock) : Attr → Str → Option Bool
  | .tzOffset, tzoff => some (decide (loffset c tzoff = eoffset c))
  | .dst, isdst => some (decide (c.tm2.isdst > 0) && switchTrue (some isdst))
  | .dateTime, xdt => some (fulldate xdt)
  | .year, xyear => switchNumberCmp fuel xyear (c.tm.year + 1900)
  | .yday, xyday => switchNumberCmp fuel xyday (c.tm.yday + 1)
  | .mon, xmon => switchNumberCmp fuel xmon (c.tm.mon + 1)
  | .mday, xmday => switchNumberCmp fuel xmday c.tm.mday
  | .week, xweek => switchNumberCmp fuel xweek (c.tm.yday / 7 + 1)
  | .mweek, xmweek => switchNumberCmp fuel xmweek (weekOfMonth c.tm)
  | .wday, xwday => switchDowCmp fuel xwday (c.tm.wday + 1)
  | .hour, xhour => switchNumberCmp fuel xhour c.tm.hour
  | .minute, xminute => switchNumberCmp fuel xminute c.tm.min
  | .minuteOfDay, xminday => switchNumberCmp fuel xminday (c.tm.hour * 60 + (c.tm.min + 1))
  | .timeOfDay, xtod => switchTodCmp fuel xtod (c.tm.hour * 60 * 60 + c.tm.min * 60 + c.tm.sec)

/-- `if (time_match && …) time_match = …`. -/
def check (timeMatch : Int) (test : Option Bool) : Option Int :=
  if timeMatch ≠ 0 then test.map fun passed => if passed then 1 else 0 else some timeMatch

def order : List Attr :=
  [.tzOffset, .dst, .dateTime, .year, .yday, .mon, .mday, .week, .mweek, .wday, .hour, .minute,
    .minuteOfDay, .timeOfDay]

/-- The tests of the attributes that are present; an empty `dst` leaves `dst` at -1000. -/
def tests (fuel : Nat) (fulldate : Str → Bool) (c : Clock) (xcond : Attr → Option Str)
    (attrs : List Attr) : List (Option Bool) :=
  attrs.filterMap fun a => (xcond a).bind fun text =>
    if a = .dst ∧ text = [] then none else some (test fuel fulldate c a text)

/-- `switch_xml_std_datetime_check`; `none` when the fuel does not suffice. -/
def switchXmlStdDatetimeCheck (fuel : Nat) (fulldate : Str → Bool) (c : Clock)
    (xcond : Attr → Option Str) : Option Int :=
  (tests fuel fulldate c xcond order).foldlM check (-1)

/-! ## What the attributes ask for -/

/-- A number of hours, with or without a sign. -/
structure Hours where
  sign : Str
  number : Number
  signs : sign = [] ∨ sign = [43] ∨ sign = [45]

namespace Hours

def text (h : Hours) : Str := h.sign ++ h.number.digits

def value (h : Hours) : Int := if h.sign = [45] then -h.number.value else h.number.value

end Hours

/-- The offset of the time from UTC in whole hours. -/
def hoursOf (c : Clock) : Int := c.offset.getD (c.tm.gmtoff.tdiv 3600)

/-- The day of the week, from 0 for Sunday, of day `d` of the month. -/
def wdayOf (tm : Tm) (d : Nat) : Int := ((tm.wday : Int) + d - tm.mday) % 7

/-- The week of the month: a new one begins on every Sunday from the second day on. -/
def calendarWeek (tm : Tm) : Int :=
  ((List.range' 2 (tm.mday - 1)).countP fun d => decide (wdayOf tm d = 0)) + 1

/-- What the attributes that are lists of numbers are about. -/
def Tm.number (tm : Tm) : Attr → Option Int
  | .year => some (tm.year + 1900)
  | .yday => some (tm.yday + 1)
  | .mon => some (tm.mon + 1)
  | .mday => some tm.mday
  | .week => some (tm.yday / 7 + 1)
  | .mweek => some (calendarWeek tm)
  | .hour => some tm.hour
  | .minute => some tm.min
  | .minuteOfDay => some (tm.hour * 60 + tm.min + 1)
  | _ => none

/-- The value of an attribute is well-formed; whether it holds; whether its test passes; and a condition
under which these two are the same: a `tz-offset` is an `int` and not the sentinel of the source, `dst`
is not asked to be off while it is, and a list has no number above `INT_MAX` up to its first match. -/
inductive Means (c : Clock) : Attr → Str → Bool → Bool → Prop → Prop where
  | tzOffset (h : Hours) : Means c .tzOffset h.text (decide (hoursOf c = h.value))
      (decide (atoi h.text = -1000 ∨ hoursOf c = atoi h.text)) (-2 ^ 31 ≤ h.value ∧ h.value < 2 ^ 31 ∧
        h.value ≠ -1000)
  | dst (text : Str) (hne : text ≠ []) :
      Means c .dst text (decide (c.tm2.isdst > 0) == switchTrue (some text))
      (decide (c.tm2.isdst > 0) && switchTrue (some text)) (c.tm2.isdst > 0 ∨
        switchTrue (some text) = true)
  | number {a : Attr} {val : Int} (hval : c.tm.number a = some val) (l : List (Item Number))
      (hne : l ≠ []) :
      Means c a (listText Number.digits l) (decide (Denotes (fun n => (n.value : Int)) val l))
        (decide (Denotes Number.kept val l)) (∀ item ∈ upToMatch val l, ∀ n ∈ item.parts,
          n.value < 2 ^ 31)
  | wday (l : List (Item Day)) (hne : l ≠ []) :
      Means c .wday (listText Day.text l) (decide (Denotes Day.number (c.tm.wday + 1) l))
        (decide (Denotes Day.number (c.tm.wday + 1) l)) True
  | timeOfDay (l : List (Time × Time)) (hne : l ≠ []) :
      Means c .timeOfDay (listText Time.text (Times l))
        (decide (Denotes Time.seconds (c.tm.hour * 3600 + c.tm.min * 60 + c.tm.sec) (Times l)))
        (decide (Denotes Time.seconds (c.tm.hour * 3600 + c.tm.min * 60 + c.tm.sec) (Times l))) True

/-- 1 exactly when there are attributes and all hold, -1 when there are none, 0 otherwise. -/
def Verdict (xcond : Attr → Option Str) (holds : Attr → Bool) (r : Int) : Prop :=
  (r = -1 ↔ ∀ a, xcond a = none) ∧
    (r = 1 ↔ (∃ a, xcond a ≠ none) ∧ ∀ a, xcond a ≠ none → holds a = true) ∧ (r = -1 ∨ r = 0 ∨ r = 1)

/-! ## The accumulator -/

theorem mem_order (a : Attr) : a ∈ order := by cases a <;> decide

/-- One test after the other: a failed one is final. -/
theorem foldlM_check (results : List Bool) {m : Int} (hm : m ≠ 0) :
    (results.map some).foldlM check m =
      some (if false ∈ results then 0 else if results = [] then m else 1) := by
  -- behind a failed test the rest is not looked at
  have hzero : ∀ l : List (Option Bool), l.foldlM check 0 = some 0 := by
    intro l
    induction l with
    | nil => rfl
    | cons _ _ ih => exact ih
  induction results generalizing m with
  | nil => rfl
  | cons b results ih =>
    rw [List.map_cons, List.foldlM_cons, check, if_pos hm]
    cases b with
    | false => simpa using hzero (results.map some)
    | true =>
      show List.foldlM check 1 (results.map some) = _
      rw [ih one_ne_zero]
      simp

/-- Whether the attributes hold that are there, in the order of the tests. -/
def outcomes (xcond : Attr → Option Str) (holds : Attr → Bool) : List Bool :=
  order.filterMap fun a => (xcond a).map fun _ => holds a

theorem mem_outcomes {xcond : Attr → Option Str} {holds : Attr → Bool} {b : Bool} :
    b ∈ outcomes xcond holds ↔ ∃ a, xcond a ≠ none ∧ holds a = b := by
  rw [outcomes, List.mem_filterMap]
  constructor
  · rintro ⟨a, _, ha⟩
    obtain ⟨text, htext, rfl⟩ := Option.map_eq_some_iff.mp ha
    exact ⟨a, by rw [htext]; exact Option.some_ne_none text, rfl⟩
  · rintro ⟨a, hne, rfl⟩
    obtain ⟨text, htext⟩ := Option.ne_none_iff_exists'.mp hne
    exact ⟨a, mem_order a, by rw [htext]; rfl⟩

theorem outcomes_eq_nil {xcond : Attr → Option Str} {holds : Attr → Bool} :
    outcomes xcond holds = [] ↔ ∀ a, xcond a = none := by
  rw [List.eq_nil_iff_forall_not_mem]
  constructor
  · intro h a
    by_contra hne
    exact h _ (mem_outcomes.mpr ⟨a, hne, rfl⟩)
  · intro h b hb
    obtain ⟨a, hne, _⟩ := mem_outcomes.mp hb
    exact hne (h a)

theorem verdict_outcomes (xcond : Attr → Option Str) (holds : Attr → Bool) :
    Verdict xcond holds (if false ∈ outcomes xcond holds then 0
      else if outcomes xcond holds = [] then -1 else 1) := by
  have hall : (∀ a, xcond a ≠ none → holds a = true) ↔ false ∉ outcomes xcond holds := by
    constructor
    · intro h hmem
      obtain ⟨a, hne, hfalse⟩ := mem_outcomes.mp hmem
      rw [h a hne] at hfalse
      cases hfalse
    · intro h a hne
      by_contra hfalse
      exact h (mem_outcomes.mpr ⟨a, hne, by simpa using hfalse⟩)
  have hsome : (∃ a, xcond a ≠ none) ↔ outcomes xcond holds ≠ [] := by
    rw [Ne, outcomes_eq_nil, not_forall]
  unfold Verdict
  rw [hall, hsome, ← @outcomes_eq_nil xcond holds]
  by_cases hfalse : false ∈ outcomes xcond holds
  · simp [hfalse, List.ne_nil_of_mem hfalse]
  · by_cases hnil : outcomes xcond holds = [] <;> simp [hfalse, hnil]

/-! ## The tests -/

/-- The first of the month and the remainders give the same week as counting Sundays. -/
theorem weekOfMonth_eq (tm : Tm) : weekOfMonth tm = calendarWeek tm := by
  have hall : ∀ mday : Fin 32, ∀ wday : Fin 7, 1 ≤ mday.val →
      (-(-((mday.val : Int) + (7 - ((mday.val : Int) - (wday.val + 1)).tmod 7).tmod 7) / 7)) =
        ((List.range' 2 (mday.val - 1)).countP fun d : Nat =>
          decide (((wday.val : Int) + d - mday.val) % 7 = 0)) + 1 := by
    decide +kernel
  exact hall ⟨tm.mday, by have := tm.mday_le; omega⟩ ⟨tm.wday, tm.wday_lt⟩ tm.one_le_mday

theorem test_number {c : Clock} {a : Attr} {val : Int} (h : c.tm.number a = some val) (fuel : Nat)
    (fulldate : Str → Bool)
    (exp : Str) : test fuel fulldate c a exp = switchNumberCmp fuel exp val := by
  cases a with
  | tzOffset | dst | dateTime | wday | timeOfDay => cases h
  | year | yday | mon | mday | week | hour | minute =>
    rw [← Option.some.inj h]
    rfl
  | mweek =>
    rw [← Option.some.inj h, ← weekOfMonth_eq]
    rfl
  | minuteOfDay =>
    rw [← Option.some.inj h, Int.add_assoc]
    rfl

theorem eoffset_eq (c : Clock) : eoffset c = hoursOf c := by
  unfold eoffset hoursOf
  cases hoffset : c.offset with
  | none => rfl
  | some hours =>
    rw [Option.getD_some, Option.getD_some]
    dsimp only
    split
    · rw [c.gmtoff_eq hours hoffset, Int.mul_tdiv_cancel hours (by decide)]
    · rfl

namespace Hours

theorem ne_nil (h : Hours) : h.text ≠ [] := List.append_ne_nil_of_right_ne_nil h.sign h.number.ne

theorem isNumber (h : Hours) : switchIsNumber h.text = true := by
  have hall := switchIsNumber_of_isDigit h.number.all
  obtain ⟨sign, number, rfl | rfl | rfl⟩ := h
  · exact hall
  all_goals
    refine List.all_eq_true.mpr fun c hc => ?_
    rw [number.all c hc, Bool.or_true]

theorem strtol_text (h : Hours) (hlow : -2 ^ 31 ≤ h.value) (hhigh : h.value < 2 ^ 31) :
    strtol h.text = h.value := by
  obtain ⟨sign, number, rfl | rfl | rfl⟩ := h
  · rw [text, List.nil_append, strtol_of_isDigit number.all]
    exact min_eq_left (by simp [value] at hhigh; show (number.value : Int) ≤ _; omega)
  · exact min_eq_left (by simp [value] at hhigh; show (number.value : Int) ≤ _; omega)
  · exact max_eq_left (by simp [value] at hlow; show _ ≤ -(number.value : Int); omega)

end Hours

theorem loffset_eq (c : Clock) (h : Hours) :
    loffset c h.text = if atoi h.text = -1000 then hoursOf c else atoi h.text := by
  have hread : h.text ≠ [] ∧ switchIsNumber h.text = true := ⟨h.ne_nil, h.isNumber⟩
  unfold loffset
  rw [if_pos hread, eoffset_eq]

theorem atoi_hours {h : Hours} (hlow : -2 ^ 31 ≤ h.value) (hhigh : h.value < 2 ^ 31) :
    atoi h.text = h.value := by
  rw [atoi, h.strtol_text hlow hhigh, Int.bmod_eq_of_le (by omega) (by omega)]

section

variable {c : Clock} {a : Attr} {text : Str} {holds read : Bool} {fine : Prop}

theorem Means.tested (h : Means c a text holds read fine) : ¬ (a = .dst ∧ text = []) := by
  rintro ⟨rfl, htext⟩
  cases h with
  | dst _ hne => exact hne htext
  | number hval _ _ => cases hval

theorem Means.test_eq (h : Means c a text holds read fine) (fulldate : Str → Bool) :
    ∃ enough, ∀ fuel, enough ≤ fuel → test fuel fulldate c a text = some read := by
  cases h with
  | tzOffset h =>
    refine ⟨0, fun fuel _ => ?_⟩
    rw [test, loffset_eq, eoffset_eq]
    by_cases hsentinel : atoi h.text = -1000
    · simp [hsentinel]
    · simp [hsentinel, eq_comm]
  | dst text _ => exact ⟨0, fun fuel _ => rfl⟩
  | number hval l hne =>
    refine ⟨l.length, fun fuel hfuel => ?_⟩
    rw [test_number hval]
    exact numberLoop_eq hne (fun n => ⟨n.ne, n.all⟩) (fun _ _ n _ => n.atoi_digits) _ fuel hfuel
  | wday l hne =>
    refine ⟨l.length * 4 + 1, dowLoop_eq hne dowReadToken_day (fun d => ?_) _⟩
    have := d.value.isLt
    unfold Day.number
    omega
  | timeOfDay l hne =>
    refine ⟨l.length, fun fuel hfuel => ?_⟩
    rw [test, Int.mul_assoc]
    exact todLoop_eq hne _ fuel hfuel

theorem Means.read_eq (h : Means c a text holds read fine) (hfine : fine) : read = holds := by
  cases h with
  | tzOffset h =>
    obtain ⟨hlow, hhigh, hne⟩ := hfine
    rw [atoi_hours hlow hhigh]
    simp [hne]
  | dst text _ =>
    rcases hfine with hdst | htrue
    · simp [hdst]
    · simp [htrue]
  | number _ l _ => exact decide_eq_decide.mpr (denotes_kept hfine)
  | wday | timeOfDay => rfl

end

section

variable {c : Clock} {xcond : Attr → Option Str} {holds read : Attr → Bool} {fine : Attr → Prop}

theorem tests_eq (hmeans : ∀ a text, xcond a = some text → Means c a text (holds a) (read a) (fine a))
    (fulldate : Str → Bool) (attrs : List Attr) : ∃ enough, ∀ fuel, enough ≤ fuel →
      tests fuel fulldate c xcond attrs =
        (attrs.filterMap fun a => (xcond a).map fun _ => read a).map some := by
  induction attrs with
  | nil => exact ⟨0, fun _ _ => rfl⟩
  | cons a attrs ih =>
    obtain ⟨enough, ih⟩ := ih
    cases htext : xcond a with
    | none =>
      refine ⟨enough, fun fuel hfuel => ?_⟩
      rw [tests, List.filterMap_cons_none (by rw [htext]; rfl),
        List.filterMap_cons_none (by rw [htext]; rfl)]
      exact ih fuel hfuel
    | some text =>
      have hmean := hmeans a text htext
      obtain ⟨enough', htest⟩ := hmean.test_eq fulldate
      refine ⟨max enough enough', fun fuel hfuel => ?_⟩
      have hhead : ((some text).bind fun text => if a = .dst ∧ text = [] then
          none else some (test fuel fulldate c a text)) =
          some (some (read a)) := by
        rw [Option.bind_some, if_neg hmean.tested, htest fuel (le_of_max_le_right hfuel)]
      simp only [tests, List.filterMap_cons, htext, hhead, Option.map_some, List.map_cons]
      exact congrArg (some (read a) :: ·) (ih fuel (le_of_max_le_left hfuel))

/-- The outcome of the tests is the one asked for exactly if all of them pass when all attributes hold,
and only then. -/
theorem verdict_iff {r : Int} (hread : Verdict xcond read r) :
    Verdict xcond holds r ↔ ((∀ a, xcond a ≠ none → read a = true) ↔ ∀ a,
      xcond a ≠ none → holds a = true) := by
  obtain ⟨hnone, hone, hcases⟩ := hread
  constructor
  · rintro ⟨-, hone', -⟩
    by_cases hsome : ∃ a, xcond a ≠ none
    · rw [hone] at hone'
      simpa only [hsome, true_and] using hone'
    · have hany : ∀ b : Attr → Bool, ∀ a, xcond a ≠ none → b a = true :=
        fun b a ha => absurd ⟨a, ha⟩ hsome
      exact ⟨fun _ => hany holds, fun _ => hany read⟩
  · intro hsame
    exact ⟨hnone, by rw [hone, hsame], hcases⟩

/-- The first attribute that does not hold decides. -/
theorem all_read_iff
    (hread : ∀ a, xcond a ≠ none → (∀ b ∈ order.takeWhile (· ≠ a), xcond b ≠ none → holds b = true) →
      read a = holds a) :
    (∀ a, xcond a ≠ none → read a = true) ↔ ∀ a, xcond a ≠ none → holds a = true := by
  constructor
  · intro hall
    by_contra hfails
    -- the first one in the order of the tests
    have hfound : (order.find? fun a => decide (xcond a ≠ none) && !holds a).isSome := by
      push Not at hfails
      obtain ⟨a, hne, hfalse⟩ := hfails
      rw [List.find?_isSome]
      exact ⟨a, mem_order a, by simpa [hne] using hfalse⟩
    obtain ⟨a, ha⟩ := Option.isSome_iff_exists.mp hfound
    obtain ⟨hp, as, bs, horder, hbefore⟩ := List.find?_eq_some_iff_append.mp ha
    simp only [Bool.and_eq_true, decide_eq_true_eq, Bool.not_eq_true'] at hp
    have hstop : order.takeWhile (· ≠ a) = as := by
      have hne : ∀ b ∈ as, decide (b ≠ a) = true := by
        intro b hb
        refine decide_eq_true ?_
        rintro rfl
        simpa [hp] using hbefore b hb
      rw [horder, List.takeWhile_append_of_pos hne, List.takeWhile_cons_of_neg (by simp),
        List.append_nil]
    have hread := hread a hp.1 fun b hb hne => by simpa [hne] using hbefore b (hstop ▸ hb)
    rw [hall a hp.1, hp.2] at hread
    cases hread
  · intro hall a hne
    exact (hread a hne fun b _ hb => hall b hb).trans (hall a hne)

end

/-- **When the function is right** about attributes whose values are all well-formed. -/
theorem datetime_iff (fulldate : Str → Bool) (c : Clock) (xcond : Attr → Option Str)
    (holds read : Attr → Bool) (fine : Attr → Prop)
    (hmeans : ∀ a text, xcond a = some text → Means c a text (holds a) (read a) (fine a)) :
    ((∃ r enough, (∀ fuel, enough ≤ fuel → switchXmlStdDatetimeCheck fuel fulldate c xcond = some r) ∧
      Verdict xcond holds r)
        ↔ ((∀ a, xcond a ≠ none → read a = true) ↔ ∀ a, xcond a ≠ none → holds a = true))
      ∧
      ((∀ a, xcond a ≠ none → (∀ b ∈ order.takeWhile (· ≠ a), xcond b ≠ none → holds b = true) →
        fine a) →
        ((∀ a, xcond a ≠ none → read a = true) ↔ ∀ a, xcond a ≠ none → holds a = true)) := by
  constructor
  · obtain ⟨enough, htests⟩ := tests_eq hmeans fulldate order
    have hrun : ∀ fuel, enough ≤ fuel → switchXmlStdDatetimeCheck fuel fulldate c xcond = some
        (if false ∈ outcomes xcond read then 0 else if outcomes xcond read = [] then -1 else 1) := by
      intro fuel hfuel
      rw [switchXmlStdDatetimeCheck, htests fuel hfuel]
      exact foldlM_check _ (by decide)
    rw [← verdict_iff (verdict_outcomes xcond read)]
    constructor
    · rintro ⟨r, enough', hrun', hverdict⟩
      have hsame :=
        (hrun _ (le_max_left enough enough')).symm.trans (hrun' _ (le_max_right enough enough'))
      rwa [Option.some.inj hsame]
    · exact fun hverdict => ⟨_, enough, hrun, hverdict⟩
  · intro hfine
    refine all_read_iff fun a hne hbefore => ?_
    obtain ⟨text, htext⟩ := Option.ne_none_iff_exists'.mp hne
    exact (hmeans a text htext).read_eq (hfine a hne hbefore)

/-- A time on the first of January 1970 with the offset, in winter. -/
def clockAt (offset : Int) : Clock :=
  let tm : Tm := ⟨0, 0, 0, 1, 0, 70, 4, 0, 0, offset * 3600, by decide, by decide, by decide⟩
  ⟨some offset, tm, tm, fun _ h => by rw [← Option.some.inj h]⟩

/-- Five hours from UTC. -/
def fiveHours : Hours := ⟨[], ⟨bytes "5", by decide, List.all_eq_true.mp (by decide)⟩, .inl rfl⟩

/-- At another offset in winter, `tz-offset="5"` decides before `dst="false"` is looked at. -/
theorem datetime_two :
    ∃ r enough, (∀ fuel, enough ≤ fuel → switchXmlStdDatetimeCheck fuel (fun _ => false) (clockAt 0)
      (fun a => if a = .tzOffset then some (bytes "5") else if a = .dst then some (bytes "false")
        else none) = some r) ∧
    Verdict (fun a => if a = .tzOffset then some (bytes "5")
      else if a = .dst then some (bytes "false") else none)
      (fun a => decide (a ≠ .tzOffset)) r := by
  obtain ⟨hiff, hfine⟩ := datetime_iff (fun _ => false) (clockAt 0)
    (fun a => if a = .tzOffset then some (bytes "5")
      else if a = .dst then some (bytes "false") else none)
    (fun a => decide (a ≠ .tzOffset)) (fun _ => false)
    (fun a => if a = .tzOffset then -2 ^ 31 ≤ fiveHours.value ∧ fiveHours.value < 2 ^ 31 ∧
      fiveHours.value ≠ -1000
      else (clockAt 0).tm2.isdst > 0 ∨ switchTrue (some (bytes "false")) = true) (by
    intro a text htext
    cases a with
    | tzOffset =>
      cases htext
      exact .tzOffset fiveHours
    | dst =>
      cases htext
      exact .dst (bytes "false") (by decide)
    | _ => cases htext)
  refine hiff.mpr (hfine fun a hne hbefore => ?_)
  by_cases ha : a = .tzOffset
  · rw [if_pos ha]
    decide
  · have hfirst : Attr.tzOffset ∈ order.takeWhile (· ≠ a) := by
      rw [order, List.takeWhile_cons_of_pos (by simpa using Ne.symm ha)]
      exact List.mem_cons_self
    have := hbefore _ hfirst (by simp)
    simp at this

/-- A condition for standard time, at a time that is. -/
theorem winter_missed : (∃ fine, Means (clockAt 0) .dst (bytes "false") true false fine) ∧
    switchXmlStdDatetimeCheck 1 (fun _ => false) (clockAt 0)
      (fun a => if a = .dst then some (bytes "false") else none) = some 0 :=
  ⟨⟨_, .dst (bytes "false") (by decide)⟩, by decide +kernel⟩

end FreeSwitch.DateTime
