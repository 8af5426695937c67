import FreeSwitch.Lib.JavaText
import FreeSwitch.Lib.Json

/-!
# The log as JSON — `java/ptt-monitor/…/QueryService.java`

`quote` replaces the backslash, the quotation mark, the line feed and the carriage return, one after the
other. All other characters go into the text as they are, and JSON allows none below U+0020 in a string.

* **`quote_eq`** — the four replacements are one.
* **`reads_quote`** — what a reader makes of a quoted string.
* **`decodes_queryLogsJson_iff`** — when the log comes back.
-/

namespace FreeSwitch.Ptt.QueryService

open JavaText

/-! ## Records -/

structure LocalDateTime where
  year : Int
  month : Nat
  day : Nat
  hour : Nat
  minute : Nat
  second : Nat

structure CallLogRecord where
  callId : Text
  deviceId : Text
  ip : Text
  site : Int
  channel : Int
  room : Text
  startTime : LocalDateTime
  endTime : LocalDateTime
  durationSeconds : Int
  status : Text
  recordFile : Text
  fileSizeBytes : Int

/-! ## The text -/

/-- A number with at least `width` digits. -/
def padded (width n : Nat) : Text :=
  List.replicate (width - (Nat.toDigits 10 n).length) '0' ++ Nat.toDigits 10 n

/-- `TS_FMT.format`, `yyyy-MM-dd HH:mm:ss`: the year is counted in its era, and has a sign if it needs
more than four digits. -/
def format (t : LocalDateTime) : Text :=
  let yearOfEra := (if 0 < t.year then t.year else 1 - t.year).toNat
  (if 9999 < yearOfEra then text "+" else []) ++ padded 4 yearOfEra ++ text "-" ++
    padded 2 t.month ++ text "-" ++
    padded 2 t.day ++ text " " ++ padded 2 t.hour ++ text ":" ++ padded 2 t.minute ++ text ":" ++
      padded 2 t.second

/-- `String.replace` of one character. -/
def replace (target : Char) (replacement s : Text) : Text :=
  s.flatMap fun c => if c = target then replacement else [c]

def quote (s : Text) : Text :=
  let escaped := replace '\r' ['\\',
    'r'] (replace '\n' ['\\', 'n'] (replace '"' ['\\', '"'] (replace '\\' ['\\', '\\'] s)))
  text "\"" ++ escaped ++ text "\""

def toJson (r : CallLogRecord) : Text :=
  ['{'] ++
    quote (text "call_id") ++ text ":" ++ quote r.callId ++ text "," ++
    quote (text "device_id") ++ text ":" ++ quote r.deviceId ++ text "," ++
    quote (text "ip") ++ text ":" ++ quote r.ip ++ text "," ++
    quote (text "site") ++ text ":" ++ Json.decimal r.site ++ text "," ++
    quote (text "channel") ++ text ":" ++ Json.decimal r.channel ++ text "," ++
    quote (text "room") ++ text ":" ++ quote r.room ++ text "," ++
    quote (text "start_time") ++ text ":" ++ quote (format r.startTime) ++ text "," ++
    quote (text "end_time") ++ text ":" ++ quote (format r.endTime) ++ text "," ++
    quote (text "duration_seconds") ++ text ":" ++ Json.decimal r.durationSeconds ++ text "," ++
    quote (text "status") ++ text ":" ++ quote r.status ++ text "," ++
    quote (text "record_file") ++ text ":" ++ quote r.recordFile ++ text "," ++
    quote (text "file_size_bytes") ++ text ":" ++ Json.decimal r.fileSizeBytes ++
  ['}']

/-- The loop over the records, from the index `i` on. -/
def appendRecords (sb : Text) : Nat → List CallLogRecord → Text
  | _, [] => sb
  | i, r :: records => appendRecords ((if 0 < i then sb ++ [','] else sb) ++ toJson r) (i + 1) records

def queryLogsJson (records : List CallLogRecord) : Text := appendRecords ['['] 0 records ++ [']']

/-! ## What it stands for -/

inductive Field where
  | str (s : Text)
  | num (n : Int)

def Field.text : Field → Text
  | str s => quote s
  | num n => Json.decimal n

def Field.value : Field → Json.Value
  | str s => .str s
  | num n => .num n 0

/-- The members of a record. -/
def members (r : CallLogRecord) : List (Text × Field) :=
  [(text "call_id", .str r.callId), (text "device_id", .str r.deviceId), (text "ip", .str r.ip),
    (text "site", .num r.site),
    (text "channel", .num r.channel), (text "room", .str r.room),
    (text "start_time", .str (format r.startTime)),
    (text "end_time", .str (format r.endTime)), (text "duration_seconds", .num r.durationSeconds),
    (text "status", .str r.status), (text "record_file", .str r.recordFile),
    (text "file_size_bytes", .num r.fileSizeBytes)]

def recordValue (r : CallLogRecord) : Json.Value := .obj ((members r).map fun m => (m.1, m.2.value))

/-- No character below U+0020 but those that are replaced. -/
def Clean (s : Text) : Prop := ∀ c ∈ s, ' ' ≤ c ∨ c = '\n' ∨ c = '\r'

instance (s : Text) : Decidable (Clean s) := List.decidableBAll _ s

def Field.Clean : Field → Prop
  | str s => QueryService.Clean s
  | num _ => True

/-- All strings of the record are. -/
def CallLogRecord.Clean (r : CallLogRecord) : Prop :=
  ∀ s ∈ [r.callId, r.deviceId, r.ip, r.room, r.status, r.recordFile], QueryService.Clean s

/-! ## Strings -/

def escape (c : Char) : Text :=
  if c = '\\' then ['\\', '\\'] else if c = '"' then ['\\', '"'] else if c = '\n' then ['\\', 'n']
  else if c = '\r' then ['\\', 'r'] else [c]

theorem quote_eq (s : Text) : quote s = '"' :: s.flatMap escape ++ ['"'] := by
  have hescape : ∀ c, replace '\r' ['\\',
      'r'] (replace '\n' ['\\', 'n'] (replace '"' ['\\', '"'] (replace '\\' ['\\', '\\'] [c]))) =
      escape c := by
    intro c
    unfold escape
    split
    · subst c
      rfl
    split
    · subst c
      rfl
    split
    · subst c
      rfl
    split
    · subst c
      rfl
    simp [replace, *]
  have hall : replace '\r' ['\\',
      'r'] (replace '\n' ['\\', 'n'] (replace '"' ['\\', '"'] (replace '\\' ['\\', '\\'] s))) =
      s.flatMap escape := by
    induction s with
    | nil => rfl
    | cons c s ih =>
      rw [List.flatMap_cons, ← ih, ← hescape c]
      simp only [replace, List.flatMap_cons, List.flatMap_append, List.flatMap_nil, List.append_nil]
  unfold quote
  rw [hall]
  rfl

/-- An escaped character is read back, unless it is one that may not be there. -/
theorem pieces_escape (c : Char) (s : Text) : Json.pieces (escape c ++ s) =
    if ' ' ≤ c ∨ c = '\n' ∨ c = '\r' then (Json.pieces s).map fun r =>
      (.inl c :: r.1, r.2) else none := by
  have hbind : ∀ d : Char, ((Json.pieces s).bind fun r => some (Sum.inl d :: r.1, r.2)) =
      (Json.pieces s).map fun r => (Sum.inl d :: r.1, r.2) := fun d => by cases Json.pieces s <;> rfl
  unfold escape
  split
  · subst c
    exact hbind '\\'
  split
  · subst c
    exact hbind '"'
  split
  · subst c
    exact hbind '\n'
  split
  · subst c
    exact hbind '\r'
  rw [List.cons_append, List.nil_append, Json.pieces]
  · by_cases hc : c < ' '
    · rw [if_pos hc, if_neg]
      simp [*]
    · rw [if_neg hc, if_pos (.inl (Char.not_lt.mp hc))]
      exact hbind c
  · assumption
  · intro _ _ _ _ _ heq
    contradiction
  · intro _ _ heq
    contradiction

theorem clean_cons {c : Char} {s : Text} :
    Clean (c :: s) ↔ (' ' ≤ c ∨ c = '\n' ∨ c = '\r') ∧ Clean s := List.forall_mem_cons

theorem pieces_quoted (s rest : Text) : Json.pieces (s.flatMap escape ++ '"' :: rest) =
    if Clean s then some (s.map .inl, rest) else none := by
  induction s with
  | nil => rfl
  | cons c s ih =>
    rw [List.flatMap_cons, List.append_assoc, pieces_escape, ih]
    by_cases hs : Clean s
    · by_cases hc : ' ' ≤ c ∨ c = '\n' ∨ c = '\r'
      · rw [if_pos hc, if_pos hs, if_pos (clean_cons.mpr ⟨hc, hs⟩)]
        rfl
      · rw [if_neg hc, if_neg fun h => hc (clean_cons.mp h).1]
    · rw [if_neg hs, if_neg fun h => hs (clean_cons.mp h).2]
      exact ite_self none

theorem join_map_inl (s : Text) : Json.join (s.map .inl) = s := by
  induction s with
  | nil => rfl
  | cons c s ih =>
    rw [List.map_cons, Json.join, ih]

theorem string_quoted (s rest : Text) : Json.string (s.flatMap escape ++ '"' :: rest) =
    if Clean s then some (s, rest) else none := by
  rw [Json.string, pieces_quoted]
  split
  · rw [Option.map_some, join_map_inl]
  · rfl

theorem reads_quote (s : Text) : Json.Reads (quote s) (.str s) (Clean s) := by
  rw [quote_eq]
  refine .string fun rest r => ?_
  rw [string_quoted]
  split
  case isTrue h => simp [h, eq_comm]
  case isFalse h => simp [h]

theorem Field.reads (f : Field) : Json.Reads f.text f.value f.Clean := by
  cases f with
  | str s => exact reads_quote s
  | num n => exact .number n

/-! ## Times -/

theorem clean_append {s t : Text} (hs : Clean s) (ht : Clean t) : Clean (s ++ t) :=
  List.forall_mem_append.mpr ⟨hs, ht⟩

theorem clean_padded (width n : Nat) : Clean (padded width n) := by
  refine clean_append (fun c hc => ?_) fun c hc => ?_
  · rw [List.eq_of_mem_replicate hc]
    decide
  · have hdigit : c.isDigit = true := Nat.isDigit_of_mem_toDigits (by omega) (by omega) hc
    rw [Char.isDigit, Bool.and_eq_true, decide_eq_true_iff, decide_eq_true_iff] at hdigit
    exact .inl (Char.le_trans (show ' ' ≤ '0' by decide) hdigit.1)

theorem clean_format (t : LocalDateTime) : Clean (format t) := by
  have hsign : ∀ n : Nat, Clean (if 9999 < n then text "+" else []) := by
    intro n
    split <;> decide +kernel
  have hdash : Clean (text "-") := by decide +kernel
  have hspace : Clean (text " ") := by decide +kernel
  have hcolon : Clean (text ":") := by decide +kernel
  unfold format
  dsimp only
  with_reducible repeat' apply clean_append
  all_goals first | exact clean_padded _ _ | assumption | exact hsign _

/-! ## The log -/

theorem toJson_eq (r : CallLogRecord) :
    toJson r = '{' :: Json.commas ((members r).map fun m => quote m.1 ++ ':' :: m.2.text) ++ ['}'] := by
  have hcolon : text ":" = [':'] := by decide +kernel
  have hcomma : text "," = [','] := by decide +kernel
  unfold toJson members
  rw [hcolon, hcomma]
  simp only [List.map_cons, List.map_nil, Json.commas_cons, Json.commas_singleton, Field.text,
    List.append_assoc,
    List.cons_append, List.nil_append]

theorem clean_members (r : CallLogRecord) : ∀ m ∈ members r, Clean m.1 := by
  simp only [members, List.forall_mem_cons]
  decide +kernel

theorem appendRecords_succ (sb : Text) (i : Nat) (r : CallLogRecord) (records : List CallLogRecord) :
    appendRecords sb (i + 1) (r :: records) = sb ++ ',' :: Json.commas ((r :: records).map toJson) := by
  induction records generalizing sb i r with
  | nil => simp [appendRecords, Json.commas_singleton]
  | cons r' records ih =>
    rw [appendRecords, if_pos (Nat.succ_pos i), ih]
    simp [Json.commas_cons]

theorem queryLogsJson_eq (records : List CallLogRecord) :
    queryLogsJson records = '[' :: Json.commas (records.map toJson) ++ [']'] := by
  unfold queryLogsJson
  match records with
  | [] => rfl
  | [r] =>
    rw [appendRecords, if_neg (Nat.lt_irrefl 0), appendRecords]
    simp only [List.map_cons, List.map_nil, Json.commas_singleton, List.cons_append, List.nil_append]
  | r :: r' :: records =>
    rw [appendRecords, if_neg (Nat.lt_irrefl 0), appendRecords_succ]
    simp only [List.map_cons, Json.commas_cons, List.cons_append, List.nil_append]

theorem reads_toJson (r : CallLogRecord) : Json.Reads (toJson r) (recordValue r) r.Clean := by
  have hmember : ∀ m ∈ members r,
      Json.ReadsBy (fun fuel => Json.member (Json.value fuel)) (quote m.1 ++ ':' :: m.2.text)
      (m.1, m.2.value) m.2.Clean := by
    intro m hm
    have hkey : Clean m.1 := clean_members r m hm
    have hread := Json.Reads.member (fun rest => by rw [string_quoted, if_pos hkey]) m.2.reads
    rw [quote_eq]
    simpa using hread
  have hclean : (∀ m ∈ members r, m.2.Clean) ↔ r.Clean := by
    simp [members, CallLogRecord.Clean, Field.Clean, clean_format]
  rw [toJson_eq, ← hclean]
  exact .object hmember

/-- **The log is JSON that stands for its records exactly if their strings are clean.** -/
theorem decodes_queryLogsJson_iff (records : List CallLogRecord) :
    Json.Decodes (queryLogsJson records) (.arr (records.map recordValue)) ↔ ∀ r ∈ records, r.Clean := by
  rw [queryLogsJson_eq, (Json.Reads.array fun r _ => reads_toJson r).decodes_iff]
  exact and_iff_left rfl

/-- A record with a tab in its call id. -/
def tabbed : CallLogRecord where
  callId := ['\t']
  deviceId := []
  ip := []
  site := 0
  channel := 0
  room := []
  startTime := ⟨2024, 1, 1, 0, 0, 0⟩
  endTime := ⟨2024, 1, 1, 0, 0, 0⟩
  durationSeconds := 0
  status := []
  recordFile := []
  fileSizeBytes := 0

/-- **The tab is in the text as it is, and JSON has no such string.** -/
theorem queryLogsJson_tab : ¬ ∃ v, Json.Decodes (queryLogsJson [tabbed]) v := by
  rw [queryLogsJson_eq]
  rintro ⟨v, hdecodes⟩
  obtain ⟨hclean, -⟩ := (Json.Reads.array fun r _ => reads_toJson r).decodes_iff.mp hdecodes
  have htab : Clean ['\t'] := hclean tabbed (.head _) _ (.head _)
  exact absurd htab (by decide)

end FreeSwitch.Ptt.QueryService
