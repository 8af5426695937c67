import FreeSwitch.Event.UrlEncode
import FreeSwitch.Lib.TextMemory

/-!
# URL encoding into a pool — `switch_core_url_encode_opt`, `src/switch_utils.c`

A first pass over the text counts the bytes of its encoding, a block of that size is taken from the
pool, and `switch_url_encode_opt` fills it in a second pass. Each pass finds out by itself which percent
signs already begin an encoding. It looks two bytes ahead for that; `e - p > 1` keeps it inside the
text, where `strchr` cannot take the NUL for a digit. A text with nothing to encode is duplicated.

* **`encodes_eq`** — the condition of the passes is that of the whole encoding.
* **`countLoop_eq`**, **`fillLoop_eq`** — what each pass comes to.
* **`core_url_encode_exact`** — the block is filled to its last byte.
-/

namespace FreeSwitch.Event

open CString TextMemory

/-! ## The passes -/

/-- `end_of_p`, as a place in the text. -/
def endOfP (s : Str) : Nat := s.length - 1

/-- `strchr(hex, c)` is not `NULL`: the NUL behind the digits is found as well. -/
def inHex (c : UInt8) : Bool := hexDigits.contains c || c == 0

/-- The condition that both passes have for the byte `c` at `p`, with `rest` behind it. -/
def encodes (doubleEncode : Bool) (e p : Nat) (c : UInt8) (rest : Str) : Bool :=
  let ok := !doubleEncode && c == 37 && decide ((e : Int) - p > 1) &&
    (inHex (rest.getD 0 0) && inHex (rest.getD 1 0))
  -- a `char` above 127 is below `' '` if it has a sign, and above `'~'` if it has none
  !ok && (decide (c < 32) || decide (c > 126) || urlUnsafe.contains c)

/-- The loop of `switch_core_url_encode_opt`: `len` and `slen`. -/
def countLoop (doubleEncode : Bool) (e : Nat) : Nat → Nat → Nat → Str → Nat × Nat
  | _, len, slen, [] => (len, slen)
  | p, len, slen, c :: rest =>
    let len := len + 1
    countLoop doubleEncode e (p + 1) (if encodes doubleEncode e p c rest then len + 2 else len)
      (slen + 1) rest

/-- The loop of `switch_url_encode_opt` with its writes, after `len--`: `x` and the buffer. The error is
the place of a write behind the buffer. -/
def fillLoop (doubleEncode : Bool) (len e : Nat) : Nat → Nat → Str → Str → Except Nat (Nat × Str)
  | _, x, buf, [] => .ok (x, buf)
  | p, x, buf, c :: rest =>
    if len ≤ x then .ok (x, buf)
    else if encodes doubleEncode e p c rest then
      if len < x + 3 then .ok (x, buf)
      else do
        let buf ← write buf x 37
        let buf ← write buf (x + 1) (hexDigits.getD (c.toNat / 16) 0)
        let buf ← write buf (x + 2) (hexDigits.getD (c.toNat % 16) 0)
        fillLoop doubleEncode len e (p + 1) (x + 3) buf rest
    else do
      let buf ← write buf x c
      fillLoop doubleEncode len e (p + 1) (x + 1) buf rest

/-- `switch_url_encode_opt` on a buffer, for `len` above 0. -/
def fillUrlEncodeOpt (url buf : Str) (len : Nat) (doubleEncode : Bool) : Except Nat Str := do
  let filled ← fillLoop doubleEncode (len - 1) (endOfP url) 0 0 buf url
  write filled.2 filled.1 0

/-- The length of the block: `len` behind the loop, and the terminator. -/
def coreUrlEncodeLen (url : Str) (doubleEncode : Bool) : Nat :=
  (countLoop doubleEncode (endOfP url) 0 0 0 url).1 + 1

/-- A block of the pool, whatever is in it. -/
def coreAlloc (pool : Nat → UInt8) (len : Nat) : Str := (List.range len).map pool

/-- `switch_core_url_encode_opt`: the block that is returned. -/
def switchCoreUrlEncodeOpt (pool : Nat → UInt8) (url : Str) (doubleEncode : Bool) : Except Nat Str :=
  let slen := (countLoop doubleEncode (endOfP url) 0 0 0 url).2 + 1
  let len := coreUrlEncodeLen url doubleEncode
  if slen = len then .ok (url ++ [0]) else fillUrlEncodeOpt url (coreAlloc pool len) len doubleEncode

/-! ## One byte -/

variable {doubleEncode : Bool} {e p : Nat} {c : UInt8} {rest : Str}

theorem inHex_eq (hc : c ≠ 0) : inHex c = hexDigits.contains c := by
  rw [inHex, beq_false_of_ne hc, Bool.or_false]

/-- At `p` in a text that ends at `e`, the look ahead is that of the encoding. -/
theorem encodes_eq (hzero : 0 ∉ rest) (hend : p + rest.length = e) :
    encodes doubleEncode e p c rest = !copied doubleEncode c rest := by
  have hplain : (decide (c < 32) || decide (c > 126) || urlUnsafe.contains c)
      = !(decide (32 ≤ c) && decide (c ≤ 126) && !urlUnsafe.contains c) := by
    simp only [Bool.not_and, Bool.not_not, ← decide_not, UInt8.not_le, gt_iff_lt]
  unfold encodes copied
  dsimp only
  rw [hplain, Bool.not_or]
  congr 2
  match rest, hzero, hend with
  | [], _, hend | [_], _, hend =>
    -- the end is too near
    rw [decide_eq_false (by simp only [List.length_nil, List.length_singleton] at hend; omega),
      Bool.and_false, Bool.false_and]
  | a :: b :: rest, hzero, hend =>
    have ha : a ≠ 0 := fun ha => hzero (ha ▸ List.mem_cons_self)
    have hb : b ≠ 0 := fun hb => hzero (hb ▸ List.mem_cons_of_mem a List.mem_cons_self)
    rw [decide_eq_true (by simp only [List.length_cons] at hend; omega), Bool.and_true]
    show (_ && (inHex a && inHex b)) = _
    rw [inHex_eq ha, inHex_eq hb]

/-- Three bytes are written, and then `next` goes on. -/
theorem write_three {β : Type} (next : Str → Except Nat β) (a b : Str) (o₁ o₂ o₃ x y z : UInt8) : (do
    let buf ← write (a ++ o₁ :: o₂ :: o₃ :: b) a.length x
    let buf ← write buf (a.length + 1) y
    let buf ← write buf (a.length + 2) z
    next buf) = next (a ++ x :: y :: z :: b) := by
  have hsecond := write_append (a ++ [x]) o₂ (o₃ :: b) y
  have hthird := write_append (a ++ [x, y]) o₃ b z
  simp only [List.append_assoc, List.cons_append, List.nil_append, List.length_append, List.length_cons,
    List.length_nil]
    at hsecond hthird
  rw [write_append]
  show (write _ (a.length + 1) y >>= _) = _
  rw [hsecond]
  show (write _ (a.length + 2) z >>= next) = _
  rw [hthird]
  rfl

/-! ## The counting pass -/

theorem length_urlEncoding_cons (doubleEncode : Bool) (c : UInt8) (s : Str) :
    (urlEncoding doubleEncode (c :: s)).length = (if copied doubleEncode c s then 1 else 3) +
      (urlEncoding doubleEncode s).length := by
  rw [urlEncoding, List.length_append]
  split <;> rfl

theorem countLoop_eq (s : Str) (hzero : 0 ∉ s) (hend : s ≠ [] → p + s.length = e + 1) (len slen : Nat) :
    countLoop doubleEncode e p len slen s =
      (len + (urlEncoding doubleEncode s).length, slen + s.length) := by
  induction s generalizing p len slen with
  | nil => rfl
  | cons c s ih =>
    have hlength := hend (List.cons_ne_nil c s)
    rw [List.length_cons] at hlength
    have htail : 0 ∉ s := fun hmem => hzero (List.mem_cons_of_mem c hmem)
    rw [countLoop, encodes_eq htail (by omega), ih htail (fun _ => by omega), length_urlEncoding_cons,
      List.length_cons]
    cases copied doubleEncode c s <;> simp <;> omega

theorem endOfP_add_one (url : Str) (hne : url ≠ []) : 0 + url.length = endOfP url + 1 := by
  have := List.length_pos_of_ne_nil hne
  unfold endOfP
  omega

theorem coreUrlEncodeLen_eq {url : Str} (hurl : 0 ∉ url) (doubleEncode : Bool) :
    coreUrlEncodeLen url doubleEncode = (urlEncoding doubleEncode url).length + 1 := by
  rw [coreUrlEncodeLen, countLoop_eq url hurl (endOfP_add_one url), Nat.zero_add]

/-! ## The writing pass -/

/-- `x` and the buffer when the text has been written behind `done`, over what was there. -/
def filled (done text old : Str) : Nat × Str :=
  (done.length + text.length, done ++ (text ++ old.drop text.length))

theorem filled_append (done unit text old : Str) :
    filled (done ++ unit) text (old.drop unit.length) = filled done (unit ++ text) old := by
  unfold filled
  rw [List.length_append, List.length_append, List.append_assoc, List.append_assoc, List.drop_drop,
    Nat.add_assoc]

theorem fillLoop_eq {len : Nat} (s : Str) (hzero : 0 ∉ s) (hend : s ≠ [] → p + s.length = e + 1)
    {done old : Str} (hroom : len < done.length + old.length) :
    fillLoop doubleEncode len e p done.length (done ++ old) s =
      .ok (filled done (urlEncodeLoop doubleEncode len done.length s) old) := by
  induction s generalizing p done old with
  | nil => rfl
  | cons c s ih =>
    have hlength := hend (List.cons_ne_nil c s)
    rw [List.length_cons] at hlength
    have htail : 0 ∉ s := fun hmem => hzero (List.mem_cons_of_mem c hmem)
    -- the rest of the loop, behind what is written for `c`
    have hrest : ∀ unit : Str, done.length + unit.length ≤ len →
        fillLoop doubleEncode len e (p + 1) (done.length + unit.length)
          (done ++ (unit ++ old.drop unit.length)) s =
          .ok
            (filled done (unit ++ urlEncodeLoop doubleEncode len (done.length + unit.length) s)
              old) := by
      intro unit hunit
      have hnext := @ih (p + 1) htail (fun _ => by omega) (done ++ unit) (old.drop unit.length)
        (by rw [List.length_append, List.length_drop]; omega)
      rwa [filled_append, List.length_append, List.append_assoc] at hnext
    rw [fillLoop, urlEncodeLoop, encodes_eq htail (by omega)]
    by_cases hfull : len ≤ done.length
    · rw [if_pos hfull, if_pos hfull]
      rfl
    · rw [if_neg hfull, if_neg hfull]
      cases copied doubleEncode c s with
      | true =>
        obtain ⟨o, old, rfl⟩ := List.exists_cons_of_length_pos (by omega : 0 < old.length)
        simp only [Bool.not_true, Bool.false_eq_true, if_false, if_true]
        rw [write_append]
        exact hrest [c] (by rw [List.length_singleton]; omega)
      | false =>
        simp only [Bool.not_false, Bool.false_eq_true, if_false, if_true]
        by_cases hthree : len < done.length + 3
        · rw [if_pos hthree, if_pos hthree]
          rfl
        · rw [if_neg hthree, if_neg hthree]
          obtain ⟨o₁, old, rfl⟩ := List.exists_cons_of_length_pos (by omega : 0 < old.length)
          rw [List.length_cons] at hroom
          obtain ⟨o₂, old, rfl⟩ := List.exists_cons_of_length_pos (by omega : 0 < old.length)
          rw [List.length_cons] at hroom
          obtain ⟨o₃, old, rfl⟩ := List.exists_cons_of_length_pos (by omega : 0 < old.length)
          exact (write_three _ done old o₁ o₂ o₃ 37 _ _).trans
            (hrest (percent c) (by rw [length_percent]; omega))

/-- A buffer of `len` bytes or more holds the text that is written, and its terminator. -/
theorem fillUrlEncodeOpt_eq {url buf : Str} {len : Nat} (hurl : 0 ∉ url) (hpos : 0 < len)
    (hlen : len ≤ buf.length) :
    fillUrlEncodeOpt url buf len doubleEncode =
      .ok (switchUrlEncodeOpt url len doubleEncode ++
        0 :: buf.drop ((switchUrlEncodeOpt url len doubleEncode).length + 1)) := by
  have hloop := @fillLoop_eq doubleEncode (endOfP url) 0 (len - 1) url hurl (endOfP_add_one url) [] buf
    (by rw [List.length_nil]; omega)
  have htext : (switchUrlEncodeOpt url len doubleEncode).length ≤ len - 1 := by
    have := urlEncodeLoop_le doubleEncode (len - 1) url (Nat.zero_le _)
    rwa [Nat.zero_add] at this
  rw [List.length_nil, List.nil_append,
    show urlEncodeLoop doubleEncode (len - 1) 0 url = switchUrlEncodeOpt url len doubleEncode from rfl]
    at hloop
  generalize switchUrlEncodeOpt url len doubleEncode = text at *
  rw [fillUrlEncodeOpt, hloop]
  show write ([] ++ (text ++ buf.drop text.length)) ([].length + text.length) 0 = _
  rw [List.length_nil, List.nil_append, Nat.zero_add,
    List.drop_eq_getElem_cons (by omega), write_append]

/-! ## Both -/

theorem length_le_urlEncoding (doubleEncode : Bool) (s : Str) :
    s.length ≤ (urlEncoding doubleEncode s).length := by
  induction s with
  | nil => exact Nat.le_refl 0
  | cons c s ih =>
    rw [length_urlEncoding_cons, List.length_cons]
    split <;> omega

/-- An encoding that is no longer than its text is the text. -/
theorem urlEncoding_of_length {s : Str} (h : (urlEncoding doubleEncode s).length = s.length) :
    urlEncoding doubleEncode s = s := by
  induction s with
  | nil => rfl
  | cons c s ih =>
    have hle := length_le_urlEncoding doubleEncode s
    rw [length_urlEncoding_cons, List.length_cons] at h
    split at h
    · next hcopied =>
      rw [urlEncoding, if_pos hcopied, ih (by omega)]
      rfl
    · omega

/-- **The block has the size of the encoding, and the second pass fills it.** -/
theorem core_url_encode_exact (url : Str) (hurl : 0 ∉ url) (doubleEncode : Bool) (pool : Nat → UInt8) :
    coreUrlEncodeLen url doubleEncode = (urlEncoding doubleEncode url).length + 1 ∧
      fillUrlEncodeOpt url (coreAlloc pool (coreUrlEncodeLen url doubleEncode))
        (coreUrlEncodeLen url doubleEncode) doubleEncode =
        .ok (urlEncoding doubleEncode url ++ [0]) ∧
      switchCoreUrlEncodeOpt pool url doubleEncode = .ok (urlEncoding doubleEncode url ++ [0]) := by
  have hlen := coreUrlEncodeLen_eq hurl doubleEncode
  have hblock : (coreAlloc pool (coreUrlEncodeLen url doubleEncode)).length =
      coreUrlEncodeLen url doubleEncode := by
    rw [coreAlloc, List.length_map, List.length_range]
  have hfill : fillUrlEncodeOpt url (coreAlloc pool (coreUrlEncodeLen url doubleEncode))
      (coreUrlEncodeLen url doubleEncode)
      doubleEncode = .ok (urlEncoding doubleEncode url ++ [0]) := by
    have htext :=
      (switchUrlEncodeOpt_eq_iff (s := url) doubleEncode
        (by omega)).mpr (by omega : _ < coreUrlEncodeLen url doubleEncode)
    rw [fillUrlEncodeOpt_eq hurl (by omega) hblock.ge, htext, List.drop_of_length_le (by omega)]
  refine ⟨hlen, hfill, ?_⟩
  rw [switchCoreUrlEncodeOpt]
  split
  · next hsame =>
    -- nothing is encoded, and the duplicate has the same size
    rw [countLoop_eq url hurl (endOfP_add_one url), hlen] at hsame
    rw [urlEncoding_of_length (by omega)]
  · exact hfill

/-- A blank is encoded, and an encoding stays. -/
theorem core_url_encode_blank :
    switchCoreUrlEncodeOpt (fun _ => 7) (bytes "a b%41") false = .ok (bytes "a%20b%41" ++ [0]) :=
  (core_url_encode_exact (bytes "a b%41") (by decide) false fun _ => 7).2.2.trans
    (congrArg (fun s => Except.ok (s ++ [0]))
      (show urlEncoding false (bytes "a b%41") = bytes "a%20b%41" by decide))

end FreeSwitch.Event
