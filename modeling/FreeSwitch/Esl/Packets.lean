import FreeSwitch.Esl.Buffer

/-!
# Packets in an `esl_buffer`

A packet ends with an empty line. `esl_buffer_read_packet` looks for one among the unread bytes, but
compares the end of what it found with `pe <= e` where `pe` is a byte still to be read: a line break at
the end of the unread bytes is taken for the end of a packet if there happens to be another one behind
it in the memory.

* **`Packet`** — the shortest beginning of the unread bytes that is a packet.
* **`packetEnd_eq`** — what the loop finds.
* **`readPacket_expected_iff`** — the packets of a whole run.
-/

namespace FreeSwitch.Esl

open Buffer (Wf contents Reply Object)
open Runs

/-! ## Packets -/

/-- The bytes end with an empty line. -/
def Terminated (v : List UInt8) : Prop := [10, 10] <:+ v ∨ [10, 13, 10] <:+ v

/-- The unread bytes up to the first empty line. -/
structure Packet (q v : List UInt8) : Prop where
  isPrefix : v <+: q
  terminated : Terminated v
  least : ∀ v', v' <+: q → Terminated v' → v.length ≤ v'.length

/-- What a reader of packets is to get. -/
def Expected (q : List UInt8) (reply : Reply) : Prop :=
  (∃ v, Packet q v ∧ reply = { ret := v.length, out := v }) ∨ (¬∃ v, Packet q v) ∧ reply = { ret := 0 }

/-- The bytes end with a line break that an empty line may follow. -/
def Open (v : List UInt8) : Prop := [10] <:+ v ∨ [10, 13] <:+ v

/-- The length of the first packet. -/
def packetLen : List UInt8 → Option Nat
  | [] => none
  | c :: v =>
    if c = 10 ∧ [10] <+: v then some 2
    else if c = 10 ∧ [13, 10] <+: v then some 3
    else (packetLen v).map (· + 1)

variable {c : UInt8} {v : List UInt8}

/-- The bytes behind which the loop goes on with the next one. -/
theorem packetLen_cons (h : c ≠ 10 ∨ ¬[10] <+: v ∧ ¬[13, 10] <+: v) :
    packetLen (c :: v) = (packetLen v).map (· + 1) := by
  rw [packetLen, if_neg fun h' => (h.resolve_left (not_not_intro h'.1)).1 h'.2,
    if_neg fun h' => (h.resolve_left (not_not_intro h'.1)).2 h'.2]

/-- One of two ends that begin with the same byte. -/
theorem suffix_or_cons {d : UInt8} {l l' : List UInt8} : (d :: l <:+ c :: v ∨ d :: l' <:+ c :: v) ↔
    (d :: l <:+ v ∨ d :: l' <:+ v) ∨ c = d ∧ (v = l ∨ v = l') := by
  rw [List.suffix_cons_iff, List.suffix_cons_iff]
  simp only [List.cons.injEq]
  constructor
  · rintro ((⟨rfl, rfl⟩ | h) | (⟨rfl, rfl⟩ | h))
    · exact .inr ⟨rfl, .inl rfl⟩
    · exact .inl (.inl h)
    · exact .inr ⟨rfl, .inr rfl⟩
    · exact .inl (.inr h)
  · rintro ((h | h) | ⟨rfl, rfl | rfl⟩)
    · exact .inl (.inr h)
    · exact .inr (.inr h)
    · exact .inl (.inl ⟨rfl, rfl⟩)
    · exact .inr (.inl ⟨rfl, rfl⟩)

theorem terminated_cons :
    Terminated (c :: v) ↔ Terminated v ∨ c = 10 ∧ (v = [10] ∨ v = [13, 10]) :=
  suffix_or_cons

theorem not_terminated_nil : ¬Terminated [] := by
  rintro (h | h)
  · exact absurd (List.suffix_nil.mp h) (by simp)
  · exact absurd (List.suffix_nil.mp h) (by simp)

/-- Where a byte is passed over, the packets are those of the rest. -/
theorem terminated_cons_of_isPrefix {w : List UInt8} (h : c ≠ 10 ∨ ¬[10] <+: v ∧ ¬[13, 10] <+: v)
    (hw : w <+: v) : Terminated (c :: w) ↔ Terminated w := by
  rw [terminated_cons]
  refine ⟨fun h' => h'.resolve_right ?_, .inl⟩
  rintro ⟨rfl, rfl | rfl⟩
  · exact (h.resolve_left (by simp)).1 hw
  · exact (h.resolve_left (by simp)).2 hw

variable {q : List UInt8}

theorem packet_cons (h : c ≠ 10 ∨ ¬[10] <+: q ∧ ¬[13, 10] <+: q) (hv : Packet q v) :
    Packet (c :: q) (c :: v) where
  isPrefix := List.cons_prefix_cons.mpr ⟨rfl, hv.isPrefix⟩
  terminated := terminated_cons.mpr (.inl hv.terminated)
  least := by
    intro v' hv' hterm
    rcases List.prefix_cons_iff.mp hv' with rfl | ⟨t, rfl, ht⟩
    · exact absurd hterm not_terminated_nil
    · have hle := hv.least t ht ((terminated_cons_of_isPrefix h ht).mp hterm)
      simpa using hle

theorem packet_of_start (hv : v <+: q) (hterm : Terminated v)
    (hshort : ∀ w, w <+: v → w.length < v.length → ¬Terminated w) : Packet q v where
  isPrefix := hv
  terminated := hterm
  least := by
    intro v' hv' hterm'
    by_contra hlt
    have hle := List.prefix_of_prefix_length_le hv' hv (by omega)
    exact hshort v' hle (by omega) hterm'

/-- The two ways a packet is at its end. -/
theorem packet_end (rest : List UInt8) :
    Packet (10 :: 10 :: rest) [10, 10] ∧ Packet (10 :: 13 :: 10 :: rest) [10, 13, 10] := by
  have hone : ∀ w : List UInt8, Terminated w → 2 ≤ w.length := by
    rintro w (h | h)
    · exact h.length_le
    · exact Nat.le_trans (by decide) h.length_le
  refine ⟨packet_of_start (List.prefix_append [10, 10] rest) (.inl List.suffix_rfl) fun w _ hlt hterm =>
    ?_,
    packet_of_start (List.prefix_append [10, 13, 10] rest) (.inr List.suffix_rfl) fun w hw hlt hterm =>
      ?_⟩
  · exact absurd (hone w hterm) (by simpa using hlt)
  · have htwo : w = [10, 13] := by
      have hlength : w.length = 2 := Nat.le_antisymm (by simp at hlt; omega) (hone w hterm)
      rw [List.prefix_iff_eq_take.mp hw, hlength]
      rfl
    rw [htwo, terminated_cons, terminated_cons] at hterm
    simp [not_terminated_nil] at hterm

theorem packetLen_spec (q : List UInt8) :
    match packetLen q with
    | some k => k ≤ q.length ∧ Packet q (q.take k)
    | none => ∀ v, v <+: q → ¬Terminated v := by
  induction q with
  | nil =>
    intro v hv
    rw [List.prefix_nil.mp hv]
    exact not_terminated_nil
  | cons c q ih =>
    by_cases hpass : c ≠ 10 ∨ ¬[10] <+: q ∧ ¬[13, 10] <+: q
    · rw [packetLen_cons hpass]
      cases hk : packetLen q with
      | some k =>
        rw [hk] at ih
        exact ⟨by simpa using ih.1, packet_cons hpass ih.2⟩
      | none =>
        rw [hk] at ih
        intro v hv hterm
        rcases List.prefix_cons_iff.mp hv with rfl | ⟨t, rfl, ht⟩
        · exact not_terminated_nil hterm
        · exact ih t ht ((terminated_cons_of_isPrefix hpass ht).mp hterm)
    · rw [not_or, not_not] at hpass
      obtain ⟨rfl, hnext⟩ := hpass
      by_cases hlf : [10] <+: q
      · rw [packetLen, if_pos ⟨rfl, hlf⟩]
        obtain ⟨rest, rfl⟩ := hlf
        exact ⟨by simp, (packet_end rest).1⟩
      · have hcr : [13, 10] <+: q := by
          by_contra hcr
          exact hnext ⟨hlf, hcr⟩
        rw [packetLen, if_neg fun h => hlf h.2, if_pos ⟨rfl, hcr⟩]
        obtain ⟨rest, rfl⟩ := hcr
        exact ⟨by simp, (packet_end rest).2⟩

/-! ## The loop -/

theorem open_cons : Open (c :: v) ↔ Open v ∨ c = 10 ∧ (v = [] ∨ v = [13]) :=
  suffix_or_cons

theorem not_open_nil : ¬Open [] := by
  rintro (h | h)
  · exact absurd (List.suffix_nil.mp h) (by simp)
  · exact absurd (List.suffix_nil.mp h) (by simp)

instance : DecidablePred Open := fun v => inferInstanceAs (Decidable ([10] <:+ v ∨ [10, 13] <:+ v))

/-- What the loop finds in `v`, before `e`: its first packet, or one that ends with the byte at `e`. -/
def found (byte : Nat → UInt8) (e p : Nat) (v : List UInt8) : Option Nat :=
  match packetLen v with
  | some k => some (p + k)
  | none => if Open v ∧ byte e = 10 then some (e + 1) else none

section Loop

variable {byte : Nat → UInt8} {e : Nat}

/-- A byte that the loop passes over. -/
theorem found_cons {p : Nat} (h : c ≠ 10 ∨ ¬[10] <+: v ∧ ¬[13, 10] <+: v)
    (hend : c = 10 → v = [] ∨ v = [13] → byte e ≠ 10) :
    found byte e p (c :: v) = found byte e (p + 1) v := by
  have hopen : (Open (c :: v) ∧ byte e = 10) ↔ Open v ∧ byte e = 10 := by
    rw [open_cons]
    constructor
    · rintro ⟨ho | ⟨hc, hv⟩, hbyte⟩
      · exact ⟨ho, hbyte⟩
      · exact absurd hbyte (hend hc hv)
    · exact fun ⟨ho, hbyte⟩ => ⟨.inl ho, hbyte⟩
  rw [found, packetLen_cons h, found]
  cases packetLen v with
  | some k =>
    show some (p + (k + 1)) = some (p + 1 + k)
    rw [Nat.add_assoc, Nat.add_comm 1]
  | none =>
    show (if Open (c :: v) ∧ byte e = 10 then some (e + 1) else none) = if Open v ∧ byte e = 10 then
      some (e + 1) else none
    exact if_congr hopen rfl rfl

theorem packetEnd_lf {n p : Nat} (h : byte p = 10) (hnext : byte (p + 1) = 10) (hle : p + 1 ≤ e) :
    packetEnd byte e (n + 1) p = some (p + 2) := by
  have hpe : ¬byte (p + 1) = 13 := by rw [hnext]; decide
  rw [packetEnd, if_neg (by rw [h]; decide), if_pos h]
  simp only [if_neg hpe]
  rw [if_pos ⟨hle, hnext⟩]

theorem packetEnd_cr {n p : Nat} (h : byte p = 10) (hnext : byte (p + 1) = 13)
    (hlast : byte (p + 2) = 10) (hle : p + 2 ≤ e) : packetEnd byte e (n + 1) p = some (p + 3) := by
  rw [packetEnd, if_neg (by rw [h]; decide), if_pos h]
  simp only [if_pos hnext]
  rw [if_pos ⟨hle, hlast⟩]

theorem packetEnd_pass {n p : Nat} (h : byte p ≠ 0)
    (hlf : byte p = 10 → ¬(byte (p + 1) = 10 ∧ p + 1 ≤ e))
    (hcr : byte p = 10 → ¬(byte (p + 1) = 13 ∧ byte (p + 2) = 10 ∧ p + 2 ≤ e)) :
    packetEnd byte e (n + 1) p = packetEnd byte e n (p + 1) := by
  rw [packetEnd, if_neg h]
  split
  case isFalse => rfl
  case isTrue h10 =>
    by_cases h13 : byte (p + 1) = 13
    · simp only [if_pos h13]
      exact if_neg fun h' => hcr h10 ⟨h13, h'.2, h'.1⟩
    · simp only [if_neg h13]
      exact if_neg fun h' => hlf h10 ⟨h'.2, h'.1⟩

theorem packetEnd_eq : ∀ {v : List UInt8} {p : Nat},
      (∀ i c, v[i]? = some c → byte (p + i) = c) → 0 ∉ v →
    e = p + v.length → packetEnd byte e v.length p = found byte e p v := by
  intro v
  induction v with
  | nil =>
    intro p _ _ _
    show none = if Open [] ∧ byte e = 10 then some (e + 1) else none
    rw [if_neg fun h => not_open_nil h.1]
  | cons c v ih =>
    intro p hbytes hzero he
    rw [List.length_cons] at he ⊢
    have hc : byte p = c := hbytes 0 c rfl
    have hne : byte p ≠ 0 := fun h => hzero (by rw [← h, hc]; exact List.mem_cons_self)
    have hrest : packetEnd byte e v.length (p + 1) = found byte e (p + 1) v := by
      refine ih (fun i d hd => ?_) (fun h => hzero (List.mem_cons_of_mem _ h)) (by omega)
      rw [Nat.add_assoc, Nat.add_comm 1]
      exact hbytes (i + 1) d hd
    by_cases hlf : c = 10 ∧ [10] <+: v
    · obtain ⟨rfl, w, rfl⟩ := hlf
      rw [packetEnd_lf hc (hbytes 1 10 rfl) (by omega), found, packetLen,
        if_pos ⟨rfl, List.prefix_append [10] w⟩]
    by_cases hcr : c = 10 ∧ [13, 10] <+: v
    · obtain ⟨rfl, w, rfl⟩ := hcr
      rw [packetEnd_cr hc (hbytes 1 13 rfl) (hbytes 2 10 rfl) (by simp at he; omega), found,
        packetLen, if_neg hlf,
        if_pos ⟨rfl, List.prefix_append [13, 10] w⟩]
    -- no packet ends here, unless with the byte at `e`
    have hpass : c ≠ 10 ∨ ¬[10] <+: v ∧ ¬[13, 10] <+: v := by
      rw [or_iff_not_imp_left, not_not]
      exact fun h => ⟨fun h' => hlf ⟨h, h'⟩, fun h' => hcr ⟨h, h'⟩⟩
    by_cases hend : c = 10 ∧ (v = [] ∨ v = [13]) ∧ byte e = 10
    · obtain ⟨rfl, hv, hbyte⟩ := hend
      have hfound : found byte e p (10 :: v) = some (e + 1) := by
        rw [found, packetLen_cons hpass]
        rcases hv with rfl | rfl
        · exact if_pos ⟨.inl List.suffix_rfl, hbyte⟩
        · exact if_pos ⟨.inr List.suffix_rfl, hbyte⟩
      rw [hfound]
      rcases hv with rfl | rfl
      · obtain rfl : e = p + 1 := he
        exact packetEnd_lf hc hbyte (Nat.le_refl _)
      · obtain rfl : e = p + 2 := he
        exact packetEnd_cr hc (hbytes 1 13 rfl) hbyte (Nat.le_refl _)
    · rw [found_cons hpass fun h h' hbyte => hend ⟨h, h', hbyte⟩, ← hrest]
      refine packetEnd_pass hne (fun h10 h => ?_) fun h10 h => ?_
      · cases v with
        | nil =>
          obtain rfl : e = p + 1 := he
          exact hend ⟨hc ▸ h10, .inl rfl, h.1⟩
        | cons d w =>
          have hd : d = 10 := (hbytes 1 d rfl).symm.trans h.1
          exact hlf ⟨hc ▸ h10, hd ▸ List.prefix_append [10] w⟩
      · match v, he, hbytes with
        | [], he, _ =>
          obtain rfl : e = p + 1 := he
          omega
        | [d], he, hbytes =>
          obtain rfl : e = p + 2 := he
          have hd : d = 13 := (hbytes 1 d rfl).symm.trans h.1
          exact hend ⟨hc ▸ h10, .inr (by rw [hd]), h.2.1⟩
        | d :: f :: w, _, hbytes =>
          have hd : d = 13 := (hbytes 1 d rfl).symm.trans h.1
          have hf : f = 10 := (hbytes 2 f rfl).symm.trans h.2.1
          exact hcr ⟨hc ▸ h10, by rw [hd, hf]; exact List.prefix_append [13, 10] w⟩

end Loop

/-! ## What the buffer holds -/

/-- The bytes that are unread after a call, by what the call was and what it returned. -/
def after (q : List UInt8) (label : Call × Reply) : List UInt8 :=
  match label.1 with
  | .write src => if label.2.ret = 0 then q else q ++ src.bytes
  | .read _ | .readPacket _ _ => q.drop label.2.ret

/-- A buffer without a limit, and its unread bytes. One that was created without a length has no
block. -/
structure Holds (b : EslBuffer) (q : List UInt8) : Prop where
  maxLen : b.maxLen = 0
  content : (Wf b.toSwitch ∧ contents b.toSwitch = q) ∨ b.data = none ∧ b.used = 0 ∧ q = []

variable {b : EslBuffer}

theorem Holds.length (h : Holds b q) : q.length = b.used := by
  rcases h.content with ⟨hwf, rfl⟩ | ⟨-, hused, rfl⟩
  · exact hwf.contents_length
  · exact hused.symm

theorem read_maxLen (b : EslBuffer) (n : Nat) : (eslBufferRead b n).1.maxLen = b.maxLen := by
  unfold eslBufferRead
  split <;> rfl

theorem Holds.read (h : Holds b q) (n : Nat) :
    Holds (eslBufferRead b n).1 (q.drop n) ∧
    (eslBufferRead b n).2 = { ret := min n q.length, out := q.take n } := by
  rcases h.content with ⟨hwf, rfl⟩ | ⟨hnull, hused, rfl⟩
  · obtain ⟨hb, hout, hret⟩ := read_toSwitch b n
    obtain ⟨hwf', hq, -, hreply, -⟩ := Buffer.read_spec hwf n
    rw [hreply] at hout hret
    refine ⟨⟨(read_maxLen b n).trans h.maxLen, .inl ⟨hb ▸ hwf', hb ▸ hq⟩⟩, ?_⟩
    show Reply.mk (eslBufferRead b n).2.ret (eslBufferRead b n).2.out = _
    rw [hout, hret]
  · have hempty : b.used < 1 := by omega
    rw [eslBufferRead, if_pos hempty]
    exact ⟨⟨h.maxLen, .inr ⟨hnull, rfl, List.drop_nil⟩⟩, by simp⟩

theorem Holds.write {b' : EslBuffer} (h : Holds b q) {mem : Buffer.Allocator} {src : Object} {w : Nat}
    (hwrite : eslBufferWrite mem b src = some (b', w)) :
    Holds b' (if w = 0 then q else q ++ src.bytes) := by
  rcases h.content with ⟨hwf, rfl⟩ | ⟨hnull, -, -⟩
  · obtain ⟨s, w', hs, hwf', hsame, hres⟩ := Buffer.write_cases hwf mem src
    have heq := write_toSwitch h.maxLen mem src
    rw [hwrite, hs] at heq
    obtain ⟨rfl, rfl⟩ : b'.toSwitch = s ∧ w = w' := by simpa using heq
    refine ⟨hsame.maxLen.trans h.maxLen, .inl ⟨hwf', ?_⟩⟩
    split
    case isTrue hw => exact hres.of_eq_zero hw
    case isFalse hw => exact hres.of_ne_zero hw
  · rw [eslBufferWrite, if_pos (by rw [hnull]; rfl)] at hwrite
    cases hwrite

/-- A packet is read like any other bytes. -/
theorem readPacket_eq_read (outside : Nat → UInt8) (b : EslBuffer) (maxlen : Nat) :
    ∃ n, eslBufferReadPacket outside b maxlen = eslBufferRead b n := by
  unfold eslBufferReadPacket
  split
  · exact ⟨_, rfl⟩
  · exact ⟨0, rfl⟩

theorem Holds.step {b' : EslBuffer} {label : Call × Reply} (h : Holds b q) (hstep : Step b label b') :
    Holds b' (after q label) := by
  have hread : ∀ n, eslBufferRead b n = (b', label.2) → Holds b' (q.drop label.2.ret) := by
    intro n hn
    obtain ⟨hholds, hreply⟩ := h.read n
    rw [hn] at hholds hreply
    rw [hreply]
    show Holds b' (q.drop (min n q.length))
    have hdrop : q.drop (min n q.length) = q.drop n := by
      rcases Nat.le_total n q.length with hle | hle
      · rw [Nat.min_eq_left hle]
      · rw [Nat.min_eq_right hle, List.drop_length, List.drop_eq_nil_of_le hle]
    rw [hdrop]
    exact hholds
  obtain ⟨mem, hperform⟩ := hstep
  obtain ⟨call, reply⟩ := label
  cases call with
  | write src =>
    obtain ⟨⟨b₁, w⟩, hwrite, heq⟩ := Option.map_eq_some_iff.mp hperform
    obtain ⟨rfl, rfl⟩ := Prod.mk.inj heq
    exact h.write hwrite
  | read n => exact hread n (Option.some.inj hperform)
  | readPacket outside maxlen =>
    obtain ⟨n, hn⟩ := readPacket_eq_read outside b maxlen
    exact hread n (hn ▸ Option.some.inj hperform)

theorem Holds.run {b' : EslBuffer} {labels : List (Call × Reply)} (hrun : Run Step b labels b') :
    ∀ {q : List UInt8}, Holds b q → Holds b' (labels.foldl after q) := by
  induction hrun with
  | nil _ => exact fun h => h
  | cons hstep _ ih => exact fun h => ih (h.step hstep)

theorem holds_create {blocksize startLen : UInt64} (h : eslBufferCreate blocksize startLen 0 = some b) :
    Holds b [] := by
  unfold eslBufferCreate at h
  split at h
  case isFalse => exact nomatch h
  case isTrue hfits =>
    by_cases hzero : startLen.toNat = 0
    · rw [if_pos hzero] at h
      cases h
      exact ⟨rfl, .inr ⟨rfl, rfl, rfl⟩⟩
    · rw [if_neg hzero] at h
      cases h
      exact ⟨rfl, .inl ⟨⟨rfl, rfl, List.length_replicate, rfl, Nat.zero_le _, hfits⟩, List.take_zero⟩⟩

/-! ## Packets of a run -/

/-- Nothing that is written has a zero in it. -/
def NonNul (label : Call × Reply) : Prop := ∀ src, label.1 = .write src → 0 ∉ src.bytes

theorem zero_notMem_after {label : Call × Reply} (hq : 0 ∉ q) (hlabel : NonNul label) :
    0 ∉ after q label := by
  obtain ⟨call, reply⟩ := label
  cases call with
  | write src =>
    show 0 ∉ (if reply.ret = 0 then q else q ++ src.bytes)
    split
    · exact hq
    · rw [List.mem_append]
      exact fun h => h.elim hq (hlabel src rfl)
  | read n => exact fun h => hq (List.mem_of_mem_drop h)
  | readPacket outside maxlen => exact fun h => hq (List.mem_of_mem_drop h)

theorem zero_notMem_foldl {labels : List (Call × Reply)} (hlabels : ∀ label ∈ labels, NonNul label)
    (hq : 0 ∉ q) : 0 ∉ labels.foldl after q :=
  List.foldlRecOn (motive := fun q => 0 ∉ q) labels after hq fun _ hq label hlabel =>
    zero_notMem_after hq (hlabels label hlabel)

/-- The unread bytes hold no packet, but end with a line break that is followed by another one in the
memory. -/
def Lured (outside : Nat → UInt8) (b : EslBuffer) (q : List UInt8) : Prop :=
  (¬∃ v, Packet q v) ∧ Open q ∧ byteAt outside b (b.head + b.used) = 10

theorem Holds.byteAt (h : Holds b q) (outside : Nat → UInt8) (i : Nat) (c : UInt8)
    (hc : q[i]? = some c) : Esl.byteAt outside b (b.head + i) = c := by
  rcases h.content with ⟨hwf, rfl⟩ | ⟨-, -, rfl⟩
  · have hget : b.block[b.head + i]? = some c := by
      rw [contents, List.getElem?_take] at hc
      split at hc
      · rwa [List.getElem?_drop] at hc
      · cases hc
    rw [Esl.byteAt, List.getD_eq_getElem?_getD, hget]
    rfl
  · cases hc

/-- The answer of `esl_buffer_read_packet`: the first packet, or what the byte behind makes of it. -/
theorem Holds.expected_iff (h : Holds b q) (hzero : 0 ∉ q) (outside : Nat → UInt8)
    {maxlen : Nat} (hmax : b.used ≤ maxlen) :
    Expected q (eslBufferReadPacket outside b maxlen).2 ↔ ¬Lured outside b q := by
  have hlength := h.length
  have hfound : packetEnd (Esl.byteAt outside b) (b.head + b.used) b.used b.head =
      found (Esl.byteAt outside b) (b.head + b.used) b.head q := by
    rw [← hlength]
    exact packetEnd_eq (h.byteAt outside) hzero rfl
  have hspec := packetLen_spec q
  unfold eslBufferReadPacket
  rw [hfound]
  cases hk : packetLen q with
  | some k =>
    rw [hk] at hspec
    obtain ⟨hle, hpacket⟩ := hspec
    have hnot : ¬Lured outside b q := fun hlured => hlured.1 ⟨_, hpacket⟩
    refine iff_of_true (.inl ⟨_, hpacket, ?_⟩) hnot
    simp only [found, hk]
    rw [Nat.add_sub_cancel_left, if_neg (by omega), (h.read k).2, Nat.min_eq_left hle, List.length_take,
      Nat.min_eq_left hle]
  | none =>
    rw [hk] at hspec
    have hnone : ¬∃ v, Packet q v := fun ⟨v, hv⟩ => hspec v hv.isPrefix hv.terminated
    simp only [found, hk]
    by_cases hopen : Open q ∧ Esl.byteAt outside b (b.head + b.used) = 10
    · refine iff_of_false (fun hexpected => ?_) (not_not_intro ⟨hnone, hopen⟩)
      rw [if_pos hopen] at hexpected
      have hall : q.length ≤
          if b.head + b.used + 1 - b.head > maxlen then maxlen else b.head + b.used + 1 - b.head := by
        split <;> omega
      simp only [(h.read _).2, Nat.min_eq_right hall] at hexpected
      rcases hexpected with ⟨v, hv, -⟩ | ⟨-, hreply⟩
      · exact hnone ⟨v, hv⟩
      · have hempty : q.length = 0 := congrArg Reply.ret hreply
        exact not_open_nil (List.length_eq_zero_iff.mp hempty ▸ hopen.1)
    · refine iff_of_true (.inr ⟨hnone, ?_⟩) fun hlured => hopen hlured.2
      rw [if_neg hopen]
      simp only [(h.read 0).2]
      simp

/-- **Packets come out as they went in, unless old bytes are taken for the end of one.** -/
theorem readPacket_expected_iff {blocksize startLen : UInt64} {b₀ b : EslBuffer}
    (hcreate : eslBufferCreate blocksize startLen 0 = some b₀)
    {labels : List (Call × Reply)} (hrun : Run Step b₀ labels b)
    (hlabels : ∀ label ∈ labels, NonNul label)
    (outside : Nat → UInt8) {maxlen : Nat} (hmax : b.used ≤ maxlen) :
    Expected (labels.foldl after []) (eslBufferReadPacket outside b maxlen).2 ↔
      ¬Lured outside b (labels.foldl after []) :=
  (Holds.run hrun (holds_create hcreate)).expected_iff
    (zero_notMem_foldl hlabels List.not_mem_nil) outside hmax

/-- Four bytes of room. The two bytes of the second chunk are put before those of the first one that are
read. -/
def reused : List (Call × Reply) :=
  [(.write ⟨[97, 10, 10, 10], by decide⟩, { ret := 4 }),
    (.readPacket (fun _ => 0) 100, { ret := 3, out := [97, 10, 10] }),
    (.read 1, { ret := 1, out := [10] }),
    (.write ⟨[98, 10], by decide⟩, { ret := 2 })]

def reusedBuffer : EslBuffer :=
  { data := some [98, 10, 10, 10], head := 0, used := 2, actuallyUsed := 2, datalen := 4, maxLen := 0,
    blocksize := 4 }

def newBuffer : EslBuffer :=
  { data := some [0, 0, 0, 0], head := 0, used := 0, actuallyUsed := 0, datalen := 4, maxLen := 0,
    blocksize := 4 }

theorem create_newBuffer : eslBufferCreate 4 4 0 = some newBuffer := by decide +kernel

/-- The buffer behind the first write. -/
def filledBuffer : EslBuffer :=
  { reusedBuffer with data := some [97, 10, 10, 10], used := 4, actuallyUsed := 4 }

theorem step_filled :
    Step newBuffer (.write ⟨[97, 10, 10, 10], by decide⟩, { ret := 4 }) filledBuffer :=
  ⟨fun _ => none, by decide +kernel⟩

theorem run_reused : Run Step newBuffer reused reusedBuffer := by
  have hpacket : Step filledBuffer
      (.readPacket (fun _ => 0) 100, { ret := 3, out := [97, 10, 10] })
      { reusedBuffer with data := some [97, 10, 10, 10], head := 3, used := 1, actuallyUsed := 4 } :=
    ⟨fun _ => none, by decide +kernel⟩
  have hread :
      Step { reusedBuffer with data := some [97, 10, 10, 10], head := 3, used := 1, actuallyUsed := 4 }
      (.read 1, { ret := 1, out := [10] })
      { reusedBuffer with data := some [97, 10, 10, 10], head := 4, used := 0, actuallyUsed := 4 } :=
    ⟨fun _ => none, by decide +kernel⟩
  have hsecond :
      Step { reusedBuffer with data := some [97, 10, 10, 10], head := 4, used := 0, actuallyUsed := 4 }
      (.write ⟨[98, 10], by decide⟩, { ret := 2 }) reusedBuffer :=
    ⟨fun _ => none, by decide +kernel⟩
  exact .cons step_filled (.cons hpacket (.cons hread (.cons hsecond (.nil _))))

theorem nonNul_reused : ∀ label ∈ reused, NonNul label := by
  intro label hlabel src hsrc
  simp only [reused, List.mem_cons, List.not_mem_nil, or_false] at hlabel
  rcases hlabel with rfl | rfl | rfl | rfl
  · cases hsrc
    decide
  · exact nomatch hsrc
  · exact nomatch hsrc
  · cases hsrc
    decide

/-- Behind the first write there is a packet, and it is what comes out. -/
theorem readPacket_expected_iff_filled :
    Expected ((reused.take 1).foldl after []) (eslBufferReadPacket (fun _ => 0) filledBuffer 100).2 :=
  (readPacket_expected_iff create_newBuffer (.cons step_filled (.nil _))
    (fun label hlabel => nonNul_reused label (List.mem_of_mem_take (i := 1) hlabel)) (fun _ => 0)
      (by decide)).mpr
    fun hlured => hlured.1 ⟨[97, 10, 10], (packetLen_spec [97, 10, 10, 10]).2⟩

/-- A line that is not followed by an empty one comes out as a packet. -/
theorem expected_not_reused : eslBufferCreate 4 4 0 = some newBuffer ∧
    Run Step newBuffer reused reusedBuffer ∧ (∀ label ∈ reused, NonNul label) ∧
      (eslBufferReadPacket (fun _ => 0) reusedBuffer 100).2 = { ret := 2, out := [98, 10] } ∧
        ¬Expected (reused.foldl after []) (eslBufferReadPacket (fun _ => 0) reusedBuffer 100).2 := by
  refine ⟨create_newBuffer, run_reused, nonNul_reused, by decide +kernel, ?_⟩
  have hholds : Holds reusedBuffer (reused.foldl after []) :=
    Holds.run run_reused (holds_create create_newBuffer)
  rw [hholds.expected_iff (by decide) (fun _ => 0) (by decide), not_not]
  refine ⟨?_, by decide, by decide⟩
  rintro ⟨v, hv⟩
  exact packetLen_spec (reused.foldl after []) v hv.isPrefix hv.terminated

end FreeSwitch.Esl
