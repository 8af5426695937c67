import FreeSwitch.JitterBuffer.Store
import FreeSwitch.Lib.BottomUp
import FreeSwitch.Lib.DoublyLinked

/-!
# Sorting the nodes in place

`sort_nodes` sorts the node list of a jitter buffer by its links alone: each pass walks the list by
`next`, merges neighbouring runs and hangs the nodes behind `tail` one at a time. Here the links are a
heap, and a null pointer that is followed is `none`. The `int` counters are numbers: a list of 2^31
nodes of 16 kilobytes does not exist.

* **`Holds`** — what is true at the head of the inner loop: which nodes are done, and which stand in the
  two runs.
* **`mergeLoop_eq`**, **`passLoop_eq`**, **`sortLoop_passes`** — each loop does what `BottomUp` says of
  lists.
* **`sortNodes_sorts`** — the sort; **`sortNodes_refines`** — it is the one of `JitterBuffer.Store`.
-/

namespace FreeSwitch.JitterBuffer.Linked

open BottomUp Bytes DoublyLinked DoublyLinked.Chain

variable {α : Type*}

section Compare

variable (visible : α → Bool) (seq : α → UInt16)

/-- `node_cmp`. -/
def nodeCmp (a b : α) : Int :=
  if !visible a then 0
  else if !visible b then 1
  else ((ntohs (seq a)).toNat : Int) - (ntohs (seq b)).toNat

/-- Invisible nodes come first. -/
def rank (a : α) : Nat := if visible a then (ntohs (seq a)).toNat + 1 else 0

theorem nodeCmp_le_zero (a b : α) :
    nodeCmp visible seq a b ≤ 0 ↔ rank visible seq a ≤ rank visible seq b := by
  unfold nodeCmp rank
  cases visible a with
  | false => simp
  | true =>
    cases visible b with
    | false => simp
    | true =>
      simp only [Bool.not_true, Bool.false_eq_true, if_false, if_true]
      omega

end Compare

/-! ## The loops -/

variable [DecidableEq α]

/-- `if (tail) tail->next = e; else list = e;` and `e->prev = tail;`, where the head of the chain is
`list`. -/
def append (c : Chain α) (tail : Option α) (e : α) : Chain α :=
  match tail with
  | some t =>
    { c with next := Function.update c.next t (some e), prev := Function.update c.prev e tail }
  | none => { c with head := some e, prev := Function.update c.prev e tail }

/-- The variables of the inner loop. -/
structure Merging (α : Type*) where
  chain : Chain α
  tail : Option α
  p : Option α
  q : Option α
  psize : Nat
  qsize : Nat

/-- `e = p; p = p->next; psize--;` and then `e` is added. -/
def Merging.fromP (s : Merging α) (e : α) : Merging α :=
  { s with chain := append s.chain s.tail e, tail := some e, p := s.chain.next e, psize := s.psize - 1 }

/-- `e = q; q = q->next; qsize--;` and then `e` is added. -/
def Merging.fromQ (s : Merging α) (e : α) : Merging α :=
  { s with chain := append s.chain s.tail e, tail := some e, q := s.chain.next e, qsize := s.qsize - 1 }

variable (cmp : α → α → Int)

def mergeStep (s : Merging α) : Option (Merging α) :=
  if s.psize = 0 then s.q.map s.fromQ
  else if s.qsize = 0 then s.p.map s.fromP
  else
    match s.p, s.q with
    | p, none => p.map s.fromP
    | some p, some q => some (if cmp p q ≤ 0 then s.fromP p else s.fromQ q)
    | none, some _ => none

/-- `while (psize > 0 || (qsize > 0 && q))`. Each turn takes one from a size, so their sum is fuel
enough. -/
def mergeLoop : Nat → Merging α → Option (Merging α)
  | 0, s => if 0 < s.psize ∨ 0 < s.qsize ∧ s.q.isSome then none else some s
  | fuel + 1, s =>
    if 0 < s.psize ∨ 0 < s.qsize ∧ s.q.isSome then (mergeStep cmp s).bind (mergeLoop fuel) else some s

/-- `for (i = 0; i < insize; i++)`: `psize` and `q` after it. -/
def stepAlong (next : α → Option α) : Nat → α → Nat × Option α
  | 0, q => (0, some q)
  | i + 1, q =>
    match next q with
    | none => (1, none)
    | some q => ((stepAlong next i q).1 + 1, (stepAlong next i q).2)

/-- `while (p)`: the links and `tail` after it, and `nmerges`. -/
def passLoop (insize : Nat) : Nat → Chain α → Option α → Option α → Option (Chain α × Option α × Nat)
  | _, c, tail, none => some (c, tail, 0)
  | 0, _, _, some _ => none
  | fuel + 1, c, tail, some p =>
    let along := stepAlong c.next insize p
    (mergeLoop cmp (along.1 + insize) ⟨c, tail, some p, along.2, along.1, insize⟩).bind fun s =>
      (passLoop insize fuel s.chain s.tail s.q).map fun done => (done.1, done.2.1, done.2.2 + 1)

/-- `while (1)`; the number of turns of the loops in it is at most `steps`. -/
def sortLoop (steps : Nat) : Nat → Nat → Chain α → Option (Chain α)
  | 0, _, _ => none
  | fuel + 1, insize, c =>
    (passLoop cmp insize steps { c with head := none } none c.head).bind fun done =>
      -- `tail->next = NULL`
      done.2.1.bind fun tail =>
        let c := { done.1 with next := Function.update done.1.next tail none }
        if done.2.2 ≤ 1 then some c else sortLoop steps fuel (insize * 2) c

/-- `sort_nodes`; `none` when the fuel does not suffice or a null pointer is followed. -/
def sortNodes (fuel : Nat) (c : Chain α) : Option (Chain α) :=
  if c.head = none then some c else sortLoop cmp fuel fuel 1 c

/-! ## What is done -/

/-- The nodes behind `list`; what the last of them leads to is not yet known. -/
structure Done (c : Chain α) (out : List α) : Prop where
  head : c.head = out.head?
  next : ∃ stop, Follows c.next stop out
  prev : Follows c.prev none out.reverse

variable {cmp} {c : Chain α} {out : List α} {e : α}

theorem append_next {a : α} (ha : a ∉ out) : (append c out.getLast? e).next a = c.next a := by
  cases hlast : out.getLast? with
  | none => rfl
  | some t =>
    apply Function.update_of_ne
    rintro rfl
    exact ha (List.mem_of_getLast? hlast)

theorem append_prev (c : Chain α) (tail : Option α) (e : α) :
    (append c tail e).prev = Function.update c.prev e tail := by
  cases tail with
  | none => rfl
  | some t => rfl

theorem follows_update_last {o : List α} {t : α} {next : α → Option α} {stop : Option α}
    (h : Follows next stop (o ++ [t])) (hnodup : (o ++ [t]).Nodup) (v : Option α) :
    Follows (Function.update next t v) v (o ++ [t]) := by
  rw [follows_append] at h ⊢
  refine ⟨h.1.frame ?_, Function.update_self t v next, trivial⟩
  intro a ha
  apply Function.update_of_ne
  rintro rfl
  exact (List.disjoint_of_nodup_append hnodup) ha List.mem_cons_self

theorem Done.append (h : Done c out) (hnodup : (out ++ [e]).Nodup) :
    Done (append c out.getLast? e) (out ++ [e]) := by
  have he : e ∉ out := fun hmem => (List.disjoint_of_nodup_append hnodup) hmem List.mem_cons_self
  constructor
  · cases out using List.reverseRecOn with
    | nil => rfl
    | append_singleton o t =>
      rw [List.getLast?_concat, List.head?_append_of_ne_nil _ (by simp)]
      exact h.head
  · -- until now the last node led to where it stood before
    cases out using List.reverseRecOn with
    | nil => exact ⟨_, (Option.none_or).symm, trivial⟩
    | append_singleton o t =>
      obtain ⟨stop, hnext⟩ := h.next
      rw [List.getLast?_concat]
      refine ⟨_, follows_append.mpr ⟨?_, (Option.none_or).symm, trivial⟩⟩
      exact follows_update_last hnext hnodup.of_append_left (some e)
  · rw [List.reverse_append, append_prev]
    refine ⟨?_, h.prev.frame ?_⟩
    · rw [Function.update_self]
      simp
    · intro a ha
      apply Function.update_of_ne
      rintro rfl
      exact he (List.mem_reverse.mp ha)

/-! ## A merge -/

/-- The inner loop with the nodes `lp` left in the first run, and with `lr` from the second run on. -/
structure Holds (s : Merging α) (out lp lr : List α) : Prop where
  nodup : (out ++ (lp ++ lr)).Nodup
  done : Done s.chain out
  tail : s.tail = out.getLast?
  p : lp ≠ [] → s.p = lp.head?
  pnext : ∃ stop, Follows s.chain.next stop lp
  q : s.q = lr.head?
  qnext : Follows s.chain.next none lr
  psize : s.psize = lp.length

variable {s : Merging α} {lp lr : List α}

/-- A node that is not done keeps what it leads to when one is added. -/
theorem Holds.next_eq (h : Holds s out lp lr) {a : α} (ha : a ∈ lp ++ lr) :
    (append s.chain s.tail e).next a = s.chain.next a := by
  rw [h.tail]
  apply append_next
  intro hout
  exact List.disjoint_of_nodup_append h.nodup hout ha

theorem Holds.fromP (h : Holds s out (e :: lp) lr) : Holds (s.fromP e) (out ++ [e]) lp lr := by
  have hnodup : (out ++ [e] ++ (lp ++ lr)).Nodup := by simpa using h.nodup
  obtain ⟨stop, hnext, hrest⟩ := h.pnext
  refine ⟨hnodup, ?_, (List.getLast?_concat).symm, ?_, ⟨stop, ?_⟩, h.q, ?_, ?_⟩
  · rw [Merging.fromP, h.tail]
    exact h.done.append hnodup.of_append_left
  · intro hne
    obtain ⟨b, lp, rfl⟩ := List.exists_cons_of_ne_nil hne
    exact hnext
  · apply hrest.frame
    intro a ha
    exact h.next_eq (by simp [ha])
  · apply h.qnext.frame
    intro a ha
    exact h.next_eq (by simp [ha])
  · rw [Merging.fromP, h.psize]
    rfl

theorem Holds.fromQ (h : Holds s out lp (e :: lr)) : Holds (s.fromQ e) (out ++ [e]) lp lr := by
  have hnodup : (out ++ [e] ++ (lp ++ lr)).Nodup := by
    rw [List.append_assoc]
    exact ((@List.perm_middle _ e lp lr).append_left out).nodup_iff.mp h.nodup
  obtain ⟨stop, hpnext⟩ := h.pnext
  refine ⟨hnodup, ?_, (List.getLast?_concat).symm, h.p, ⟨stop, ?_⟩, ?_, ?_, h.psize⟩
  · rw [Merging.fromQ, h.tail]
    exact h.done.append hnodup.of_append_left
  · apply hpnext.frame
    intro a ha
    exact h.next_eq (by simp [ha])
  · have hnext := h.qnext.1
    rwa [Option.or_none] at hnext
  · apply h.qnext.2.frame
    intro a ha
    exact h.next_eq (by simp [ha])

variable {key : α → Nat}

/-- The loop merges the two runs: one turn takes a node as `List.merge` does. -/
theorem mergeLoop_eq (hcmp : ∀ a b, cmp a b ≤ 0 ↔ key a ≤ key b) (fuel : Nat) :
    ∀ {s : Merging α} {out lp lr : List α}, Holds s out lp lr → s.psize + s.qsize ≤ fuel →
      ∃ s', mergeLoop cmp fuel s = some s' ∧
        Holds s' (out ++ lp.merge (lr.take s.qsize) (byKey key)) [] (lr.drop s.qsize) := by
  induction fuel with
  | zero =>
    intro s out lp lr h hfuel
    have hlp : lp = [] := List.length_eq_zero_iff.mp (by rw [← h.psize]; omega)
    have hq : s.qsize = 0 := by omega
    refine ⟨s, ?_, ?_⟩
    · rw [mergeLoop, if_neg (by omega)]
    · simpa [hlp, hq] using h
  | succ fuel ih =>
    intro s out lp lr h hfuel
    rw [mergeLoop]
    have hpsize := h.psize
    have hqhead := h.q
    cases lp with
    | nil =>
      rw [List.length_nil] at hpsize
      cases hq : s.qsize with
      | zero =>
        rw [if_neg (by omega)]
        exact ⟨s, rfl, by simpa [hq] using h⟩
      | succ qsize =>
        cases lr with
        | nil =>
          rw [if_neg (by simp [hpsize, hqhead])]
          exact ⟨s, rfl, by simpa [hq] using h⟩
        | cons f lr =>
          obtain ⟨s', hloop, hs'⟩ := ih h.fromQ (by show s.psize + (s.qsize - 1) ≤ fuel; omega)
          refine ⟨s', ?_, ?_⟩
          · rw [if_pos (by simp [hqhead]), mergeStep, if_pos hpsize, hqhead]
            exact hloop
          · simpa [Merging.fromQ, hq] using hs'
    | cons e lp =>
      have hp : s.p = some e := h.p (List.cons_ne_nil e lp)
      rw [List.length_cons] at hpsize
      rw [if_pos (by omega), mergeStep, if_neg (by omega)]
      have hrest := ih h.fromP (by show s.psize - 1 + s.qsize ≤ fuel; omega)
      -- with nothing in the second run the node is from the first
      have hfirst : lr.take s.qsize = [] → ∃ s', mergeLoop cmp fuel (s.fromP e) = some s' ∧
          Holds s' (out ++ (e :: lp).merge (lr.take s.qsize) (byKey key)) [] (lr.drop s.qsize) := by
        intro hnil
        obtain ⟨s', hloop, hs'⟩ := hrest
        refine ⟨s', hloop, ?_⟩
        rw [show (s.fromP e).qsize = s.qsize from rfl, hnil, List.merge_right] at hs'
        rw [hnil, List.merge_right]
        simpa using hs'
      cases hq : s.qsize with
      | zero =>
        rw [if_pos rfl, hp]
        rw [hq] at hfirst
        exact hfirst rfl
      | succ qsize =>
        rw [if_neg (by omega), hp]
        cases lr with
        | nil =>
          rw [hqhead]
          rw [hq] at hfirst
          exact hfirst rfl
        | cons f lr =>
          rw [hqhead, List.head?_cons, List.take_succ_cons, List.cons_merge_cons]
          by_cases hle : key e ≤ key f
          · obtain ⟨s', hloop, hs'⟩ := hrest
            refine ⟨s', ?_, ?_⟩
            · simpa [(hcmp e f).mpr hle] using hloop
            · simpa [byKey, hle, Merging.fromP, hq] using hs'
          · obtain ⟨s', hloop, hs'⟩ := ih h.fromQ (by show s.psize + (s.qsize - 1) ≤ fuel; omega)
            refine ⟨s', ?_, ?_⟩
            · simpa [mt (hcmp e f).mp hle] using hloop
            · simpa [byKey, hle, Merging.fromQ, hq] using hs'

/-! ## A pass -/

omit [DecidableEq α] in
theorem stepAlong_eq {next : α → Option α} (i : Nat) {a : α} {l : List α}
    (h : Follows next none (a :: l)) :
    stepAlong next i a = (min i (l.length + 1), ((a :: l).drop i).head?) := by
  induction i generalizing a l with
  | zero => simp [stepAlong]
  | succ i ih =>
    have hnext := h.1
    rw [Option.or_none] at hnext
    rw [stepAlong, hnext]
    cases l with
    | nil => simp
    | cons b l =>
      rw [List.head?_cons]
      dsimp only
      rw [ih h.2, List.length_cons, List.drop_succ_cons, Nat.add_min_add_right]

theorem passLoop_eq (hcmp : ∀ a b, cmp a b ≤ 0 ↔ key a ≤ key b) {w : Nat} (hw : 0 < w) (fuel : Nat) :
    ∀ {c : Chain α} {out l : List α}, Done c out → (out ++ l).Nodup → Follows c.next none l →
      l.length ≤ fuel →
      ∃ c' merged nmerges, passLoop cmp w fuel c out.getLast? l.head? =
        some (c', (out ++ merged).getLast?, nmerges) ∧
        Pass key w l merged nmerges ∧ Done c' (out ++ merged) := by
  induction fuel with
  | zero =>
    intro c out l hdone _ _ hl
    obtain rfl := List.length_eq_zero_iff.mp (Nat.le_zero.mp hl)
    exact ⟨c, [], 0, by rw [List.append_nil]; rfl, Pass.nil, by rwa [List.append_nil]⟩
  | succ fuel ih =>
    intro c out l hdone hnodup hnext hl
    cases l with
    | nil => exact ⟨c, [], 0, by rw [List.append_nil]; rfl, Pass.nil, by rwa [List.append_nil]⟩
    | cons a l =>
      rw [List.head?_cons, passLoop, stepAlong_eq w hnext]
      -- the two runs that are merged, and the rest with the second of them
      have hsplit := hnext
      rw [← List.take_append_drop w (a :: l), follows_append] at hsplit
      have hstart : Holds ⟨c, out.getLast?, some a, ((a :: l).drop w).head?,
          min w (l.length + 1), w⟩ out
          ((a :: l).take w) ((a :: l).drop w) := by
        refine ⟨by rwa [List.take_append_drop], hdone, rfl, ?_, ⟨_, hsplit.1⟩, rfl, hsplit.2, ?_⟩
        · intro _
          rw [List.head?_take, if_neg (by omega)]
          rfl
        · rw [List.length_take, List.length_cons]
      obtain ⟨s, hloop, hs⟩ := mergeLoop_eq hcmp (min w (l.length + 1) + w) hstart le_rfl
      rw [hloop, Option.bind_some]
      have hdrop : ((a :: l).drop w).drop w = (a :: l).drop (w + w) := List.drop_drop
      rw [hdrop] at hs
      obtain ⟨c', merged, nmerges, hpass, hmerged, hc'⟩ := ih hs.done (by simpa using hs.nodup) hs.qnext
        (by rw [List.length_drop]; rw [List.length_cons] at hl ⊢; omega)
      rw [List.append_assoc] at hc' hpass
      refine ⟨c', _, nmerges + 1, ?_, Pass.cons (List.cons_ne_nil a l) hmerged, hc'⟩
      rw [hs.q, hs.tail, hpass]
      rfl

/-! ## The sort -/

theorem sortLoop_passes (hcmp : ∀ a b, cmp a b ≤ 0 ↔ key a ≤ key b) (steps fuel : Nat) :
    ∀ {w : Nat} {c : Chain α} {l : List α}, 0 < w → c.head = l.head? → l.Nodup → Follows c.next none l →
      w ≤ l.length → l.length < w + fuel → l.length ≤ steps →
      ∃ c' l', sortLoop cmp steps fuel w c = some c' ∧ c'.Lists l' ∧ Passes key w l l' := by
  induction fuel with
  | zero =>
    intro w c l _ _ _ _ hle hlt
    omega
  | succ fuel ih =>
    intro w c l hw hhead hnodup hnext hle hlt hsteps
    have hstart : Done { c with head := none } ([] : List α) := ⟨rfl, ⟨none, trivial⟩, trivial⟩
    obtain ⟨c', out, n, hpass, hout, hdone⟩ := passLoop_eq hcmp hw steps hstart hnodup hnext hsteps
    rw [List.nil_append] at hpass hdone
    -- there is a last node, and with its link cleared the list is whole
    have hnodup' : out.Nodup := hout.perm.nodup_iff.mpr hnodup
    obtain ⟨o, t, rfl⟩ : ∃ o t, out = o ++ [t] := by
      rcases List.eq_nil_or_concat out with rfl | ⟨o, t, h⟩
      · have := hout.perm.length_eq
        rw [List.length_nil] at this
        omega
      · exact ⟨o, t, by rw [h, List.concat_eq_append]⟩
    obtain ⟨stop, hstop⟩ := hdone.next
    have hlists : Lists { c' with next := Function.update c'.next t none } (o ++ [t]) :=
      Lists.of_follows hdone.head hnodup' (follows_update_last hstop hnodup' none) hdone.prev
    rw [sortLoop, hhead]
    rw [List.getLast?_nil] at hpass
    rw [hpass, List.getLast?_concat, Option.bind_some, Option.bind_some]
    dsimp only
    by_cases hn : n ≤ 1
    · rw [if_pos hn]
      exact ⟨_, _, rfl, hlists, Passes.last hout hn⟩
    · -- more than one merge: the list is longer than two runs, so the wider pass has fuel
      have hlong := hout.lt_length (by omega)
      rw [if_neg hn, Nat.mul_two]
      rw [← hout.perm.length_eq] at hlong hlt hsteps
      obtain ⟨c'', l', hsort, hl', hpasses⟩ :=
        ih (Nat.add_pos_left hw w) hlists.head hnodup' hlists.follows (by omega) (by omega) hsteps
      exact ⟨c'', l', hsort, hl', Passes.more hout (by omega) hpasses⟩

theorem sortNodes_passes (hcmp : ∀ a b, cmp a b ≤ 0 ↔ key a ≤ key b) {l : List α}
    (hhead : c.head = l.head?)
    (hnodup : l.Nodup) (hnext : Follows c.next none l) {fuel : Nat} (hfuel : l.length ≤ fuel) :
    ∃ c' l', sortNodes cmp fuel c = some c' ∧ c'.Lists l' ∧ Passes key 1 l l' := by
  rw [sortNodes]
  cases l with
  | nil =>
    rw [hhead, List.head?_nil, if_pos rfl]
    exact ⟨c, [], rfl, ⟨hhead, hnodup, by simp⟩, Passes.last Pass.nil (Nat.zero_le 1)⟩
  | cons a l =>
    rw [hhead, if_neg (by simp)]
    exact sortLoop_passes hcmp fuel fuel Nat.one_pos hhead hnodup hnext (by simp) (by omega) hfuel

variable (visible : α → Bool) (seq : α → UInt16)

/-- For every list of nodes that is linked by `next`, whatever its `prev` pointers. -/
theorem sortNodes_sorts (c : Chain α) (l : List α) (fuel : Nat) (hhead : c.head = l.head?)
    (hnodup : l.Nodup) (hnext : Follows c.next none l) (hfuel : l.length ≤ fuel) :
    ∃ c' l', sortNodes (nodeCmp visible seq) fuel c = some c' ∧ c'.Lists l' ∧ l'.Perm l ∧
      l'.Pairwise (fun a b => visible a → visible b ∧ ntohs (seq a) ≤ ntohs (seq b)) ∧
      (∀ a b, [a, b].Sublist l → nodeCmp visible seq a b = 0 → [a, b].Sublist l') ∧
      (∀ a ∈ l', ∀ b ∈ l', c'.next a = some b ↔ c'.prev b = some a) ∧ ∀ a,
      c'.head = some a → c'.prev a = none := by
  obtain ⟨c', l', hsort, hl', hpasses⟩ :=
    sortNodes_passes (nodeCmp_le_zero visible seq) hhead hnodup hnext hfuel
  refine ⟨c', l', hsort, hl', hpasses.perm, ?_, ?_, ?_, ?_⟩
  · apply (hpasses.ordered (runs_one l)).imp
    intro a b hrank ha
    rw [rank, rank, if_pos ha] at hrank
    split at hrank
    · next hb => exact ⟨hb, UInt16.le_iff_toNat_le.mpr (by omega)⟩
    · omega
  · intro a b hab hzero
    exact hpasses.stable (runs_one l) hab ((nodeCmp_le_zero visible seq a b).mp (by omega))
  · intro a ha b hb
    exact hl'.inverse ha hb
  · intro a ha
    exact hl'.prev_head ha

/-- Three nodes, of which the second is hidden. -/
theorem sortNodes_sorts_hidden :
    ∃ c' l', sortNodes (nodeCmp (fun a : Fin 3 => a ≠ 1) fun a => if a = 0 then htons 7 else htons 5) 3
        ⟨some 0, fun a => if a = 0 then some 1 else if a = 1 then some 2 else none,
          fun _ => none⟩ = some c' ∧
      c'.Lists l' ∧ l'.Perm [0, 1, 2] := by
  obtain ⟨c', l', hsort, hl', hperm, _⟩ := sortNodes_sorts (fun a : Fin 3 => a ≠ 1)
    (fun a => if a = 0 then htons 7 else htons 5)
    ⟨some 0, fun a => if a = 0 then some 1 else if a = 1 then some 2 else none, fun _ => none⟩
    [0, 1, 2] 3 rfl (by decide)
    ⟨rfl, rfl, rfl, trivial⟩ (by decide)
  exact ⟨c', l', hsort, hl', hperm⟩

/-! ## The sort of lists -/

section Refinement

variable {β : Type}

def nodeRank : Node β → Nat := rank (fun n => n.inUse) fun n => n.val.seq

theorem nodeLe_eq (a b : Node β) : nodeLe a b = byKey nodeRank a b := by
  unfold nodeLe byKey nodeRank rank
  cases ha : a.inUse with
  | false => simp [ha]
  | true => cases hb : b.inUse <;> simp [ha, hb, UInt16.le_iff_toNat_le]

theorem mergeRuns_eq (fuel : Nat) (p q : List (Node β)) (hfuel : p.length + q.length ≤ fuel) :
    mergeRuns fuel p q = p.merge q (byKey nodeRank) := by
  induction fuel generalizing p q with
  | zero =>
    obtain rfl := List.length_eq_zero_iff.mp (by omega : p.length = 0)
    obtain rfl := List.length_eq_zero_iff.mp (by omega : q.length = 0)
    rw [mergeRuns, List.nil_merge]
    rfl
  | succ fuel ih =>
    cases p with
    | nil => rw [mergeRuns, List.nil_merge]
    | cons e p =>
      cases q with
      | nil =>
        rw [mergeRuns, List.merge_right]
        simp
      | cons f q =>
        rw [List.length_cons, List.length_cons] at hfuel
        rw [mergeRuns, List.cons_merge_cons, nodeLe_eq, ih p (f :: q) (by rw [List.length_cons]; omega),
          ih (e :: p) q (by rw [List.length_cons]; omega)]

theorem mergePass_pass {w : Nat} (hw : 0 < w) (fuel : Nat) (l : List (Node β))
    (hfuel : l.length ≤ fuel) :
    Pass nodeRank w l (mergePass w fuel l).1 (mergePass w fuel l).2 := by
  induction fuel generalizing l with
  | zero =>
    obtain rfl := List.length_eq_zero_iff.mp (Nat.le_zero.mp hfuel)
    exact Pass.nil
  | succ fuel ih =>
    cases l with
    | nil => exact Pass.nil
    | cons a l =>
      rw [mergePass, mergeRuns_eq (2 * w) _ _ (by simp only [List.length_take]; omega), Nat.two_mul]
      apply Pass.cons (List.cons_ne_nil a l)
      apply ih
      rw [List.length_drop]
      rw [List.length_cons] at hfuel ⊢
      omega

theorem list_sortLoop_passes (fuel : Nat) {w : Nat} (hw : 0 < w) (l : List (Node β))
    (hle : w ≤ l.length)
    (hlt : l.length < w + fuel) : Passes nodeRank w l (JitterBuffer.sortLoop fuel w l) := by
  induction fuel generalizing w l with
  | zero => omega
  | succ fuel ih =>
    have hpass := mergePass_pass hw l.length l le_rfl
    rw [JitterBuffer.sortLoop]
    dsimp only
    split
    · next hn => exact Passes.last hpass hn
    · next hn =>
      have hlong := hpass.lt_length (by omega)
      rw [← hpass.perm.length_eq] at hlong hlt
      rw [Nat.mul_two]
      exact Passes.more hpass (by omega) (ih (Nat.add_pos_left hw w) _ (by omega) (by omega))

/-- The sort of the list by its links is the sort of the list. -/
theorem sortNodes_refines [DecidableEq β] {c : Chain (Node β)} {l : List (Node β)}
    (hhead : c.head = l.head?)
    (hnodup : l.Nodup) (hnext : Follows c.next none l) {fuel : Nat} (hfuel : l.length ≤ fuel) :
    ∃ c', sortNodes (nodeCmp (fun n : Node β => n.inUse) fun n => n.val.seq) fuel c = some c' ∧
      c'.Lists (JitterBuffer.sortNodes l) := by
  obtain ⟨c', l', hsort, hl', hpasses⟩ :=
    sortNodes_passes (nodeCmp_le_zero _ _) hhead hnodup hnext hfuel
  refine ⟨c', hsort, ?_⟩
  have hlist : Passes nodeRank 1 l (JitterBuffer.sortNodes l) := by
    cases l with
    | nil => exact Passes.last Pass.nil (Nat.zero_le 1)
    | cons a l => exact list_sortLoop_passes _ Nat.one_pos (a :: l) (by simp) (by omega)
  rwa [← hpasses.unique hlist]

/-- A visible node before a hidden one. -/
theorem sortNodes_refines_swap :
    let a : Node Unit := ⟨0, ⟨⟨2, false, 0, 0, ()⟩, 0⟩, true⟩
    let b : Node Unit := ⟨1, a.val, false⟩
    ∃ c', sortNodes (nodeCmp (fun n : Node Unit => n.inUse) fun n => n.val.seq) 2
      ⟨some a, fun n => if n = a then some b else none, fun _ => none⟩ = some c' ∧ c'.Lists [b, a] := by
  intro a b
  exact sortNodes_refines (l := [a, b]) rfl (by decide) ⟨rfl, rfl, trivial⟩ le_rfl

end Refinement

end FreeSwitch.JitterBuffer.Linked
