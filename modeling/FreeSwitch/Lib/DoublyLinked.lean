import Mathlib.Tactic

/-!
# Doubly linked lists in a heap

The nodes of a heap have two link fields each, and a list has a pointer to its first node. `Lists c l`
says that the links are those of the nodes `l` in their order: what stands behind a node in `l` is its
next one, what stands before it the previous one.

* **`Lists.inverse`**, **`Lists.prev_head`** — the two links belong together.
* **`walk_eq`** — a walk from the head finds the first node with a property.
* **`Lists.push`**, **`Lists.unlink`** — a node is put in front, and one is taken out anywhere.
* **`Follows`** — one link leads through a list; **`Lists.of_follows`**: both links do.
-/

namespace DoublyLinked

structure Chain (α : Type*) where
  head : Option α
  next : α → Option α
  prev : α → Option α

namespace Chain

variable {α : Type*} {c : Chain α} {l : List α} {x : α}

structure Lists (c : Chain α) (l : List α) : Prop where
  head : c.head = l.head?
  nodup : l.Nodup
  links : ∀ as a bs, l = as ++ a :: bs → c.next a = bs.head? ∧ c.prev a = as.getLast?

theorem Lists.prev_head (h : c.Lists l) {a : α} (ha : c.head = some a) : c.prev a = none := by
  rw [h.head] at ha
  obtain ⟨bs, rfl⟩ := List.head?_eq_some_iff.mp ha
  exact (h.links [] a bs rfl).2

theorem Lists.inverse (h : c.Lists l) {a b : α} (ha : a ∈ l) (hb : b ∈ l) :
    c.next a = some b ↔ c.prev b = some a := by
  constructor
  · intro hnext
    obtain ⟨as, bs, rfl⟩ := List.append_of_mem ha
    rw [(h.links as a bs rfl).1] at hnext
    obtain ⟨bs, rfl⟩ := List.head?_eq_some_iff.mp hnext
    rw [(h.links (as ++ [a]) b bs (by simp)).2, List.getLast?_concat]
  · intro hprev
    obtain ⟨as, bs, rfl⟩ := List.append_of_mem hb
    rw [(h.links as b bs rfl).2] at hprev
    obtain ⟨as, rfl⟩ := List.getLast?_eq_some_iff.mp hprev
    rw [(h.links as a (b :: bs) (by simp)).1]
    rfl

/-! ## Walks -/

/-- `for (np = cur; np; np = np->next) if (stop(np)) break`, with `np` where it ends; `none` when the
fuel does not suffice. -/
def walk (next : α → Option α) (stop : α → Bool) : Nat → Option α → Option (Option α)
  | _, none => some none
  | 0, some _ => none
  | fuel + 1, some np => if stop np then some (some np) else walk next stop fuel (next np)

theorem walk_eq {stop : α → Bool} {np : Option α} (fuel : Nat) (cur : Option α) (as : List α) :
    ∀ bs, c.Lists (as ++ bs) → cur = bs.head? → walk c.next stop fuel cur = some np →
      np = bs.find? stop := by
  induction fuel generalizing cur as with
  | zero =>
    rintro (_ | ⟨b, bs⟩) h rfl hwalk
    · exact (Option.some.inj hwalk).symm
    · cases hwalk
  | succ fuel ih =>
    rintro (_ | ⟨b, bs⟩) h rfl hwalk
    · exact (Option.some.inj hwalk).symm
    · rw [List.head?_cons, walk] at hwalk
      rw [List.find?_cons]
      cases hstop : stop b with
      | true =>
        rw [hstop, if_pos rfl] at hwalk
        exact (Option.some.inj hwalk).symm
      | false =>
        rw [hstop, if_neg (by decide), (h.links as b bs rfl).1] at hwalk
        exact ih _ (as ++ [b]) bs (by simpa using h) rfl hwalk

theorem walk_isSome {stop : α → Bool} (fuel : Nat) (as : List α) :
    ∀ bs, c.Lists (as ++ bs) → bs.length ≤ fuel → (walk c.next stop fuel bs.head?).isSome := by
  induction fuel generalizing as with
  | zero =>
    intro bs _ hfuel
    rw [List.length_eq_zero_iff.mp (Nat.le_zero.mp hfuel)]
    rfl
  | succ fuel ih =>
    rintro (_ | ⟨b, bs⟩) h hfuel
    · rfl
    · rw [List.head?_cons, walk, (h.links as b bs rfl).1]
      split
      · rfl
      · exact ih (as ++ [b]) bs (by simpa using h) (Nat.le_of_succ_le_succ hfuel)

/-! ## One link -/

/-- The link leads from each node of the list to the one behind it, and from the last one to `stop`. -/
def Follows (link : α → Option α) (stop : Option α) : List α → Prop
  | [] => True
  | a :: l => link a = l.head?.or stop ∧ Follows link stop l

variable {link link' : α → Option α} {stop : Option α} {m : List α}

theorem follows_append :
    Follows link stop (l ++ m) ↔ Follows link (m.head?.or stop) l ∧ Follows link stop m := by
  induction l with
  | nil => simp [Follows]
  | cons a l ih =>
    rw [List.cons_append, Follows, Follows, ih, List.head?_append, Option.or_assoc, and_assoc]

theorem Follows.frame (h : Follows link stop l) (hsame : ∀ a ∈ l, link' a = link a) :
    Follows link' stop l := by
  induction l with
  | nil => trivial
  | cons a l ih =>
    refine ⟨(hsame a List.mem_cons_self).trans h.1, ih h.2 ?_⟩
    intro b hb
    exact hsame b (List.mem_cons_of_mem a hb)

theorem Lists.of_follows (hhead : c.head = l.head?) (hnodup : l.Nodup) (hnext : Follows c.next none l)
    (hprev : Follows c.prev none l.reverse) : c.Lists l := by
  refine ⟨hhead, hnodup, ?_⟩
  rintro as a bs rfl
  rw [List.reverse_append, List.reverse_cons, List.append_assoc, follows_append] at hprev
  have ha : c.prev a = as.reverse.head?.or none := hprev.2.1
  rw [List.head?_reverse, Option.or_none] at ha
  have hb := (follows_append.mp hnext).2.1
  rw [Option.or_none] at hb
  exact ⟨hb, ha⟩

theorem Lists.follows (h : c.Lists l) : Follows c.next none l := by
  have hlinks := h.links
  suffices hsuffix : ∀ as bs, l = as ++ bs → Follows c.next none bs from hsuffix [] l rfl
  intro as bs
  induction bs generalizing as with
  | nil =>
    intro _
    trivial
  | cons a bs ih =>
    intro hl
    refine ⟨?_, ih (as ++ [a]) (by rw [hl, List.append_assoc]; rfl)⟩
    rw [Option.or_none]
    exact (hlinks as a bs hl).1

/-! ## Changes -/

variable [DecidableEq α]

/-- `if (head) head->prev = x; x->next = head; x->prev = NULL; head = x`. -/
def push (c : Chain α) (x : α) : Chain α :=
  { head := some x
    next := Function.update c.next x c.head
    prev := Function.update (match c.head with
      | some a => Function.update c.prev a (some x)
      | none => c.prev) x none }

/-- The node is taken out: its neighbours are linked to each other. -/
def unlink (c : Chain α) (x : α) : Chain α :=
  let c :=
    if c.head = some x then { c with head := c.next x }
    else match c.prev x with
      | some p => { c with next := Function.update c.next p (c.next x) }
      | none => c
  let c := match c.next x with
    | some n => { c with prev := Function.update c.prev n (c.prev x) }
    | none => c
  { c with next := Function.update c.next x none, prev := Function.update c.prev x none }

theorem Lists.push (h : c.Lists l) (hx : x ∉ l) : (c.push x).Lists (x :: l) := by
  refine ⟨rfl, List.nodup_cons.mpr ⟨hx, h.nodup⟩, fun as a bs hl => ?_⟩
  cases as with
  | nil =>
    obtain ⟨rfl, rfl⟩ := List.cons.inj hl
    exact ⟨(Function.update_self ..).trans h.head, Function.update_self ..⟩
  | cons a' as =>
    obtain ⟨rfl, rfl⟩ := List.cons.inj hl
    obtain ⟨hnext, hprev⟩ := h.links as a bs rfl
    have hne : a ≠ x := fun heq => hx (heq ▸ by simp)
    refine ⟨(Function.update_of_ne hne ..).trans hnext, (Function.update_of_ne hne ..).trans ?_⟩
    rw [h.head]
    cases as with
    | nil => exact Function.update_self ..
    | cons b as =>
      -- only the first node has got a new one before it
      have hhead : a ≠ b := fun heq => (List.nodup_cons.mp h.nodup).1 (heq ▸ by simp)
      rw [List.getLast?_cons_cons, ← hprev]
      exact Function.update_of_ne hhead ..

/-- What is left of the links: those of the two neighbours are new. -/
theorem unlink_links {as bs : List α} (h : c.Lists (as ++ x :: bs)) :
    (c.unlink x).head = (as ++ bs).head? ∧
    ∀ a, a ≠ x → (c.unlink x).next a = (if as.getLast? = some a then bs.head? else c.next a) ∧
      (c.unlink x).prev a = (if bs.head? = some a then as.getLast? else c.prev a) := by
  obtain ⟨hnext, hprev⟩ := h.links as x bs rfl
  have hhead := h.head
  have hbefore : as ≠ [] → c.head ≠ some x := by
    intro hne heq
    obtain ⟨b, as, rfl⟩ := List.exists_cons_of_ne_nil hne
    obtain rfl : b = x := Option.some.inj (hhead.symm.trans heq)
    exact (List.nodup_cons.mp h.nodup).1 (by simp)
  rcases as.eq_nil_or_concat' with rfl | ⟨as, p, rfl⟩
  · rw [List.nil_append, List.head?_cons] at hhead
    refine ⟨by cases bs <;> simp [unlink, hhead, hnext], fun a ha => ?_⟩
    cases bs with
    | nil => simp [unlink, hhead, hnext, ha]
    | cons n bs => simp [unlink, hhead, hnext, hprev, ha, Function.update_apply, eq_comm]
  · rw [List.getLast?_concat] at hprev ⊢
    have hp : x ≠ p := by
      rintro rfl
      exact (List.nodup_append.mp h.nodup).2.2 x (by simp) x (by simp) rfl
    have hfirst : c.head = (as ++ [p] ++ bs).head? := by
      rw [hhead]
      cases as <;> rfl
    refine ⟨by cases bs <;> simpa [unlink, hbefore (by simp), hnext, hprev, hp] using hfirst,
      fun a ha => ?_⟩
    cases bs with
    | nil => simp [unlink, hbefore (by simp), hnext, hprev, ha, Function.update_apply, eq_comm]
    | cons n bs => simp [unlink, hbefore (by simp), hnext, hprev, ha, hp,
        Function.update_apply, eq_comm]

theorem Lists.unlink (h : c.Lists l) (hx : x ∈ l) : (c.unlink x).Lists (l.erase x) := by
  obtain ⟨as, bs, rfl⟩ := List.append_of_mem hx
  obtain ⟨has, hbs, hdisjoint⟩ := List.nodup_append.mp h.nodup
  obtain ⟨hxbs, hbs⟩ := List.nodup_cons.mp hbs
  have hxas : x ∉ as := fun hmem => hdisjoint x hmem x List.mem_cons_self rfl
  rw [List.erase_append_right _ hxas, List.erase_cons_head]
  obtain ⟨hhead, hlinks⟩ := unlink_links h
  refine ⟨hhead,
    List.nodup_append.mpr ⟨has, hbs, fun a ha b hb => hdisjoint a ha b (List.mem_cons_of_mem x hb)⟩,
    fun as' a bs' hl => ?_⟩
  -- a node behind the one that is taken out
  have hbehind : ∀ cs, as' = as ++ cs → bs = cs ++ a :: bs' →
      (c.unlink x).next a = bs'.head? ∧ (c.unlink x).prev a = as'.getLast? := by
    rintro cs rfl rfl
    obtain ⟨hnext, hprev⟩ := hlinks a fun heq => hxbs (heq ▸ by simp)
    obtain ⟨hnext', hprev'⟩ := h.links (as ++ x :: cs) a bs' (by simp)
    rw [hnext, hprev, if_neg fun hlast => hdisjoint a (List.mem_of_getLast? hlast) a (by simp) rfl,
      hnext', hprev']
    refine ⟨rfl, ?_⟩
    cases cs with
    | nil => simp
    | cons d cs =>
      have hd : d ≠ a := fun heq => (List.nodup_cons.mp hbs).1 (heq ▸ by simp)
      simp [hd, List.getLast?_append]
  rcases List.append_eq_append_iff.mp hl with ⟨cs, hcs, hbs'⟩ | ⟨cs, hcs, hbs'⟩
  · exact hbehind cs hcs hbs'
  · cases cs with
    | nil => exact hbehind [] (by simpa using hcs.symm) hbs'.symm
    | cons d cs =>
      obtain ⟨rfl, rfl⟩ := List.cons.inj hbs'
      subst hcs
      obtain ⟨hnext, hprev⟩ := hlinks a fun heq => hxas (heq ▸ by simp)
      obtain ⟨hnext', hprev'⟩ := h.links as' a (cs ++ x :: bs) (by simp)
      have hother : bs.head? ≠ some a := fun hhead => hdisjoint a (by simp) a
        (List.mem_cons_of_mem x (List.mem_of_head? hhead)) rfl
      rw [hnext, hprev, if_neg hother, hnext', hprev']
      refine ⟨?_, rfl⟩
      rcases cs.eq_nil_or_concat' with rfl | ⟨cs, e, rfl⟩
      · simp
      · have he : e ≠ a := by
          rintro rfl
          exact (List.nodup_cons.mp (List.nodup_append.mp has).2.1).1 (by simp)
        have hlast : (as' ++ a :: (cs ++ [e])).getLast? = some e := by
          rw [← List.cons_append, ← List.append_assoc, List.getLast?_concat]
        rw [hlast, if_neg (by simpa using he)]
        simp [List.head?_append]

end Chain
end DoublyLinked
