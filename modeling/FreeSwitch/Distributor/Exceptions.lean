import FreeSwitch.Distributor.FindNext

/-!
# `find_next` with exceptions

A node whose name is among the exceptions uses up one of its weight all the same when the loop comes to
it, and the list is reset on the way only with a single node left. The loop gives up after a thousand
turns.

* **`Named.loop_left`** — an allowed node that is left is at most one round away.
* **`Named.loop_used`** — if none is, the others are used up first, with at most two turns for a unit of
  their weights.
* **`findNext_allowed`** — so in every state a node is found within the turns there are if the list is
  small enough.
-/

namespace FreeSwitch.Distributor

open CString Budgets

variable {n : Nat} {w b : Fin n → Nat} {list : DistList} {names exceptions : List Str}

/-- The names are given as well. -/
structure Named (names : List Str) (w b : Fin n → Nat)
    (list : DistList) : Prop extends Holds w b list where
  names : list.nodes.map DistNode.name = names

def Allowed (names exceptions : List Str) (i : Nat) : Prop :=
  ∃ name, names[i]? = some name ∧ name ∉ exceptions

theorem Named.allowed_iff (h : Named names w b list) {i : Nat} :
    Allowed names exceptions i ↔ ∃ np, list.nodes[i]? = some np ∧ np.name ∉ exceptions := by
  unfold Allowed
  rw [← h.names, List.getElem?_map]
  constructor
  · rintro ⟨name, hname, hnot⟩
    obtain ⟨np, hnp, rfl⟩ := Option.map_eq_some_iff.mp hname
    exact ⟨np, hnp, hnot⟩
  · rintro ⟨np, hnp, hnot⟩
    exact ⟨np.name, Option.map_eq_some_iff.mpr ⟨np, hnp, rfl⟩, hnot⟩

theorem Named.any_iff (h : Named names w b list) (i : Fin n) :
    (list.nodes[i.val]?.any fun np => np.name ∈ exceptions) = true ↔ ¬Allowed names exceptions i := by
  obtain ⟨np, hnp, -⟩ := h.node i
  rw [h.allowed_iff, hnp]
  simp

theorem Named.take (h : Named names w b list) {i : Fin n} (hpos : 0 < b i) :
    Named names w (Function.update b i (b i - 1)) (take list i) := by
  refine ⟨h.toHolds.take hpos, h.names ▸ ?_⟩
  refine List.ext_getElem? fun j => ?_
  show ((list.nodes.modify i.val _).map _)[j]? = _
  rw [List.getElem?_map, List.getElem?_map, List.getElem?_modify]
  cases list.nodes[j]? with
  | none => rfl
  | some np =>
    by_cases hij : i.val = j
    · simp [hij]
    · simp [hij]

theorem Named.restart (h : Named names w b list) : Named names w b { list with last := -1 } :=
  ⟨h.toHolds.restart, h.names⟩

theorem Named.reset (h : Named names w b list) : Named names w w (resetList list) := by
  refine ⟨h.toHolds.reset, h.names ▸ ?_⟩
  show (list.nodes.map _).map _ = _
  rw [List.map_map]
  rfl

/-- Whatever is given back is allowed, and the list goes on as one that was loaded. -/
theorem Named.loop (h : Named names w b list) (loops : Nat) :
    (∀ i, (findNextLoop exceptions loops list).1 = some i → Allowed names exceptions i) ∧
      ∃ b', Named names w b' (findNextLoop exceptions loops list).2 := by
  induction loops generalizing b list with
  | zero => exact ⟨fun i hi => (nomatch hi), b, h⟩
  | succ loops ih =>
    rcases h.turn exceptions loops with ⟨i, hpos, _, _, list', hlist', hloop⟩ | ⟨_, hloop⟩
    · rw [hloop]
      split
      case isTrue =>
        rcases hlist' with rfl | ⟨rfl, -⟩
        · exact ih (h.take hpos)
        · exact ih (h.take hpos).reset
      case isFalse hany =>
        refine ⟨fun j hj => ?_, _, h.take hpos⟩
        obtain rfl := Option.some.inj hj
        exact not_not.mp (mt (h.any_iff i).mpr hany)
    · rw [hloop]
      split
      · exact ih h.reset
      · exact ih h.restart

/-! ## The turns that are needed -/

/-- To come from the place `last` to `a`, with one turn for each place and one to go back to the
front. -/
def turnsTo (n : Nat) (last a : Int) : Int := if last < a then a - last else n - last + a + 1

/-- An allowed node is left. -/
theorem Named.loop_left (h : Named names w b list) {a : Fin n} (ha : Allowed names exceptions a)
    (hb : 0 < b a) {loops : Nat} (hloops : turnsTo n list.last a ≤ loops) :
    ∃ i, (findNextLoop exceptions loops list).1 = some i := by
  have haPos : 0 ≤ (a : Int) := Int.natCast_nonneg a
  have hlast := h.last
  induction loops generalizing b list with
  | zero =>
    unfold turnsTo at hloops
    split at hloops <;> omega
  | succ loops ih =>
    rcases h.turn exceptions loops with
      ⟨i, hpos, hbehind, hfirst, list', hlist', hloop⟩ | ⟨hnone, hloop⟩
    · rw [hloop]
      split
      case isFalse => exact ⟨i, rfl⟩
      case isTrue hany =>
        have hne : a ≠ i := by
          rintro rfl
          exact (h.any_iff a).mp hany ha
        -- there is still the allowed node, so that the list is not reset
        obtain rfl : list' = Distributor.take list i := by
          rcases hlist' with hlist' | ⟨-, honly⟩
          · exact hlist'
          · exact absurd (honly a hb) hne
        have htake := h.take hpos
        refine ih htake (by rwa [Function.update_of_ne hne]) ?_ htake.last
        show turnsTo n i.val a ≤ loops
        have hfirst := hfirst a hb
        have hne : a.val ≠ i.val := fun heq => hne (Fin.ext heq)
        rw [Fin.le_def] at hfirst
        unfold turnsTo at hloops ⊢
        split at hloops <;> split <;> omega
    · have hpassed := hnone a hb
      have hsome : ¬∀ j, b j = 0 := fun hzero => by
        rw [hzero] at hb
        exact Nat.lt_irrefl 0 hb
      rw [hloop, if_neg hsome]
      refine ih h.restart hb ?_ h.restart.last
      show turnsTo n (-1) a ≤ loops
      unfold turnsTo at hloops ⊢
      rw [if_neg (by omega)] at hloops
      rw [if_pos (by omega)]
      omega

/-- From the start of a block every node is left. -/
theorem Named.loop_start (h : Named names w w list) (hlast : list.last = -1) {a : Fin n}
    (ha : Allowed names exceptions a) (hw : ∀ i, 0 < w i) {loops : Nat} (hloops : n ≤ loops) :
    ∃ i, (findNextLoop exceptions loops list).1 = some i := by
  have hlt := a.isLt
  refine h.loop_left ha (hw a) ?_
  unfold turnsTo
  rw [hlast, if_pos (by omega)]
  omega

/-- Whatever is left. -/
theorem Named.loop_used (h : Named names w b list) {a : Fin n} (ha : Allowed names exceptions a)
    (hw : ∀ i, 0 < w i) {loops : Nat} (hloops : 2 * ∑ i, b i + 1 + n ≤ loops) :
    ∃ i, (findNextLoop exceptions loops list).1 = some i := by
  induction hs : ∑ i, b i generalizing b list loops with
  | zero =>
    obtain ⟨loops, rfl⟩ : ∃ m, loops = m + 1 := ⟨loops - 1, by omega⟩
    have hzero : ∀ i, b i = 0 := fun i => Finset.sum_eq_zero_iff.mp hs i (Finset.mem_univ i)
    rcases h.turn exceptions loops with ⟨i, hpos, -⟩ | ⟨_, hloop⟩
    · rw [hzero] at hpos
      exact absurd hpos (Nat.lt_irrefl 0)
    · rw [hloop, if_pos hzero]
      exact h.reset.loop_start rfl ha hw (by omega)
  | succ s ih =>
    -- after a turn that found a node
    have hfound : ∀ {list₁ list' : DistList} {i : Fin n} {m : Nat}, Named names w b list₁ → 0 < b i →
        (list' = Distributor.take list₁ i ∨ list' = resetList (Distributor.take list₁ i) ∧ ∀ j,
          0 < b j → j = i) →
          2 * s + 1 + n ≤ m → ∃ k,
          (if (list₁.nodes[i.val]?.any fun np => np.name ∈ exceptions) = true then
            findNextLoop exceptions m list' else (some i.val, Distributor.take list₁ i)).1 =
              some k := by
      intro list₁ list' i m h₁ hpos hlist' hm
      have hspent := sum_of_spends ⟨hpos, rfl⟩
      split
      case isFalse => exact ⟨i, rfl⟩
      case isTrue =>
        rcases hlist' with rfl | ⟨rfl, -⟩
        · exact ih (h₁.take hpos) (by omega) (by omega)
        · exact (h₁.take hpos).reset.loop_start rfl ha hw (by omega)
    obtain ⟨loops, rfl⟩ : ∃ m, loops = m + 2 := ⟨loops - 2, by omega⟩
    rcases h.turn exceptions (loops + 1) with ⟨i, hpos, _, _, list', hlist', hloop⟩ | ⟨-, hloop⟩
    · rw [hloop]
      exact hfound h hpos hlist' (by omega)
    -- back to the front, where something is left
    have hsome : ¬∀ j, b j = 0 := fun hzero => by
      rw [Finset.sum_eq_zero fun i _ => hzero i] at hs
      exact nomatch hs
    rw [hloop, if_neg hsome]
    rcases h.restart.turn exceptions loops with ⟨i, hpos, _, _, list', hlist', hloop⟩ | ⟨hnone, -⟩
    · rw [hloop]
      exact hfound h.restart hpos hlist' (by omega)
    · obtain ⟨j, hj⟩ := not_forall.mp hsome
      have : (j : Int) ≤ -1 := hnone j (Nat.pos_of_ne_zero hj)
      omega

/-! ## Lists that were loaded -/

theorem Holds.sum_left (h : Holds w b list) :
    (list.nodes.map fun np => list.targetWeight - np.curWeight).sum = (∑ i, b i : Nat) := by
  have hmap : (list.nodes.map fun np => list.targetWeight - np.curWeight) = List.ofFn fun i =>
      (b i : Int) := by
    refine List.ext_getElem (by rw [List.length_map, List.length_ofFn, h.length]) fun i _ hi => ?_
    rw [List.length_ofFn] at hi
    obtain ⟨np, hnp, -, hcur⟩ := h.node ⟨i, hi⟩
    obtain ⟨hlt, rfl⟩ := List.getElem?_eq_some_iff.mp hnp
    have htarget := h.target
    rw [List.getElem_map, List.getElem_ofFn]
    show list.targetWeight - list.nodes[(⟨i, hi⟩ : Fin n).val].curWeight = b ⟨i, hi⟩
    omega
  rw [hmap, List.sum_ofFn, Nat.cast_sum]

theorem total_lt_of_calcWeight {lp lp' : DistList} (h : calcWeight lp = some lp') :
    total lp.nodes < 2 ^ 31 := by
  obtain ⟨target, htarget, -⟩ := Option.bind_eq_some_iff.mp h
  have heq := Checked.eq_of_addWhere _ _ htarget
  have hrange := Checked.inRange_of_addWhere _ _ (by decide) htarget
  rw [Int.zero_add] at heq
  exact (show target = total lp.nodes from heq) ▸ hrange.2

/-- The list after a sequence of calls, each with its exceptions. -/
def afterCalls (lp : DistList) (calls : List (List Str)) : DistList :=
  calls.foldl (fun list exceptions => (findNext list exceptions).2) lp

theorem Named.afterCalls (h : Named names w b list) (calls : List (List Str)) :
    ∃ b', Named names w b' (afterCalls list calls) := by
  apply List.foldlRecOn (motive := fun list => ∃ b, Named names w b list) _ _ ⟨b, h⟩
  exact fun _ ⟨_, h⟩ _ _ => (h.loop 1000).2

theorem named_of_loadList {name : Str} {params : List (Str × Str)} {lp : DistList}
    (hload : loadList name params = some lp) :
    ∃ (w : Fin (loadNodes params).length → Nat),
      (∀ i, 0 < w i) ∧ Named (lp.nodes.map DistNode.name) w w lp := by
  have hpos : ∀ np ∈ loadNodes params, 1 ≤ np.wval := fun np => one_le_of_mem_loadNodes
  unfold loadList at hload
  rw [calcWeight_eq hpos (total_lt_of_calcWeight hload)] at hload
  obtain rfl := Option.some.inj hload
  exact ⟨weights (loadNodes params), fun i => Int.pos_iff_toNat_pos.mp (hpos _ (List.get_mem _ i)),
    holds_load name hpos, rfl⟩

/-- An allowed node is left, or what is left of all weights is soon used up. -/
def Near (list : DistList) (exceptions : List Str) : Prop :=
  (∃ np ∈ list.nodes, np.name ∉ exceptions ∧ np.curWeight < list.targetWeight) ∨
    2 * (list.nodes.map fun np => list.targetWeight - np.curWeight).sum + list.nodeCount ≤ 999

/-- **A node that is given back is allowed, and one is given back if there are turns enough to come to
it.** -/
theorem findNext_allowed (name : Str) (params : List (Str × Str)) (lp : DistList)
    (hload : loadList name params = some lp) (calls : List (List Str)) (exceptions : List Str) :
    (∀ i, (findNext (afterCalls lp calls) exceptions).1 = some i →
      ∃ np, (afterCalls lp calls).nodes[i]? = some np ∧ np.name ∉ exceptions) ∧
    ((∃ np ∈ (afterCalls lp calls).nodes, np.name ∉ exceptions) →
      (afterCalls lp calls).nodeCount ≤ 999 →
      Near (afterCalls lp calls) exceptions → ∃ i,
      (findNext (afterCalls lp calls) exceptions).1 = some i) := by
  obtain ⟨w, hw, hstart⟩ := named_of_loadList hload
  obtain ⟨b, h⟩ := hstart.afterCalls calls
  generalize afterCalls lp calls = list, (loadNodes params).length = n,
    lp.nodes.map DistNode.name = names at *
  -- the nodes by their places
  have hplace : ∀ {np}, np ∈ list.nodes → np.name ∉ exceptions →
      ∃ a : Fin n, list.nodes[a.val]? = some np ∧ Allowed names exceptions a := by
    intro np hnp hnot
    obtain ⟨a, ha⟩ := List.mem_iff_getElem?.mp hnp
    have hlt : a < n := h.length ▸ (List.getElem?_eq_some_iff.mp ha).1
    exact ⟨⟨a, hlt⟩, ha, h.allowed_iff.mpr ⟨np, ha, hnot⟩⟩
  refine ⟨fun i hi => h.allowed_iff.mp ((h.loop 1000).1 i hi), fun ⟨np, hnp, hnot⟩ hcount hnear => ?_⟩
  rw [h.count] at hcount
  rcases hnear with ⟨np, hnp, hnot, hleft⟩ | hnear
  · obtain ⟨a, hget, ha⟩ := hplace hnp hnot
    refine h.loop_left ha ((h.left_iff a).mp ⟨np, hget, hleft⟩) ?_
    have hlt := a.isLt
    have hlast := h.last
    unfold turnsTo
    split <;> omega
  · obtain ⟨a, -, ha⟩ := hplace hnp hnot
    rw [h.sum_left, h.count] at hnear
    exact h.loop_used ha hw (by omega)

/-- The names `a`, `b`, `c` with the weights `400`, `1`, `400`. -/
def threeNodes : List (Str × Str) :=
  [(bytes "a", bytes "400"), (bytes "b", bytes "1"), (bytes "c", bytes "400")]

/-- The node between two excepted ones is found. -/
theorem findNext_allowed_three : ∃ lp, loadList (bytes "l") threeNodes = some lp ∧
    (∀ i, (findNext (afterCalls lp []) [bytes "a", bytes "c"]).1 = some i →
      ∃ np, (afterCalls lp []).nodes[i]? = some np ∧ np.name ∉ [bytes "a", bytes "c"]) ∧
    ∃ i, (findNext (afterCalls lp []) [bytes "a", bytes "c"]).1 = some i := by
  have hload : loadList (bytes "l") threeNodes =
      some ((loadList (bytes "l") threeNodes).get (by decide +kernel)) := by
    decide +kernel
  have hall := findNext_allowed (bytes "l") threeNodes _ hload [] [bytes "a", bytes "c"]
  exact ⟨_, hload, hall.1, hall.2 (by decide +kernel) (by decide +kernel) (.inl (by decide +kernel))⟩

/-- The only allowed node is used up by the first call. In the second one the loop gives up before it
has used up the other two. -/
theorem findNext_gives_up : ∃ lp, loadList (bytes "l") threeNodes = some lp ∧
    (∃ np ∈ (afterCalls lp [[bytes "a", bytes "c"]]).nodes, np.name ∉ [bytes "a", bytes "c"]) ∧
      (findNext (afterCalls lp [[bytes "a", bytes "c"]]) [bytes "a", bytes "c"]).1 = none :=
  ⟨(loadList (bytes "l") threeNodes).get (by decide +kernel), by decide +kernel, by decide +kernel,
    by decide +kernel⟩

end FreeSwitch.Distributor
