import FreeSwitch.Lib.Budgets
import FreeSwitch.Lib.CString
import FreeSwitch.Lib.Checked
import Mathlib.Data.Fintype.BigOperators

/-!
# The lists of `mod_distributor` — `src/mod/applications/mod_distributor/mod_distributor.c`

A node with the weight `wval` starts at `target_weight - wval` and is used up when it has come to
`target_weight`. `find_next` goes round the list from the node that it chose last. It starts again at
the front when nothing is left behind that node, and it resets the list in the call after the one that
used up the last node.

* **`loadList`** — a list as `load_config` makes it.
* **`findNext`** — the next node.
* **`Holds`** — a list holds what is left of each weight. **`Holds.findNext`** is one call: a draw from
  these budgets.
* **`findNexts_exact`** — so a block of as many calls as the weights amount to chooses every node by its
  weight.
-/

namespace FreeSwitch.Distributor

open CString Runs Budgets

structure DistNode where
  name : Str
  weight : Int
  curWeight : Int
  wval : Int
deriving DecidableEq, Repr

/-- `lastnode` is the place of the node in the list. -/
structure DistList where
  name : Str
  targetWeight : Int
  last : Int
  nodeCount : Nat
  lastnode : Option Nat
  nodes : List DistNode
deriving DecidableEq, Repr

/-! ## Loading -/

/-- The sums are of type `int`: there is no result when one leaves the range. -/
def calcWeight (lp : DistList) : Option DistList := do
  let target ← Checked.addWhere (fun _ => true) DistNode.wval lp.nodes 0
  let nodes ← lp.nodes.mapM fun np => do
    let weight ← Checked.add target (-np.wval)
    pure { np with weight := weight, curWeight := weight }
  pure { lp with targetWeight := target, nodes := nodes }

/-- The nodes of a list, from the names and weights that the configuration gives. -/
def loadNodes (params : List (Str × Str)) : List DistNode :=
  params.filterMap fun param => if atoi param.2 < 1 then none else some ⟨param.1, 0, 0, atoi param.2⟩

/-- What `load_config` does for one `list` of the configuration. -/
def loadList (name : Str) (params : List (Str × Str)) : Option DistList :=
  calcWeight ⟨name, 0, -1, (loadNodes params).length, none, loadNodes params⟩

/-! ## The next node -/

def resetList (list : DistList) : DistList :=
  { list with
    nodes := list.nodes.map fun np => { np with curWeight := np.weight }
    last := -1
    lastnode := none }

/-- The loop over the nodes, from the place `x` on: the first node behind `last` that is not used up,
and how many there are that are not. -/
def scan (list : DistList) : List DistNode → Nat → Option Nat → Nat → Option Nat × Nat
  | [], _, found, matched => (found, matched)
  | np :: nodes, x, found, matched =>
    if np.curWeight < list.targetWeight then
      scan list nodes (x + 1) (if found.isNone ∧ list.last < x then some x else found) (matched + 1)
    else scan list nodes (x + 1) found matched

/-- The node at the place `i` is taken. Its counter is below `target_weight`, so it can be raised. -/
def take (list : DistList) (i : Nat) : DistList :=
  { list with
    nodes := list.nodes.modify i fun np => { np with curWeight := np.curWeight + 1 }
    lastnode := some i
    last := i }

def wrap (list : DistList) : DistList :=
  if (list.nodeCount : Int) ≤ list.last then { list with last := -1 } else list

def findNextLoop (exceptions : List Str) : Nat → DistList → Option Nat × DistList
  | 0, list => (none, list)
  | loops + 1, list =>
    match scan (wrap list) (wrap list).nodes 0 none 0 with
    | (some i, matched) =>
      if (wrap list).nodes[i]?.any fun np => np.name ∈ exceptions then
        findNextLoop exceptions loops (if matched = 1 then resetList (take (wrap list) i)
          else take (wrap list) i)
      else (some i, take (wrap list) i)
    | (none, matched) =>
      findNextLoop exceptions loops (if matched ≠ 0 then { wrap list with last := -1 }
        else resetList (wrap list))

/-- The place of the next node, `none` for `NULL`. -/
def findNext (list : DistList) (exceptions : List Str) : Option Nat × DistList :=
  findNextLoop exceptions 1000 list

/-- What a number of calls without exceptions give. -/
def findNexts : Nat → DistList → List (Option Nat)
  | 0, _ => []
  | m + 1, list => (findNext list []).1 :: findNexts m (findNext list []).2

/-! ## The loop over the nodes -/

/-- A node that is not used up. -/
def Left (list : DistList) (nodes : List DistNode) (j : Nat) : Prop :=
  ∃ np, nodes[j]? = some np ∧ np.curWeight < list.targetWeight

variable {nodes : List DistNode}

theorem left_cons_succ {list : DistList} {np : DistNode} {j : Nat} :
    Left list (np :: nodes) (j + 1) ↔ Left list nodes j := by
  unfold Left
  rw [List.getElem?_cons_succ]

theorem le_scan (list : DistList) (nodes : List DistNode) :
    ∀ x found matched, matched ≤ (scan list nodes x found matched).2 := by
  induction nodes with
  | nil => exact fun _ _ matched => le_refl matched
  | cons np nodes ih =>
    intro x found matched
    unfold scan
    split
    · exact (Nat.le_succ matched).trans (ih _ _ _)
    · exact ih _ _ _

theorem scan_of_some (list : DistList) (nodes : List DistNode) (i : Nat) :
    ∀ x matched, (scan list nodes x (some i) matched).1 = some i := by
  induction nodes with
  | nil => exact fun _ _ => rfl
  | cons np nodes ih =>
    intro x matched
    unfold scan
    split
    · exact ih _ _
    · exact ih _ _

/-- What is found is the first node behind `last` that is left. -/
theorem left_of_scan {list : DistList} {i : Nat} :
    ∀ {x matched}, (scan list nodes x none matched).1 = some i → ∃ j, i = x + j ∧ Left list nodes j ∧
      list.last < i ∧
      ∀ k, Left list nodes k → list.last < (x + k : Nat) → j ≤ k := by
  induction nodes with
  | nil => exact fun h => nomatch h
  | cons np nodes ih =>
    intro x matched h
    -- the head is passed over
    have hrest : ∀ {m}, (scan list nodes (x + 1) none m).1 = some i →
        (Left list (np :: nodes) 0 → ¬list.last < x) →
        ∃ j, i = x + j ∧ Left list (np :: nodes) j ∧ list.last < i ∧
          ∀ k, Left list (np :: nodes) k → list.last < (x + k : Nat) → j ≤ k := by
      intro m hscan hhead
      obtain ⟨j, rfl, hj, hlast, hfirst⟩ := ih hscan
      refine ⟨j + 1, by omega, left_cons_succ.mpr hj, hlast, fun k hk hbehind => ?_⟩
      cases k with
      | zero => exact absurd hbehind (hhead hk)
      | succ k => exact Nat.succ_le_succ (hfirst k (left_cons_succ.mp hk) (by omega))
    unfold scan at h
    split at h
    case isFalse hcur =>
      refine hrest h ?_
      rintro ⟨np', hnp', hlt⟩
      cases hnp'
      exact absurd hlt hcur
    case isTrue hcur =>
      by_cases hlast : list.last < x
      · rw [if_pos ⟨rfl, hlast⟩, scan_of_some] at h
        obtain rfl := Option.some.inj h
        exact ⟨0, rfl, ⟨np, rfl, hcur⟩, hlast, fun k _ _ => Nat.zero_le k⟩
      · rw [if_neg fun hboth => hlast hboth.2] at h
        exact hrest h fun _ => hlast

/-- Nothing that is left behind `last` is passed over. -/
theorem scan_eq_none {list : DistList} :
    ∀ {x matched}, (scan list nodes x none matched).1 = none → ∀ j,
      Left list nodes j → ((x + j : Nat) : Int) ≤ list.last := by
  induction nodes with
  | nil =>
    rintro x matched - j ⟨np, hnp, -⟩
    exact nomatch hnp
  | cons np nodes ih =>
    intro x matched h j hj
    unfold scan at h
    split at h
    case isFalse hcur =>
      cases j with
      | zero =>
        obtain ⟨np', hnp', hlt⟩ := hj
        cases hnp'
        exact absurd hlt hcur
      | succ j =>
        have := ih h j (left_cons_succ.mp hj)
        omega
    case isTrue =>
      by_cases hlast : list.last < x
      · rw [if_pos ⟨rfl, hlast⟩, scan_of_some] at h
        exact nomatch h
      · rw [if_neg fun hboth => hlast hboth.2] at h
        cases j with
        | zero => exact not_lt.mp hlast
        | succ j =>
          have := ih h j (left_cons_succ.mp hj)
          omega

theorem scan_matched {list : DistList} :
    ∀ {x found matched}, (scan list nodes x found matched).2 = matched ↔ ∀ j, ¬Left list nodes j := by
  induction nodes with
  | nil =>
    intro x found matched
    refine ⟨fun _ j hj => ?_, fun _ => rfl⟩
    obtain ⟨np, hnp, -⟩ := hj
    exact nomatch hnp
  | cons np nodes ih =>
    intro x found matched
    unfold scan
    split
    case isTrue hcur =>
      have hle := le_scan list nodes (x + 1)
        (if found.isNone ∧ list.last < x then some x else found) (matched + 1)
      exact ⟨fun h => by omega, fun h => absurd ⟨np, rfl, hcur⟩ (h 0)⟩
    case isFalse hcur =>
      rw [ih]
      refine ⟨fun h j hj => ?_, fun h j hj => h (j + 1) (left_cons_succ.mpr hj)⟩
      cases j with
      | zero =>
        obtain ⟨np', hnp', hlt⟩ := hj
        cases hnp'
        exact hcur hlt
      | succ j => exact h j (left_cons_succ.mp hj)

/-- With one node counted, there is no other. -/
theorem scan_matched_one {list : DistList} {i : Nat} :
    ∀ {x found matched}, (scan list nodes x found matched).2 = matched + 1 → Left list nodes i →
      ∀ j, Left list nodes j → j = i := by
  induction nodes generalizing i with
  | nil =>
    rintro x found matched - ⟨np, hnp, -⟩
    exact nomatch hnp
  | cons np nodes ih =>
    intro x found matched h hi j hj
    unfold scan at h
    split at h
    case isTrue hcur =>
      -- the head is the one
      have hnone := scan_matched.mp h
      cases i with
      | succ i => exact absurd (left_cons_succ.mp hi) (hnone i)
      | zero =>
        cases j with
        | succ j => exact absurd (left_cons_succ.mp hj) (hnone j)
        | zero => rfl
    case isFalse hcur =>
      have hhead : ¬Left list (np :: nodes) 0 := by
        rintro ⟨np', hnp', hlt⟩
        cases hnp'
        exact hcur hlt
      cases i with
      | zero => exact absurd hi hhead
      | succ i =>
        cases j with
        | zero => exact absurd hj hhead
        | succ j => exact congrArg Nat.succ (ih h (left_cons_succ.mp hi) j (left_cons_succ.mp hj))

/-! ## What is left of the weights -/

variable {n : Nat} {w b : Fin n → Nat} {list : DistList}

/-- `b` is what is left of the weights `w`. -/
structure Holds (w b : Fin n → Nat) (list : DistList) : Prop where
  target : list.targetWeight = (∑ i, w i : Nat)
  length : list.nodes.length = n
  count : list.nodeCount = n
  last : -1 ≤ list.last ∧ list.last < n
  node : ∀ i : Fin n, ∃ np, list.nodes[i.val]? = some np ∧ np.weight = (∑ i, w i : Nat) - (w i : Int) ∧
    np.curWeight = (∑ i, w i : Nat) - (b i : Int)

theorem Holds.left_iff (h : Holds w b list) (i : Fin n) : Left list list.nodes i ↔ 0 < b i := by
  obtain ⟨np, hnp, -, hcur⟩ := h.node i
  unfold Left
  rw [h.target]
  constructor
  · rintro ⟨np', hnp', hlt⟩
    obtain rfl := Option.some.inj (hnp.symm.trans hnp')
    omega
  · intro hpos
    exact ⟨np, hnp, by omega⟩

theorem Holds.lt_of_left (h : Holds w b list) {j : Nat} (hj : Left list list.nodes j) : j < n := by
  obtain ⟨np, hnp, -⟩ := hj
  exact h.length ▸ (List.getElem?_eq_some_iff.mp hnp).1

theorem Holds.restart (h : Holds w b list) : Holds w b { list with last := -1 } :=
  ⟨h.target, h.length, h.count, ⟨le_refl _, by show (-1 : Int) < n; omega⟩, h.node⟩

theorem Holds.reset (h : Holds w b list) : Holds w w (resetList list) := by
  refine ⟨h.target, (List.length_map _).trans h.length,
    h.count, ⟨le_refl _, by show (-1 : Int) < n; omega⟩, fun i => ?_⟩
  obtain ⟨np, hnp, hweight, -⟩ := h.node i
  refine ⟨{ np with curWeight := np.weight }, ?_, hweight, hweight⟩
  show (list.nodes.map _)[i.val]? = _
  rw [List.getElem?_map, hnp]
  rfl

theorem Holds.take (h : Holds w b list) {i : Fin n} (hpos : 0 < b i) :
    Holds w (Function.update b i (b i - 1)) (take list i) := by
  have hi := i.isLt
  refine ⟨h.target, (List.length_modify _ _ _).trans h.length, h.count,
    ⟨by show (-1 : Int) ≤ i.val; omega, by show (i.val : Int) < n; omega⟩, fun j => ?_⟩
  obtain ⟨np, hnp, hweight, hcur⟩ := h.node j
  show ∃ np, (list.nodes.modify i.val _)[j.val]? = some np ∧ _
  rw [List.getElem?_modify, hnp]
  by_cases hij : i = j
  · subst hij
    refine ⟨{ np with curWeight := np.curWeight + 1 }, congrArg some (if_pos rfl), hweight, ?_⟩
    show np.curWeight + 1 = _
    rw [Function.update_self]
    omega
  · refine ⟨np, congrArg some (if_neg fun hval => hij (Fin.ext hval)), hweight, ?_⟩
    rw [Function.update_of_ne (Ne.symm hij)]
    exact hcur

theorem Holds.wrap (h : Holds w b list) : wrap list = list := by
  refine if_neg ?_
  rw [h.count]
  exact not_le.mpr h.last.2

/-- One turn of the loop: the first node behind `last` that is left is taken, or the loop goes on from
the front. -/
theorem Holds.turn (h : Holds w b list) (exceptions : List Str) (loops : Nat) :
    (∃ i : Fin n, 0 < b i ∧ list.last < i ∧ (∀ j : Fin n, 0 < b j → list.last < j → i ≤ j) ∧
      ∃ list', (list' = Distributor.take list i ∨ list' = resetList (Distributor.take list i) ∧ ∀ j,
        0 < b j → j = i) ∧
        findNextLoop exceptions (loops + 1) list =
          if list.nodes[i.val]?.any fun np => np.name ∈ exceptions then
            findNextLoop exceptions loops list'
          else (some i.val, Distributor.take list i)) ∨
    ((∀ j : Fin n, 0 < b j → (j : Int) ≤ list.last) ∧ findNextLoop exceptions (loops + 1) list =
      findNextLoop exceptions loops (if ∀ j,
        b j = 0 then resetList list else { list with last := -1 })) := by
  rcases hscan : scan list list.nodes 0 none 0 with ⟨found, matched⟩
  cases found with
  | some i =>
    obtain ⟨j, hj, hleft, hlast, hfirst⟩ := left_of_scan (congrArg Prod.fst hscan)
    rw [Nat.zero_add] at hj
    subst hj
    have hlt := h.lt_of_left hleft
    refine .inl ⟨⟨i, hlt⟩, (h.left_iff ⟨i, hlt⟩).mp hleft, hlast, fun j hj hbehind => ?_,
      if matched = 1 then resetList (Distributor.take list i) else Distributor.take list i, ?_, ?_⟩
    · exact hfirst j ((h.left_iff j).mpr hj) (by rwa [Nat.zero_add])
    · split
      case isTrue hone =>
        refine .inr ⟨rfl, fun j hj => Fin.ext ?_⟩
        exact scan_matched_one ((congrArg Prod.snd hscan).trans hone) hleft j ((h.left_iff j).mpr hj)
      case isFalse => exact .inl rfl
    · rw [findNextLoop, h.wrap, hscan]
  | none =>
    refine .inr ⟨fun j hj => ?_, ?_⟩
    · have := scan_eq_none (congrArg Prod.fst hscan) j ((h.left_iff j).mpr hj)
      rwa [Nat.zero_add] at this
    have hzero : matched ≠ 0 ↔ ¬∀ j, b j = 0 := by
      rw [ne_eq, not_iff_not, show matched = (scan list list.nodes 0 none 0).2 by rw [hscan],
        scan_matched]
      refine ⟨fun hnone j => ?_, fun hall j hj => ?_⟩
      · have := hnone j
        rw [h.left_iff] at this
        omega
      · have := (h.left_iff ⟨j, h.lt_of_left hj⟩).mp hj
        rw [hall] at this
        exact Nat.lt_irrefl 0 this
    rw [findNextLoop, h.wrap, hscan]
    simp only [hzero, ite_not]

/-- From the front the budgets are as they are drawn from. -/
theorem Holds.front (h : Holds w b list) :
    Holds w (filled w b) (if ∀ j, b j = 0 then resetList list else { list with last := -1 }) := by
  unfold filled
  split
  · exact h.reset
  · exact h.restart

/-- One call. -/
theorem Holds.findNext (h : Holds w b list) (hn : 0 < n) (hw : ∀ i, 0 < w i) :
    ∃ i b', Draws w b i b' ∧ (findNext list []).1 = some i.val ∧ Holds w b' (findNext list []).2 := by
  have hnot : ∀ (list : DistList) (i : Nat),
      ¬(list.nodes[i]?.any fun np => np.name ∈ ([] : List Str)) = true := by simp
  unfold Distributor.findNext
  rcases h.turn [] 999 with ⟨i, hpos, _, _, _, _, hloop⟩ | ⟨-, hloop⟩
  · have hfilled : filled w b = b := if_neg fun hzero => by
      rw [hzero] at hpos
      exact Nat.lt_irrefl 0 hpos
    have hdraws : Draws w b i (Function.update b i (b i - 1)) := by
      rw [Draws, hfilled]
      exact ⟨hpos, rfl⟩
    rw [hloop, if_neg (hnot _ _)]
    exact ⟨i, _, hdraws, rfl, h.take hpos⟩
  -- nothing behind the last node is left: the loop goes on from the front, where something is
  obtain ⟨j, hj⟩ : ∃ j, 0 < filled w b j := by
    unfold filled
    split
    · exact ⟨⟨0, hn⟩, hw _⟩
    · obtain ⟨j, hj⟩ := not_forall.mp ‹_›
      exact ⟨j, Nat.pos_of_ne_zero hj⟩
  rw [hloop]
  rcases h.front.turn [] 998 with ⟨i, hpos, _, _, _, _, hloop₁⟩ | ⟨hnone, -⟩
  · rw [hloop₁, if_neg (hnot _ _)]
    exact ⟨i, _, ⟨hpos, rfl⟩, rfl, h.front.take hpos⟩
  · have := hnone j hj
    have hfront : (if ∀ j, b j = 0 then resetList list else { list with last := -1 }).last = -1 := by
      split <;> rfl
    omega

/-- Any number of calls. -/
theorem Holds.findNexts (h : Holds w b list) (hn : 0 < n) (hw : ∀ i, 0 < w i) (m : Nat) :
    ∃ (l : List (Fin n)) (b' : Fin n → Nat), Run (Draws w) b l b' ∧
      findNexts m list = l.map fun i => some i.val := by
  induction m generalizing b list with
  | zero => exact ⟨[], b, .nil b, rfl⟩
  | succ m ih =>
    obtain ⟨i, b₁, hdraws, hfirst, hnext⟩ := h.findNext hn hw
    obtain ⟨l, b', hrun, hl⟩ := ih hnext
    refine ⟨i :: l, b', .cons hdraws hrun, ?_⟩
    rw [Distributor.findNexts, hfirst, hl]
    rfl

/-! ## A list that was loaded -/

/-- The sum of the weights. -/
def total (nodes : List DistNode) : Int := (nodes.map DistNode.wval).sum

theorem total_nonneg (h : ∀ np ∈ nodes, 1 ≤ np.wval) : 0 ≤ total nodes := by
  refine List.sum_nonneg fun z hz => ?_
  obtain ⟨np, hnp, rfl⟩ := List.mem_map.mp hz
  exact (h np hnp).trans' Int.one_nonneg

theorem wval_le_total (h : ∀ np ∈ nodes, 1 ≤ np.wval) {np : DistNode} (hnp : np ∈ nodes) :
    np.wval ≤ total nodes := by
  refine List.single_le_sum (fun z hz => ?_) _ (List.mem_map_of_mem hnp)
  obtain ⟨np', hnp', rfl⟩ := List.mem_map.mp hz
  exact (h np' hnp').trans' Int.one_nonneg

/-- A node at the start of a block. -/
def DistNode.start (target : Int) (np : DistNode) : DistNode :=
  { np with weight := target - np.wval, curWeight := target - np.wval }

theorem calcWeight_eq {lp : DistList} (h : ∀ np ∈ lp.nodes, 1 ≤ np.wval)
    (hsum : total lp.nodes < 2 ^ 31) :
    calcWeight lp = some
      { lp with targetWeight := total lp.nodes, nodes := lp.nodes.map (.start (total lp.nodes)) } := by
  have hsame : ∀ nodes, Checked.sumWhere (fun _ => true) DistNode.wval nodes =
      total nodes := fun _ => rfl
  have htarget : Checked.addWhere (fun _ => true) DistNode.wval lp.nodes 0 = some (total lp.nodes) := by
    rw [Checked.addWhere_eq, hsame, Int.zero_add]
    intro l₁ l₂ hl
    rw [hsame, Int.zero_add]
    have h₁ := total_nonneg fun np hnp => h np (hl ▸ List.mem_append_left l₂ hnp)
    have h₂ := total_nonneg fun np hnp => h np (hl ▸ List.mem_append_right l₁ hnp)
    have happend : total lp.nodes = total l₁ + total l₂ := by
      unfold total
      rw [hl, List.map_append, List.sum_append]
    exact ⟨by omega, by omega⟩
  have hnodes : ∀ {nodes : List DistNode}, (∀ np ∈ nodes, np ∈ lp.nodes) → (nodes.mapM fun np => do
      let weight ← Checked.add (total lp.nodes) (-np.wval)
      pure { np with weight := weight, curWeight := weight }) =
        some (nodes.map (.start (total lp.nodes))) := by
    intro nodes
    induction nodes with
    | nil => exact fun _ => rfl
    | cons np nodes ih =>
      intro hmem
      have hpos := h np (hmem np List.mem_cons_self)
      have hle := wval_le_total h (hmem np List.mem_cons_self)
      rw [List.mapM_cons, ih fun np' hnp' => hmem np' (List.mem_cons_of_mem np hnp'),
        Checked.add_eq ⟨by omega, by omega⟩]
      rfl
  rw [calcWeight, htarget]
  show (lp.nodes.mapM (m := Option) _).bind _ = _
  rw [hnodes fun np hnp => hnp]
  rfl

theorem one_le_of_mem_loadNodes {params : List (Str × Str)} {np : DistNode}
    (h : np ∈ loadNodes params) : 1 ≤ np.wval := by
  obtain ⟨param, -, hparam⟩ := List.mem_filterMap.mp h
  split at hparam
  · exact nomatch hparam
  · obtain rfl := Option.some.inj hparam
    exact not_lt.mp ‹_›

/-- The weights by the places of the nodes. -/
def weights (nodes : List DistNode) (i : Fin nodes.length) : Nat := (nodes.get i).wval.toNat

theorem sum_weights (h : ∀ np ∈ nodes, 1 ≤ np.wval) :
    ((∑ i, weights nodes i : Nat) : Int) = total nodes := by
  rw [Nat.cast_sum, total, ← Fin.sum_univ_fun_getElem]
  refine Finset.sum_congr rfl fun i _ => Int.toNat_of_nonneg ?_
  exact (h _ (List.get_mem nodes i)).trans' Int.one_nonneg

theorem holds_load (name : Str) (h : ∀ np ∈ nodes, 1 ≤ np.wval) :
    Holds (weights nodes) (weights nodes)
      ⟨name, total nodes, -1, nodes.length, none, nodes.map (.start (total nodes))⟩ := by
  refine ⟨(sum_weights h).symm, List.length_map _, rfl,
    ⟨le_refl _, by show (-1 : Int) < nodes.length; omega⟩, fun i => ?_⟩
  refine ⟨(nodes.get i).start (total nodes), ?_, ?_, ?_⟩
  · show (nodes.map _)[i.val]? = _
    rw [List.getElem?_map, List.getElem?_eq_getElem i.isLt]
    rfl
  · rw [sum_weights h]
    have := h _ (List.get_mem nodes i)
    show total nodes - (nodes.get i).wval = total nodes - ((nodes.get i).wval.toNat : Int)
    rw [Int.toNat_of_nonneg (by omega)]
  · rw [sum_weights h]
    have := h _ (List.get_mem nodes i)
    show total nodes - (nodes.get i).wval = total nodes - ((nodes.get i).wval.toNat : Int)
    rw [Int.toNat_of_nonneg (by omega)]

theorem length_findNexts (m : Nat) : ∀ lp, (findNexts m lp).length = m := by
  induction m with
  | zero => exact fun _ => rfl
  | succ m ih => exact fun lp => congrArg Nat.succ (ih _)

/-- **Every block of calls chooses each node by its weight.** -/
theorem findNexts_exact (name : Str) (params : List (Str × Str)) (hne : loadNodes params ≠ [])
    (hsum : total (loadNodes params) < 2 ^ 31) : ∃ lp, loadList name params = some lp ∧
      lp.nodes.map (fun np => (np.name, np.wval)) =
        (loadNodes params).map (fun np => (np.name, np.wval)) ∧
        ∀ k, none ∉ findNexts ((k + 1) * (total lp.nodes).toNat) lp ∧ ∀ i np, lp.nodes[i]? = some np →
          (((findNexts ((k + 1) * (total lp.nodes).toNat) lp).drop
            (k * (total lp.nodes).toNat)).count (some i) : Int) = np.wval := by
  have hpos : ∀ np ∈ loadNodes params, 1 ≤ np.wval := fun np => one_le_of_mem_loadNodes
  revert hne hsum
  unfold loadList
  generalize loadNodes params = nodes at hpos ⊢
  intro hne hsum
  refine ⟨_, calcWeight_eq hpos hsum, ?_, fun k => ?_⟩
  · show (nodes.map (DistNode.start (total nodes))).map _ = _
    rw [List.map_map]
    rfl
  have htotal : (total (nodes.map (DistNode.start (total nodes)))).toNat = ∑ i, weights nodes i := by
    rw [total, List.map_map]
    show (total nodes).toNat = _
    rw [← sum_weights hpos, Int.toNat_natCast]
  have hw : ∀ i, 0 < weights nodes i := fun i =>
    Int.pos_iff_toNat_pos.mp (hpos _ (List.get_mem nodes i))
  -- the calls draw from the weights as budgets, which are full again after each block
  obtain ⟨l, b', hrun, hl⟩ := (holds_load name hpos).findNexts (List.length_pos_iff.mpr hne) hw
    ((k + 1) * ∑ i, weights nodes i)
  have hlen : l.length = (k + 1) * ∑ i, weights nodes i := by
    rw [← length_findNexts ((k + 1) * ∑ i, weights nodes i), hl, List.length_map]
  show none ∉ findNexts (_ * (total (nodes.map (DistNode.start (total nodes)))).toNat) _ ∧ ∀ i np,
    (nodes.map (DistNode.start (total nodes)))[i]? = some np →
      ((List.drop (_ * (total (nodes.map (DistNode.start (total nodes)))).toNat)
        (findNexts (_ * (total (nodes.map (DistNode.start (total nodes)))).toNat) _)).count (some i) :
          Int) = np.wval
  rw [htotal, hl]
  refine ⟨fun hnone => ?_, fun i np hnp => ?_⟩
  · obtain ⟨i, -, hi⟩ := List.mem_map.mp hnone
    exact nomatch hi
  · rw [List.getElem?_map] at hnp
    obtain ⟨np₀, hnp₀, rfl⟩ := Option.map_eq_some_iff.mp hnp
    obtain ⟨hi, rfl⟩ := List.getElem?_eq_some_iff.mp hnp₀
    have hinj : Function.Injective fun j : Fin nodes.length => some j.val :=
      fun _ _ h => Fin.ext (Option.some.inj h)
    have hcount := count_block (.inl rfl) hrun hlen ⟨i, hi⟩
    rw [← List.map_drop]
    show ((List.count ((fun j : Fin nodes.length => some j.val) ⟨i, hi⟩) _ : Nat) : Int) = _
    rw [List.count_map_of_injective _ _ hinj, hcount]
    exact Int.toNat_of_nonneg ((hpos _ (List.getElem_mem hi)).trans' Int.one_nonneg)

theorem findNexts_exact_two :
    ∃ lp, loadList (bytes "l") [(bytes "a", bytes "2"), (bytes "b", bytes "1")] = some lp ∧
    lp.nodes.map (fun np => (np.name, np.wval)) = [(bytes "a", 2), (bytes "b", 1)] ∧
      ∀ k, none ∉ findNexts ((k + 1) * (total lp.nodes).toNat) lp ∧ ∀ i np, lp.nodes[i]? = some np →
        (((findNexts ((k + 1) * (total lp.nodes).toNat) lp).drop
          (k * (total lp.nodes).toNat)).count (some i) : Int) = np.wval :=
  findNexts_exact (bytes "l") [(bytes "a", bytes "2"),
    (bytes "b", bytes "1")] (by decide +kernel) (by decide +kernel)

end FreeSwitch.Distributor
