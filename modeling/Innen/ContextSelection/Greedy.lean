import Innen.Common.Except
import Innen.ContextSelection.Exact

/-!
# Greedy selection

`ContextGraph::select` starts with everything the seeds require and then takes in, one after the other, the closure of a
node that adds the most relevance for its cost, as long as the budget allows it. What it returns is closed, contains what
the seeds require and costs what it says.

A closure that costs too much for what is left of the budget is passed over. One whose cost does not fit 64 bits fails
the whole call instead, whatever the seeds need.
-/

namespace Innen.ContextSelection

open Innen.Common

/-! ## The loop -/

/-- Relevance for a cost: the quotient, rounded as the division of two `f64` is. -/
def density (gain cost : ℕ) : ℕ :=
  let unit := 2 ^ (Nat.log2 (gain / roundEven cost) - 52)
  let step := roundEven cost * unit
  let quotient := gain / step
  let remainder := gain % step
  let up := step < 2 * remainder ∨ (2 * remainder = step ∧ quotient % 2 = 1)
  (if up then quotient + 1 else quotient) * unit

/-- The nodes a closure would add, with their cost and the relevance for it. -/
structure Extension where
  density : ℕ
  cost : ℕ
  extra : SortedSet ℕ
deriving DecidableEq

namespace ContextGraph

/-- The relevance of one node. -/
def nodeRelevance (g : ContextGraph) (id : ℕ) : UInt64 := (g.nodes.get? id).elim 0 (·.relevance)

/-- Weigh the next closure against the best extension so far. -/
def weigh (g : ContextGraph) (budget : ℕ) (selected : SortedSet ℕ) (cost : ℕ) (best : Option Extension)
    (closure : SortedSet ℕ) : Except SelectionError (Option Extension) :=
  let extra := closure.diff selected
  if extra.elems = [] then .ok best
  else
    match g.cost extra with
    | .error e => .error e
    | .ok extraCost =>
      let gain := sumScaled (extra.elems.map g.nodeRelevance)
      if budget - cost < extraCost ∨ gain = 0 then .ok best
      else if ∀ previous ∈ best, previous.density < density gain extraCost then
        .ok (some ⟨density gain extraCost, extraCost, extra⟩)
      else .ok best

/-- What one look at a closure can do. -/
theorem weigh_cases (g : ContextGraph) (budget : ℕ) (selected : SortedSet ℕ) (cost : ℕ) (best : Option Extension)
    (closure : SortedSet ℕ) :
    (2 ^ 64 ≤ g.exactCost (closure.diff selected) ∧
        g.weigh budget selected cost best closure = .error (.invalid "cost overflow")) ∨
      (g.exactCost (closure.diff selected) < 2 ^ 64 ∧
        (g.weigh budget selected cost best closure = .ok best ∨
          ∃ d, g.weigh budget selected cost best closure =
              .ok (some ⟨d, g.exactCost (closure.diff selected), closure.diff selected⟩) ∧
            (closure.diff selected).elems ≠ [] ∧ g.exactCost (closure.diff selected) ≤ budget - cost)) := by
  unfold weigh
  by_cases hempty : (closure.diff selected).elems = []
  · rw [if_pos hempty]
    refine .inr ⟨?_, .inl rfl⟩
    rw [exactCost, hempty, List.map_nil, List.sum_nil]
    decide
  · rw [if_neg hempty, g.cost_eq]
    by_cases hover : g.exactCost (closure.diff selected) < 2 ^ 64
    · refine .inr ⟨hover, ?_⟩
      simp only [if_pos hover]
      split_ifs with hpass hbest
      · exact .inl rfl
      · exact .inr ⟨_, rfl, hempty, not_lt.mp fun h => hpass (.inl h)⟩
      · exact .inl rfl
    · exact .inl ⟨not_lt.mp hover, by simp only [if_neg hover]⟩

/-- The best extension by one of the closures. -/
def bestExtension (g : ContextGraph) (budget : ℕ) (closures : List (SortedSet ℕ)) (selected : SortedSet ℕ)
    (cost : ℕ) : Except SelectionError (Option Extension) :=
  closures.foldlM (g.weigh budget selected cost) none

/-- An extension comes from a closure, adds something and is affordable. -/
structure Extends (g : ContextGraph) (budget : ℕ) (closures : List (SortedSet ℕ)) (selected : SortedSet ℕ) (cost : ℕ)
    (e : Extension) : Prop where
  from_closure : ∃ closure ∈ closures, e.extra = closure.diff selected
  nonempty : e.extra.elems ≠ []
  cost_eq : e.cost = g.exactCost e.extra
  affordable : e.cost ≤ budget - cost

theorem bestExtension_extends {g : ContextGraph} {budget : ℕ} {closures : List (SortedSet ℕ)} {selected : SortedSet ℕ}
    {cost : ℕ} {e : Extension} (h : g.bestExtension budget closures selected cost = .ok (some e)) :
    g.Extends budget closures selected cost e := by
  refine foldlM_ok_induction (fun best => ∀ e ∈ best, g.Extends budget closures selected cost e) ?_
    (fun _ he => absurd he (by simp)) h e rfl
  intro best closure best' hclosure hbest hweigh
  rcases g.weigh_cases budget selected cost best closure with ⟨-, herror⟩ | ⟨-, hsame | ⟨d, hnew, hne, hle⟩⟩
  · rw [herror] at hweigh
    cases hweigh
  · rw [hsame] at hweigh
    obtain rfl := Except.ok.inj hweigh
    exact hbest
  · rw [hnew] at hweigh
    obtain rfl := Except.ok.inj hweigh
    intro e he
    obtain rfl := Option.some.inj he
    exact ⟨⟨closure, hclosure, rfl⟩, hne, rfl, hle⟩

/-- The search for an extension fails exactly on a closure that adds a cost beyond 64 bits. -/
theorem bestExtension_ok_iff {g : ContextGraph} {budget : ℕ} {closures : List (SortedSet ℕ)} {selected : SortedSet ℕ}
    {cost : ℕ} : (∃ best, g.bestExtension budget closures selected cost = .ok best) ↔
      ∀ closure ∈ closures, g.exactCost (closure.diff selected) < 2 ^ 64 := by
  refine exists_foldlM_ok_iff (fun best closure => ?_) none
  rcases g.weigh_cases budget selected cost best closure with ⟨hover, herror⟩ | ⟨hfits, hsame | ⟨d, hnew, -⟩⟩
  · rw [herror]
    exact iff_of_false (by simp) (not_lt.mpr hover)
  · exact iff_of_true ⟨_, hsame⟩ hfits
  · exact iff_of_true ⟨_, hnew⟩ hfits

/-- Taking in an extension uses up a node that was not selected. -/
theorem Extends.unmarked_lt {g : ContextGraph} {budget : ℕ} {closures : List (SortedSet ℕ)} {selected : SortedSet ℕ}
    {cost : ℕ} {e : Extension} (h : g.Extends budget closures selected cost e) :
    Worklist.unmarked (closures.flatMap (·.elems)) (selected.union e.extra) <
      Worklist.unmarked (closures.flatMap (·.elems)) selected := by
  obtain ⟨closure, hclosure, hextra⟩ := h.from_closure
  obtain ⟨id, hid⟩ := List.exists_mem_of_ne_nil _ h.nonempty
  have hmem : id ∈ closure.diff selected := hextra ▸ hid
  obtain ⟨hin, hnew⟩ := SortedSet.mem_diff.mp hmem
  refine lt_of_le_of_lt ?_ (Worklist.unmarked_insert_lt (List.mem_flatMap.mpr ⟨closure, hclosure, hin⟩) hnew)
  refine (List.monotone_filter_right _ fun a ha => ?_).length_le
  refine decide_eq_true fun hinsert => of_decide_eq_true ha (SortedSet.mem_union.mpr ?_)
  rcases SortedSet.mem_insert.mp hinsert with rfl | hsel
  · exact .inr hid
  · exact .inl hsel

/-- Take in the best extension until there is none. -/
def grow (g : ContextGraph) (budget : ℕ) (closures : List (SortedSet ℕ)) (selected : SortedSet ℕ) (cost : ℕ) :
    Except SelectionError Selection :=
  match _h : g.bestExtension budget closures selected cost with
  | .error e => .error e
  | .ok none => .ok ⟨selected, cost, budget⟩
  | .ok (some best) => grow g budget closures (selected.union best.extra) (cost + best.cost)
termination_by Worklist.unmarked (closures.flatMap (·.elems)) selected
decreasing_by exact (bestExtension_extends _h).unmarked_lt

/-- One round of the loop. -/
theorem grow_eq (g : ContextGraph) (budget : ℕ) (closures : List (SortedSet ℕ)) (selected : SortedSet ℕ) (cost : ℕ) :
    g.grow budget closures selected cost = (g.bestExtension budget closures selected cost).bind fun best =>
      best.elim (.ok ⟨selected, cost, budget⟩) fun best =>
        g.grow budget closures (selected.union best.extra) (cost + best.cost) := by
  rw [grow]
  split <;> rename_i h <;> rw [h] <;> rfl

/-- `ContextGraph::select`. -/
def select (g : ContextGraph) (budget : ℕ) (seeds : SortedSet ℕ) : Except SelectionError Selection := do
  let selected ← g.closure seeds
  let cost ← g.cost selected
  failIf (budget < cost) (.budgetInsufficient cost budget)
  let closures ← (g.nodes.keys.map fun id => SortedSet.ofList [id]).mapM g.closure
  g.grow budget closures selected cost

/-! ## What the loop keeps -/

/-- What holds of a selection in progress: it holds what the seeds require, it is closed, and its cost is exact and
within the budget. -/
structure Sound (g : ContextGraph) (budget : ℕ) (base selected : SortedSet ℕ) (cost : ℕ) : Prop where
  base : ∀ id ∈ base, id ∈ selected
  closed : ∀ id ∈ selected, ∀ target, g.Requires id target → target ∈ selected
  cost_eq : cost = g.exactCost selected
  affordable : cost ≤ budget

/-- A union with new elements costs the two sums. -/
theorem exactCost_union_diff (g : ContextGraph) (s t : SortedSet ℕ) :
    g.exactCost (s.union (t.diff s)) = g.exactCost s + g.exactCost (t.diff s) := by
  have hunion : (s.union (t.diff s)).toFinset = s.toFinset ∪ (t.diff s).toFinset := by
    ext id
    simp
  have hdisjoint : Disjoint s.toFinset (t.diff s).toFinset := by
    rw [Finset.disjoint_left]
    intro id hid hdiff
    exact (SortedSet.mem_diff.mp hdiff).2 hid
  rw [exactCost_eq_sum, hunion, Finset.sum_union hdisjoint, ← exactCost_eq_sum, ← exactCost_eq_sum]

/-- One round of the loop keeps a sound selection sound. -/
theorem Sound.extend {g : ContextGraph} {budget : ℕ} {base selected : SortedSet ℕ} {cost : ℕ}
    (h : g.Sound budget base selected cost) {closures : List (SortedSet ℕ)}
    (hclosures : ∀ closure ∈ closures, ∃ seeds, g.IsClosure seeds closure) {e : Extension}
    (he : g.Extends budget closures selected cost e) :
    g.Sound budget base (selected.union e.extra) (cost + e.cost) := by
  obtain ⟨closure, hclosure, hextra⟩ := he.from_closure
  obtain ⟨seeds, hseeds⟩ := hclosures closure hclosure
  refine ⟨fun id hid => SortedSet.mem_union.mpr (.inl (h.base id hid)), ?_, ?_, ?_⟩
  · intro id hid target hrequires
    rw [SortedSet.mem_union] at hid ⊢
    rcases hid with hid | hid
    · exact .inl (h.closed id hid target hrequires)
    · rw [hextra] at hid ⊢
      obtain ⟨s, hs, hreach⟩ := (hseeds id).mp (SortedSet.mem_diff.mp hid).1
      have htarget : target ∈ closure := (hseeds target).mpr ⟨s, hs, hreach.tail hrequires⟩
      by_cases hsel : target ∈ selected
      · exact .inl hsel
      · exact .inr (SortedSet.mem_diff.mpr ⟨htarget, hsel⟩)
  · rw [hextra, exactCost_union_diff, h.cost_eq, he.cost_eq, hextra]
  · have hle := he.affordable
    have hbudget := h.affordable
    omega

/-- From a sound selection the loop ends in a sound selection, and it fails exactly when a closure adds a cost beyond
64 bits to the one it starts from. -/
theorem grow_spec {g : ContextGraph} {budget : ℕ} {base : SortedSet ℕ} {closures : List (SortedSet ℕ)}
    (hclosures : ∀ closure ∈ closures, ∃ seeds, g.IsClosure seeds closure) {selected : SortedSet ℕ} {cost : ℕ}
    (h : g.Sound budget base selected cost) :
    ((∃ selection, g.grow budget closures selected cost = .ok selection) ↔
        ∀ closure ∈ closures, g.exactCost (closure.diff selected) < 2 ^ 64) ∧
      ∀ selection, g.grow budget closures selected cost = .ok selection →
        g.Sound budget base selection.selected selection.cost := by
  induction selected, cost using grow.induct g budget closures with
  | case1 selected cost e he =>
    have hover : ¬∀ closure ∈ closures, g.exactCost (closure.diff selected) < 2 ^ 64 := by
      intro hall
      obtain ⟨r, hr⟩ := bestExtension_ok_iff.mpr hall
      rw [he] at hr
      exact absurd hr (by simp)
    rw [grow_eq, he]
    exact ⟨iff_of_false (by simp [Except.bind]) hover, fun _ hok => by cases hok⟩
  | case2 selected cost hnone =>
    rw [grow_eq, hnone]
    refine ⟨iff_of_true ⟨_, rfl⟩ (bestExtension_ok_iff.mp ⟨none, hnone⟩), fun selection hok => ?_⟩
    obtain rfl := Except.ok.inj hok
    exact h
  | case3 selected cost best hbest ih =>
    have hextends := bestExtension_extends hbest
    have hfits := bestExtension_ok_iff.mp ⟨_, hbest⟩
    obtain ⟨hok, hsound⟩ := ih (h.extend hclosures hextends)
    rw [grow_eq, hbest]
    refine ⟨iff_of_true (hok.mpr fun closure hclosure => ?_) hfits, hsound⟩
    -- what a closure adds only gets less
    refine lt_of_le_of_lt (g.exactCost_mono fun id hid => ?_) (hfits closure hclosure)
    obtain ⟨hin, hnew⟩ := SortedSet.mem_diff.mp hid
    exact SortedSet.mem_diff.mpr ⟨hin, fun hsel => hnew (SortedSet.mem_union.mpr (.inl hsel))⟩

/-! ## The whole selection -/

/-- What the seeds require costs no more than the budget. -/
def Affordable (g : ContextGraph) (seeds : SortedSet ℕ) (budget : ℕ) : Prop :=
  ∃ base, g.closure seeds = .ok base ∧ g.exactCost base ≤ budget

/-- Some node requires nodes beyond those that the seeds require whose cost does not fit 64 bits. -/
def Unaffordable (g : ContextGraph) (seeds : SortedSet ℕ) : Prop :=
  ∃ base, g.closure seeds = .ok base ∧ ∃ id ∈ g.nodes.keys, ∃ closure,
    g.closure (SortedSet.ofList [id]) = .ok closure ∧ 2 ^ 64 ≤ g.exactCost (closure.diff base)

/-- A selection that is asked for: it holds what the seeds require, is closed under requires edges, and its cost is the
exact sum of the costs of its nodes and at most the budget. -/
def Proper (g : ContextGraph) (seeds : SortedSet ℕ) (budget : ℕ) (selection : Selection) : Prop :=
  (∃ base, g.closure seeds = .ok base ∧ ∀ id ∈ base, id ∈ selection.selected) ∧
    (∀ id ∈ selection.selected, ∀ target, g.Requires id target → target ∈ selection.selected) ∧
    selection.cost = g.exactCost selection.selected ∧ selection.cost ≤ budget

theorem isClosure_of_closure {g : ContextGraph} {seeds set : SortedSet ℕ} (h : g.closure seeds = .ok set) :
    g.IsClosure seeds set := by
  have hspec := g.closure_spec seeds
  rwa [h] at hspec

/-- All single nodes can be closed. -/
theorem exists_closures (g : ContextGraph) :
    ∃ closures, (g.nodes.keys.map fun id => SortedSet.ofList [id]).mapM g.closure = .ok closures := by
  have hspec := mapM_closure_spec g (g.nodes.keys.map fun id => SortedSet.ofList [id])
  rcases hmap : (g.nodes.keys.map fun id => SortedSet.ofList [id]).mapM g.closure with e | closures
  · rw [hmap] at hspec
    obtain ⟨-, a, ha, hunknown⟩ := hspec
    obtain ⟨id, hid, rfl⟩ := List.mem_map.mp ha
    refine absurd (fun s hs => ?_) hunknown
    rw [SortedSet.mem_ofList, List.mem_singleton] at hs
    rwa [hs]
  · exact ⟨closures, rfl⟩

/-- What the seeds require, at a cost within the budget, is where the loop starts. -/
theorem sound_base {g : ContextGraph} {seeds base : SortedSet ℕ} {budget : ℕ} (hbase : g.closure seeds = .ok base)
    (hcost : g.exactCost base ≤ budget) : g.Sound budget base base (g.exactCost base) := by
  refine ⟨fun _ hid => hid, fun id hid target hrequires => ?_, rfl, hcost⟩
  obtain ⟨s, hs, hreach⟩ := (isClosure_of_closure hbase id).mp hid
  exact (isClosure_of_closure hbase target).mpr ⟨s, hs, hreach.tail hrequires⟩

/-- An affordable call runs the loop. -/
theorem select_eq_grow {g : ContextGraph} {seeds base : SortedSet ℕ} {budget : ℕ} (hbudget : budget < 2 ^ 64)
    (hbase : g.closure seeds = .ok base) (hcost : g.exactCost base ≤ budget) {closures : List (SortedSet ℕ)}
    (hclosures : (g.nodes.keys.map fun id => SortedSet.ofList [id]).mapM g.closure = .ok closures) :
    g.select budget seeds = g.grow budget closures base (g.exactCost base) := by
  rw [select, hbase, hclosures]
  simp only [bind, Except.bind, g.cost_eq, if_pos (hcost.trans_lt hbudget), failIf, if_neg hcost.not_gt]

/-- What is returned was affordable. -/
theorem affordable_of_select {g : ContextGraph} {seeds : SortedSet ℕ} {budget : ℕ} {selection : Selection}
    (h : g.select budget seeds = .ok selection) : g.Affordable seeds budget := by
  obtain ⟨base, hbase, h⟩ := bind_eq_ok.mp h
  obtain ⟨cost, hcost, h⟩ := bind_eq_ok.mp h
  obtain ⟨_, hbudget, -⟩ := bind_eq_ok.mp h
  rw [g.cost_eq] at hcost
  split_ifs at hcost
  obtain rfl := Except.ok.inj hcost
  exact ⟨base, hbase, not_lt.mp (failIf_eq_ok.mp hbudget)⟩

/-- A call that is affordable gives a proper selection, unless a node that is not needed requires others beyond 64 bits;
then it fails. -/
theorem select_of_affordable {g : ContextGraph} {seeds : SortedSet ℕ} {budget : ℕ} (hbudget : budget < 2 ^ 64)
    (h : g.Affordable seeds budget) :
    ((∃ selection, g.select budget seeds = .ok selection) ↔ ¬g.Unaffordable seeds) ∧
      ∀ selection, g.select budget seeds = .ok selection → g.Proper seeds budget selection := by
  obtain ⟨base, hbase, hcost⟩ := h
  obtain ⟨closures, hmap⟩ := g.exists_closures
  obtain ⟨hfrom, hto⟩ := mapM_ok hmap
  have hclosed : ∀ closure ∈ closures, ∃ seeds, g.IsClosure seeds closure := by
    intro closure hclosure
    obtain ⟨single, -, hsingle⟩ := hfrom closure hclosure
    exact ⟨single, isClosure_of_closure hsingle⟩
  obtain ⟨hok, hsound⟩ := grow_spec hclosed (sound_base hbase hcost)
  rw [select_eq_grow hbudget hbase hcost hmap]
  refine ⟨hok.trans ⟨?_, ?_⟩, fun selection hselection => ?_⟩
  · rintro hall ⟨base', hbase', id, hid, closure, hclosure, hover⟩
    obtain rfl := Except.ok.inj (hbase.symm.trans hbase')
    obtain ⟨closure', hmem, hclosure'⟩ := hto _ (List.mem_map_of_mem hid)
    obtain rfl := Except.ok.inj (hclosure.symm.trans hclosure')
    exact absurd (hall closure hmem) (not_lt.mpr hover)
  · intro hnone closure hclosure
    obtain ⟨single, hsingle, hclose⟩ := hfrom closure hclosure
    obtain ⟨id, hid, rfl⟩ := List.mem_map.mp hsingle
    by_contra hover
    exact hnone ⟨base, hbase, id, hid, closure, hclose, not_lt.mp hover⟩
  · have hfinal := hsound selection hselection
    exact ⟨⟨base, hbase, hfinal.base⟩, hfinal.closed, hfinal.cost_eq, hfinal.affordable⟩

/-- The call succeeds exactly when what the seeds require is affordable, and then gives a proper selection, exactly when
no node that is not needed requires others beyond 64 bits. -/
theorem select_exact_iff (g : ContextGraph) (seeds : SortedSet ℕ) (budget : ℕ) (hbudget : budget < 2 ^ 64) :
    (((∃ selection, g.select budget seeds = .ok selection) ↔ g.Affordable seeds budget) ∧
        ∀ selection, g.select budget seeds = .ok selection → g.Proper seeds budget selection) ↔
      ¬(g.Affordable seeds budget ∧ g.Unaffordable seeds) := by
  constructor
  · rintro ⟨hiff, -⟩ ⟨haffordable, hunaffordable⟩
    exact (select_of_affordable hbudget haffordable).1.mp (hiff.mpr haffordable) hunaffordable
  · intro hnone
    refine ⟨⟨fun ⟨selection, h⟩ => affordable_of_select h, fun haffordable => ?_⟩, fun selection h => ?_⟩
    · exact (select_of_affordable hbudget haffordable).1.mpr fun hun => hnone ⟨haffordable, hun⟩
    · exact (select_of_affordable hbudget (affordable_of_select h)).2 selection h

end ContextGraph

/-! ## A node nobody asks for -/

/-- Three nodes: the second requires the first, which uses up the whole range of a cost; the third stands alone. -/
def costlyGraph : ContextGraph where
  nodes := ((SortedMap.empty.insert 1 ⟨1, 2 ^ 64 - 1, 0⟩).insert 2 ⟨2, 1, 0⟩).insert 3 ⟨3, 5, 0⟩
  requires := SortedMap.empty.insert 2 (SortedSet.ofList [1])
  known := by
    intro id targets hget t ht
    rw [SortedMap.get?_insert] at hget
    split_ifs at hget
    · obtain rfl := Option.some.inj hget
      rw [SortedSet.mem_ofList, List.mem_singleton] at ht
      rw [ht]
      decide
    · cases hget

theorem select_exact_iff_costly :
    10 < 2 ^ 64 ∧ ((((∃ selection, costlyGraph.select 10 (SortedSet.ofList [1]) = .ok selection) ↔
          costlyGraph.Affordable (SortedSet.ofList [1]) 10) ∧
        ∀ selection, costlyGraph.select 10 (SortedSet.ofList [1]) = .ok selection →
          costlyGraph.Proper (SortedSet.ofList [1]) 10 selection) ↔
      ¬(costlyGraph.Affordable (SortedSet.ofList [1]) 10 ∧ costlyGraph.Unaffordable (SortedSet.ofList [1]))) :=
  ⟨by decide, ContextGraph.select_exact_iff costlyGraph (SortedSet.ofList [1]) 10 (by decide)⟩

/-- The third node is affordable, but the second one, which it does not need, fails the call. -/
theorem costlyGraph_select :
    ContextGraph.new [⟨1, 2 ^ 64 - 1, 0⟩, ⟨2, 1, 0⟩, ⟨3, 5, 0⟩] [⟨2, 1, .requires⟩] = .ok costlyGraph ∧
      costlyGraph.select 10 (SortedSet.ofList [3]) = .error (.invalid "cost overflow") ∧
      ¬(((∃ selection, costlyGraph.select 10 (SortedSet.ofList [3]) = .ok selection) ↔
            costlyGraph.Affordable (SortedSet.ofList [3]) 10) ∧
          ∀ selection, costlyGraph.select 10 (SortedSet.ofList [3]) = .ok selection →
            costlyGraph.Proper (SortedSet.ofList [3]) 10 selection) := by
  have hselect : costlyGraph.select 10 (SortedSet.ofList [3]) = .error (.invalid "cost overflow") := by decide +kernel
  refine ⟨by decide +kernel, hselect, ?_⟩
  rintro ⟨hiff, -⟩
  have hclosure : costlyGraph.closure (SortedSet.ofList [3]) = .ok (SortedSet.ofList [3]) := by decide +kernel
  obtain ⟨selection, hok⟩ := hiff.mpr ⟨_, hclosure, by decide⟩
  rw [hselect] at hok
  cases hok

end Innen.ContextSelection
