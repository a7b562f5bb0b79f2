import Innen.ContextSelection.Model
import Innen.Common.BranchBound
import Mathlib.Algebra.BigOperators.Group.Finset.Basic
import Mathlib.Algebra.Order.BigOperators.Group.Finset

/-!
# The fact search is exact

A choice picks one alternative of every fact; its set is everything the picked nodes require. The
search is the general branch and bound over the closed alternatives, so what it returns is a cheapest
affordable choice, and it gives up only when there are too many partial unions.

Node costs are summed with an overflow check, and an overflow at any partial union the search enters
is an error of the whole search, also when another choice would have fitted the budget.
-/

namespace Innen.ContextSelection

open Innen.Common

/-! ## Closures and costs -/

namespace ContextGraph

/-- A requires edge between two nodes. -/
def Requires (g : ContextGraph) (a b : ℕ) : Prop := b ∈ g.neighbors a

/-- A set is what its seeds reach through requires edges. -/
def IsClosure (g : ContextGraph) (seeds set : SortedSet ℕ) : Prop :=
  ∀ id, id ∈ set ↔ ∃ s ∈ seeds, Relation.ReflTransGen g.Requires s id

/-- All seeds are nodes of the graph. -/
def KnownSeeds (g : ContextGraph) (seeds : SortedSet ℕ) : Prop := ∀ s ∈ seeds, s ∈ g.nodes.keys

theorem closure_spec (g : ContextGraph) (seeds : SortedSet ℕ) :
    match g.closure seeds with
    | .ok set => g.IsClosure seeds set
    | .error e => e = .invalid "unknown seed" ∧ ¬ g.KnownSeeds seeds := by
  unfold closure
  by_cases hunknown : (seeds.elems.any fun s => (g.nodes.get? s).isNone) = true
  · rw [if_pos hunknown]
    refine ⟨rfl, fun hknown => ?_⟩
    obtain ⟨s, hs, hnone⟩ := List.any_eq_true.mp hunknown
    have hsome := g.nodes.mem_keys_iff.mp (hknown s hs)
    rw [Option.isNone_iff_eq_none.mp hnone] at hsome
    simp at hsome
  · rw [if_neg hunknown]
    intro id
    have hpending : ∀ a, a ∈ seeds.elems.reverse ↔ a ∈ seeds := fun a => List.mem_reverse
    rw [Worklist.mem_collect (fun a ha => .inl ((hpending a).mpr ha)) fun a ha => (hpending a).mp ha]
    constructor
    · rintro (hid | ⟨s, hs, hreach⟩)
      · exact ⟨id, hid, .refl⟩
      · exact ⟨s, (hpending s).mp hs, hreach⟩
    · rintro ⟨s, hs, hreach⟩
      exact .inr ⟨s, (hpending s).mpr hs, hreach⟩

/-- The exact cost of a set, in unbounded arithmetic. -/
def exactCost (g : ContextGraph) (ids : SortedSet ℕ) : ℕ := (ids.elems.map g.nodeCost).sum

theorem exactCost_eq_sum (g : ContextGraph) (ids : SortedSet ℕ) :
    g.exactCost ids = ∑ id ∈ ids.toFinset, g.nodeCost id := rfl

/-- A larger set costs at least as much. -/
theorem exactCost_mono (g : ContextGraph) {s t : SortedSet ℕ} (h : ∀ id ∈ s, id ∈ t) :
    g.exactCost s ≤ g.exactCost t := by
  rw [exactCost_eq_sum, exactCost_eq_sum]
  exact Finset.sum_le_sum_of_subset fun id hid => h id hid

/-- Adding up with the overflow check: the exact sum, if it fits. -/
theorem foldlM_checkedAdd (g : ContextGraph) (ids : List ℕ) {total : ℕ} (htotal : total < 2 ^ 64) :
    ids.foldlM g.checkedAdd total =
      if total + (ids.map g.nodeCost).sum < 2 ^ 64 then .ok (total + (ids.map g.nodeCost).sum)
      else .error (.invalid "cost overflow") := by
  induction ids generalizing total with
  | nil =>
    rw [List.map_nil, List.sum_nil, Nat.add_zero, if_pos htotal]
    rfl
  | cons id rest ih =>
    rw [List.foldlM_cons, List.map_cons, List.sum_cons, ← Nat.add_assoc, checkedAdd]
    split
    · rename_i hfits
      simp only [bind, Except.bind]
      exact ih hfits
    · rename_i hover
      rw [if_neg (by omega)]
      rfl

theorem cost_eq (g : ContextGraph) (ids : SortedSet ℕ) :
    g.cost ids = if g.exactCost ids < 2 ^ 64 then .ok (g.exactCost ids)
      else .error (.invalid "cost overflow") := by
  unfold cost exactCost
  rw [foldlM_checkedAdd g ids.elems (by decide), Nat.zero_add]

end ContextGraph

/-! ## Choices -/

/-- One alternative of every fact, with everything the picked nodes require. -/
def Choice (g : ContextGraph) (facts : List Fact) (set : SortedSet ℕ) : Prop :=
  ∃ picks : List (SortedSet ℕ), List.Forall₂ (fun fact a => a ∈ fact.alternatives) facts picks ∧
    ∀ id, id ∈ set ↔ ∃ a ∈ picks, ∃ s ∈ a, Relation.ReflTransGen g.Requires s id

/-- A fact index with a partial union: a choice for the facts before it. -/
def PartialUnion (g : ContextGraph) (facts : List Fact) (x : ℕ × SortedSet ℕ) : Prop :=
  x.1 ≤ facts.length ∧ Choice g (facts.take x.1) x.2

/-- Facts with distinct nonempty ids and nonempty alternatives of known nodes. -/
def ValidFacts (g : ContextGraph) (facts : List Fact) : Prop :=
  (facts.map (·.id)).Nodup ∧ ∀ fact ∈ facts, fact.id ≠ "" ∧ fact.alternatives ≠ [] ∧
    ∀ a ∈ fact.alternatives, a.elems ≠ [] ∧ g.KnownSeeds a

/-- The closed alternatives stand next to those of the facts. -/
def ClosedOf (g : ContextGraph) (facts : List Fact) (closed : List (List (SortedSet ℕ))) : Prop :=
  List.Forall₂ (fun fact layer => List.Forall₂ g.IsClosure fact.alternatives layer) facts closed

theorem mapM_closure_spec (g : ContextGraph) (alternatives : List (SortedSet ℕ)) :
    match alternatives.mapM g.closure with
    | .ok layer => List.Forall₂ g.IsClosure alternatives layer
    | .error e => e = .invalid "unknown seed" ∧ ∃ a ∈ alternatives, ¬ g.KnownSeeds a := by
  induction alternatives with
  | nil => exact List.Forall₂.nil
  | cons a rest ih =>
    have hfirst := g.closure_spec a
    rw [List.mapM_cons]
    rcases hclosure : g.closure a with e | set <;> simp only [hclosure] at hfirst
    · exact ⟨hfirst.1, a, List.mem_cons_self, hfirst.2⟩
    · rcases hrest : rest.mapM g.closure with e | layer <;> simp only [hrest] at ih
      · obtain ⟨he, b, hb, hunknown⟩ := ih
        exact ⟨he, b, List.mem_cons_of_mem a hb, hunknown⟩
      · exact .cons hfirst ih

/-- Closing the facts succeeds only with closures, and fails only on facts that are not valid. -/
theorem closeFacts_spec (g : ContextGraph) (ids : SortedSet String) (facts : List Fact) :
    match g.closeFacts ids facts with
    | .ok closed => ClosedOf g facts closed
    | .error e => (∃ m, e = .invalid m) ∧ ¬ (ValidFacts g facts ∧ ∀ fact ∈ facts, fact.id ∉ ids) := by
  induction facts generalizing ids with
  | nil => exact List.Forall₂.nil
  | cons fact rest ih =>
    unfold ContextGraph.closeFacts
    by_cases hrefused : ContextGraph.refused ids fact = true
    · simp only [hrefused, if_true, bind, Except.bind]
      refine ⟨⟨_, rfl⟩, ?_⟩
      rintro ⟨⟨-, hvalid⟩, hfresh⟩
      obtain ⟨hid, hne, halts⟩ := hvalid fact List.mem_cons_self
      simp only [ContextGraph.refused, decide_eq_true_eq] at hrefused
      rcases hrefused with h | h | h | ⟨a, ha, h⟩
      · exact hid h
      · exact hfresh fact List.mem_cons_self h
      · exact hne h
      · exact (halts a ha).1 h
    · have hclosed := mapM_closure_spec g fact.alternatives
      have hrest := ih (ids.insert fact.id)
      simp only [hrefused, bind, Except.bind]
      rcases hmap : fact.alternatives.mapM g.closure with e | layer <;> simp only [hmap] at hclosed ⊢
      · obtain ⟨he, a, ha, hunknown⟩ := hclosed
        refine ⟨⟨_, he⟩, ?_⟩
        rintro ⟨⟨-, hvalid⟩, -⟩
        exact hunknown ((hvalid fact List.mem_cons_self).2.2 a ha).2
      · rcases hcf : g.closeFacts (ids.insert fact.id) rest with e | closed
        · simp only [hcf] at hrest ⊢
          refine ⟨hrest.1, ?_⟩
          rintro ⟨⟨hnodup, hvalid⟩, hfresh⟩
          rw [List.map_cons, List.nodup_cons] at hnodup
          refine hrest.2 ⟨⟨hnodup.2, fun f hf => hvalid f (List.mem_cons_of_mem fact hf)⟩, ?_⟩
          intro f hf hin
          rcases SortedSet.mem_insert.mp hin with heq | hin
          · exact hnodup.1 (heq ▸ List.mem_map_of_mem hf)
          · exact hfresh f (List.mem_cons_of_mem fact hf) hin
        · simp only [hcf] at hrest ⊢
          exact .cons hclosed hrest

/-- Completing a partial union through closed alternatives is picking one alternative per fact. -/
theorem completes_iff {g : ContextGraph} {facts : List Fact} {closed : List (List (SortedSet ℕ))}
    (h : ClosedOf g facts closed) {s t : SortedSet ℕ} :
    BranchBound.Completes SortedSet.union closed s t ↔
      ∃ picks : List (SortedSet ℕ), List.Forall₂ (fun fact a => a ∈ fact.alternatives) facts picks ∧
        ∀ id, id ∈ t ↔
          id ∈ s ∨ ∃ a ∈ picks, ∃ seed ∈ a, Relation.ReflTransGen g.Requires seed id := by
  induction h generalizing s with
  | nil =>
    rw [BranchBound.completes_nil]
    constructor
    · rintro rfl
      exact ⟨[], .nil, by simp⟩
    · rintro ⟨picks, hpicks, ht⟩
      cases hpicks
      exact SortedSet.ext_mem fun id => by simpa using ht id
  | @cons fact layer facts closed hlayer hrest ih =>
    rw [BranchBound.completes_cons]
    constructor
    · rintro ⟨set, hset, hcompl⟩
      obtain ⟨picks, hpicks, ht⟩ := ih.mp hcompl
      obtain ⟨i, hi, rfl⟩ := List.getElem_of_mem hset
      have hlen : i < fact.alternatives.length := by rwa [hlayer.length_eq]
      have hclosure := List.Forall₂.get hlayer hlen hi
      refine ⟨fact.alternatives[i] :: picks, .cons (List.getElem_mem hlen) hpicks, fun id => ?_⟩
      have hid := hclosure id
      simp only [List.get_eq_getElem] at hid
      rw [ht id, SortedSet.mem_union, List.exists_mem_cons_iff, hid, or_assoc]
    · rintro ⟨picks, hpicks, ht⟩
      rcases hpicks with _ | ⟨ha, hpicks⟩
      rename_i a picks
      obtain ⟨i, hi, rfl⟩ := List.getElem_of_mem ha
      have hlen : i < layer.length := by rwa [← hlayer.length_eq]
      have hclosure := List.Forall₂.get hlayer hi hlen
      refine ⟨layer[i], List.getElem_mem hlen, ih.mpr ⟨picks, hpicks, fun id => ?_⟩⟩
      have hid := hclosure id
      simp only [List.get_eq_getElem] at hid
      rw [ht id, SortedSet.mem_union, List.exists_mem_cons_iff, hid, or_assoc]

theorem completes_iff_choice {g : ContextGraph} {facts : List Fact}
    {closed : List (List (SortedSet ℕ))} (h : ClosedOf g facts closed) {t : SortedSet ℕ} :
    BranchBound.Completes SortedSet.union closed ∅ t ↔ Choice g facts t := by
  rw [completes_iff h]
  simp only [SortedSet.not_mem_empty, false_or]
  rfl

/-! ## The search as a branch and bound -/

/-- The search over partial unions: the caller's cost is known for whole choices only, the sum of the
node costs is a lower bound everywhere. -/
def searchProblem (g : ContextGraph) (packetCost : Option PacketCost) (budget stateLimit : ℕ) :
    BranchBound.Problem (SortedSet ℕ) (SortedSet ℕ) SelectionError where
  join := SortedSet.union
  bound rest selected :=
    match packetCost with
    | some packetCost => if rest.isEmpty then (packetCost selected).map some else .ok none
    | none => (g.cost selected).map some
  budget := budget
  limit := stateLimit
  full := .searchLimit stateLimit

/-- The progress of the branch and bound, as the search keeps it. -/
def ofProgress (budget : ℕ) (p : BranchBound.Progress (SortedSet ℕ)) : FactSearch :=
  ⟨p.states, p.best.map fun b => ⟨b.1, b.2, budget⟩, p.visited⟩

theorem foldlM_map {A B C ε : Type*} (f : B → A → Except ε B) (f' : C → A → Except ε C) (emb : B → C)
    (l : List A) (h : ∀ a ∈ l, ∀ b, f' (emb b) a = (f b a).map emb) (b : B) :
    l.foldlM f' (emb b) = (l.foldlM f b).map emb := by
  induction l generalizing b with
  | nil => rfl
  | cons a rest ih =>
    rw [List.foldlM_cons, List.foldlM_cons, h a List.mem_cons_self b]
    rcases f b a with e | b'
    · rfl
    · exact ih (fun c hc => h c (List.mem_cons_of_mem a hc)) b'

/-- The bound is the cost of the state, where that cost says something. -/
theorem bound_eq (g : ContextGraph) (packetCost : Option PacketCost) (budget stateLimit : ℕ)
    (rest : List (List (SortedSet ℕ))) (selected : SortedSet ℕ) :
    (searchProblem g packetCost budget stateLimit).bound rest selected =
      (stateCost g packetCost rest.isEmpty selected).map fun cost =>
        if packetCost.isNone ∨ rest.isEmpty then some cost else none := by
  rcases packetCost with _ | packetCost
  · simp [searchProblem, stateCost]
  · cases rest with
    | nil => simp [searchProblem, stateCost]
    | cons => simp [searchProblem, stateCost, Except.map]

/-- The search prunes where the bound is useless. -/
theorem prune_iff (packetCost : Option PacketCost) (budget : ℕ) (leaf : Bool)
    (p : BranchBound.Progress (SortedSet ℕ)) (cost : ℕ) :
    ((packetCost.isNone ∨ leaf) ∧
      (budget < cost ∨ ∃ b ∈ (ofProgress budget p).best, b.cost ≤ cost)) ↔
      ∃ d ∈ (if packetCost.isNone ∨ leaf then some cost else none),
        BranchBound.useless budget p.best d := by
  by_cases h : packetCost.isNone ∨ leaf
  · rw [if_pos h, and_iff_right h]
    simp [BranchBound.useless, ofProgress]
  · rw [if_neg h]
    exact ⟨fun hprune => absurd hprune.1 h, fun ⟨_, hd, _⟩ => by simp at hd⟩

theorem visit_eq (g : ContextGraph) (packetCost : Option PacketCost) (budget stateLimit : ℕ)
    (rest : List (List (SortedSet ℕ))) (index : ℕ) (selected : SortedSet ℕ)
    (p : BranchBound.Progress (SortedSet ℕ)) :
    FactSearch.visit g packetCost budget stateLimit rest index selected (ofProgress budget p) =
      (BranchBound.visit (searchProblem g packetCost budget stateLimit) rest index selected p).map
        (ofProgress budget) := by
  induction rest generalizing index selected p with
  | nil =>
    rw [FactSearch.visit, BranchBound.visit, bound_eq, apply_ite (Except.map (ofProgress budget)),
      apply_ite (Except.map (ofProgress budget))]
    refine if_congr Iff.rfl rfl (if_congr Iff.rfl rfl ?_)
    rcases stateCost g packetCost ([] : List (List (SortedSet ℕ))).isEmpty selected with e | cost
    · rfl
    refine Eq.trans ?_ (apply_ite (Except.map (ofProgress budget)) _ _ _).symm
    refine if_congr (prune_iff packetCost budget _ p cost) rfl ?_
    simp [ofProgress, Except.map]
  | cons alternatives rest ih =>
    rw [FactSearch.visit, BranchBound.visit, bound_eq, apply_ite (Except.map (ofProgress budget)),
      apply_ite (Except.map (ofProgress budget))]
    refine if_congr Iff.rfl rfl (if_congr Iff.rfl rfl ?_)
    rcases stateCost g packetCost (alternatives :: rest).isEmpty selected with e | cost
    · rfl
    refine Eq.trans ?_ (apply_ite (Except.map (ofProgress budget)) _ _ _).symm
    refine if_congr (prune_iff packetCost budget _ p cost) rfl ?_
    exact foldlM_map _ _ (ofProgress budget) alternatives
      (fun a _ q => ih (index + 1) (selected.union a) q)
      ⟨p.states + 1, p.best, insert (index, selected) p.visited⟩

/-- The price of a whole choice: the caller's, or the exact sum of the node costs. -/
def price (g : ContextGraph) (packetCost : Option (SortedSet ℕ → ℕ)) : SortedSet ℕ → ℕ :=
  packetCost.getD g.exactCost

/-- A cost function of the caller that never fails. -/
def totalCost (packetCost : Option (SortedSet ℕ → ℕ)) : Option PacketCost :=
  packetCost.map fun f set => .ok (f set)

theorem subset_of_completes {layers : List (List (SortedSet ℕ))} {s t : SortedSet ℕ}
    (h : BranchBound.Completes SortedSet.union layers s t) : ∀ id ∈ s, id ∈ t := by
  induction h with
  | done s => exact fun id hid => hid
  | pick _ _ ih => exact fun id hid => ih id (SortedSet.mem_union.mpr (.inl hid))

theorem searchProblem_priced (g : ContextGraph) (packetCost : Option (SortedSet ℕ → ℕ))
    (budget stateLimit : ℕ) :
    BranchBound.Priced (searchProblem g (totalCost packetCost) budget stateLimit)
      (price g packetCost) := by
  rcases packetCost with _ | f
  · -- the sum of the node costs grows with the set
    have hbound : ∀ {rest : List (List (SortedSet ℕ))} {s c},
        (searchProblem g (totalCost none) budget stateLimit).bound rest s = .ok c →
          c = some (g.exactCost s) := by
      intro rest s c h
      change (g.cost s).map some = .ok c at h
      rw [g.cost_eq] at h
      split at h <;> simp [Except.map] at h
      exact h.symm
    exact
      { lower := fun hc ht => by
          have hcost := Option.some.inj (hbound hc)
          rw [hcost]
          exact g.exactCost_mono (subset_of_completes ht)
        leaf := fun hc => hbound hc }
  · exact
      { lower := fun {rest s c t} hc ht => by
          cases rest with
          | nil =>
            rw [BranchBound.completes_nil] at ht
            simp only [searchProblem, totalCost, Option.map_some, List.isEmpty_nil, if_true,
              Except.map, Except.ok.injEq, Option.some.injEq] at hc
            rw [ht, ← hc]
            exact le_rfl
          | cons => simp [searchProblem, totalCost] at hc
        leaf := fun {s c} hc => by
          simp only [searchProblem, totalCost, Option.map_some, List.isEmpty_nil, if_true,
            Except.map, Except.ok.injEq] at hc
          exact hc.symm }

theorem partial_iff {g : ContextGraph} {facts : List Fact} {closed : List (List (SortedSet ℕ))}
    (h : ClosedOf g facts closed) {packetCost : Option PacketCost} {budget stateLimit : ℕ}
    {x : ℕ × SortedSet ℕ} :
    BranchBound.Partial (searchProblem g packetCost budget stateLimit) closed ∅ x ↔
      PartialUnion g facts x := by
  have htake : ClosedOf g (facts.take x.1) (closed.take x.1) := List.forall₂_take x.1 h
  unfold BranchBound.Partial PartialUnion
  rw [h.length_eq, ← completes_iff_choice htake]
  rfl

/-! ## What the answers mean -/

/-- What each answer of `select_facts` and `select_facts_by` says about the choices. -/
def Answer (g : ContextGraph) (facts : List Fact) (budget stateLimit : ℕ)
    (packetCost : Option (SortedSet ℕ → ℕ)) : Except SelectionError Selection → Prop
  | .ok selection =>
    Choice g facts selection.selected ∧ selection.cost = price g packetCost selection.selected ∧
      selection.cost ≤ budget ∧ selection.budget = budget ∧
      ∀ set, Choice g facts set → selection.cost ≤ price g packetCost set
  | .error (.factsInfeasible b) =>
    b = budget ∧ ∀ set, Choice g facts set → budget < price g packetCost set
  | .error (.searchLimit l) =>
    l = stateLimit ∧ (stateLimit : ℕ∞) < {x | PartialUnion g facts x}.encard
  | .error (.invalid m) =>
    ¬ ValidFacts g facts ∨ (m = "cost overflow" ∧ packetCost = none ∧
      ∃ x, PartialUnion g facts x ∧ 2 ^ 64 ≤ g.exactCost x.2)
  | .error (.budgetInsufficient _ _) => False

/-- A bound fails only where the exact sum of the node costs needs more than 64 bits. -/
theorem overflow_of_bound_failed {g : ContextGraph} {packetCost : Option (SortedSet ℕ → ℕ)}
    {budget stateLimit : ℕ} {rest : List (List (SortedSet ℕ))} {s : SortedSet ℕ} {e : SelectionError}
    (h : (searchProblem g (totalCost packetCost) budget stateLimit).bound rest s = .error e) :
    e = .invalid "cost overflow" ∧ packetCost = none ∧ 2 ^ 64 ≤ g.exactCost s := by
  rcases packetCost with _ | f
  · change (g.cost s).map some = .error e at h
    rw [g.cost_eq] at h
    split at h
    · simp [Except.map] at h
    · rename_i hover
      simp only [Except.map, Except.error.injEq] at h
      exact ⟨h.symm, rfl, not_lt.mp hover⟩
  · simp only [searchProblem, totalCost, Option.map_some] at h
    split at h <;> simp [Except.map] at h

theorem selectFactsInner_answer (g : ContextGraph) (facts : List Fact) (budget stateLimit : ℕ)
    (packetCost : Option (SortedSet ℕ → ℕ)) :
    Answer g facts budget stateLimit packetCost
      (g.selectFactsInner budget facts stateLimit (totalCost packetCost)) := by
  have hclose := closeFacts_spec g ∅ facts
  unfold ContextGraph.selectFactsInner
  rcases hc : g.closeFacts ∅ facts with e | closed <;> simp only [hc] at hclose
  · obtain ⟨⟨m, rfl⟩, hinvalid⟩ := hclose
    exact .inl fun hvalid => hinvalid ⟨hvalid, fun _ _ => SortedSet.not_mem_empty _⟩
  have hexact := BranchBound.visit_exact closed ∅ (searchProblem_priced g packetCost budget stateLimit)
  have hvisit : FactSearch.visit g (totalCost packetCost) budget stateLimit closed 0 ∅ ⟨0, none, ∅⟩ = _ :=
    visit_eq g (totalCost packetCost) budget stateLimit closed 0 ∅ ⟨0, none, ∅⟩
  rcases hb : BranchBound.visit (searchProblem g (totalCost packetCost) budget stateLimit) closed 0 ∅
    ⟨0, none, ∅⟩ with e | q <;> simp only [hb] at hexact hvisit
  · -- the two reasons for a failure
    simp only [hvisit, bind, Except.bind, Except.map]
    rcases hexact with ⟨rfl, seen, hcard, hseen⟩ | ⟨x, hx, hfail⟩
    · have hle : (seen : Set (ℕ × SortedSet ℕ)).encard ≤ {x | PartialUnion g facts x}.encard :=
        Set.encard_le_encard fun x hx => (partial_iff hclose).mp (hseen x hx)
      have hlt : (stateLimit : ℕ∞) < (seen : Set (ℕ × SortedSet ℕ)).encard := by
        rw [Set.encard_coe_eq_coe_finsetCard]
        exact_mod_cast hcard
      exact ⟨rfl, hlt.trans_le hle⟩
    · obtain ⟨rfl, hnone, hover⟩ := overflow_of_bound_failed hfail
      exact .inr ⟨rfl, hnone, x, (partial_iff hclose).mp hx, hover⟩
  · simp only [hvisit, bind, Except.bind, Except.map]
    have hchoice : ∀ set, Choice g facts set →
        BranchBound.Completes SortedSet.union closed ∅ set :=
      fun set => (completes_iff_choice hclose).mpr
    rcases hbest : q.best with _ | b
    · simp only [ofProgress, hbest, Option.map_none]
      exact ⟨rfl, fun set hset => hexact.2 hbest set (hchoice set hset)⟩
    · obtain ⟨hcompl, hprice, hbudget, hleast⟩ := hexact.1 b hbest
      simp only [ofProgress, hbest, Option.map_some]
      exact ⟨(completes_iff_choice hclose).mp hcompl, hprice, hbudget, rfl,
        fun set hset => hleast set (hchoice set hset)⟩

/-- Every answer of the search is exact; a valid question without an overflow and with enough states
gets a selection as soon as some choice fits the budget. -/
theorem select_facts_exact (g : ContextGraph) (facts : List Fact) (budget stateLimit : ℕ)
    (packetCost : Option (SortedSet ℕ → ℕ)) :
    Answer g facts budget stateLimit packetCost
        (g.selectFactsInner budget facts stateLimit (totalCost packetCost)) ∧
      (ValidFacts g facts → {x | PartialUnion g facts x}.encard ≤ stateLimit →
        (packetCost = none → ∀ x, PartialUnion g facts x → g.exactCost x.2 < 2 ^ 64) →
        (∃ set, Choice g facts set ∧ price g packetCost set ≤ budget) →
        ∃ selection, g.selectFactsInner budget facts stateLimit (totalCost packetCost) = .ok selection) := by
  have hanswer := selectFactsInner_answer g facts budget stateLimit packetCost
  refine ⟨hanswer, fun hvalid hstates hsmall hfits => ?_⟩
  rcases hr : g.selectFactsInner budget facts stateLimit (totalCost packetCost) with e | selection <;>
    rw [hr] at hanswer
  · obtain ⟨set, hset, hle⟩ := hfits
    exfalso
    cases e with
    | invalid m =>
      rcases hanswer with hinvalid | ⟨-, hnone, x, hx, hover⟩
      · exact hinvalid hvalid
      · exact absurd (hsmall hnone x hx) (not_lt.mpr hover)
    | budgetInsufficient => exact hanswer
    | factsInfeasible b => exact absurd (hanswer.2 set hset) (not_lt.mpr hle)
    | searchLimit l => exact absurd hanswer.2 (not_lt.mpr hstates)
  · exact ⟨selection, rfl⟩

/-! ## An overflow hides a choice that fits -/

/-- Three nodes, the first of which uses up the whole range of a cost. -/
def heavyGraph : ContextGraph where
  nodes := ((SortedMap.empty.insert 1 ⟨1, 2 ^ 64 - 1, 0⟩).insert 2 ⟨2, 1, 0⟩).insert 3 ⟨3, 5, 0⟩
  requires := ∅
  known := by simp

/-- One fact that the first two nodes support together, and the third alone. -/
def heavyFact : Fact := ⟨"a", [SortedSet.ofList [1, 2], SortedSet.ofList [3]]⟩

/-- The third node fits the budget, but the cost of the first two cannot be added up, and the whole
search fails. -/
theorem heavyGraph_overflow :
    ContextGraph.new [⟨1, 2 ^ 64 - 1, 0⟩, ⟨2, 1, 0⟩, ⟨3, 5, 0⟩] [] = .ok heavyGraph ∧
      ValidFacts heavyGraph [heavyFact] ∧ Choice heavyGraph [heavyFact] (SortedSet.ofList [3]) ∧
      heavyGraph.exactCost (SortedSet.ofList [3]) ≤ 10 ∧
      heavyGraph.selectFacts 10 [heavyFact] 100 = .error (.invalid "cost overflow") := by
  refine ⟨by decide +kernel, ⟨by decide, ?_⟩, ⟨[SortedSet.ofList [3]], ?_, fun id => ?_⟩, by decide, by decide +kernel⟩
  · unfold ContextGraph.KnownSeeds
    simp only [SortedSet.mem_def]
    decide
  · exact .cons (by simp [heavyFact]) .nil
  · have hclosure := heavyGraph.closure_spec (SortedSet.ofList [3])
    rw [show heavyGraph.closure (SortedSet.ofList [3]) = .ok (SortedSet.ofList [3]) by decide +kernel]
      at hclosure
    rw [List.exists_mem_cons_iff, hclosure id]
    simp

end Innen.ContextSelection
