import Innen.Common.Worklist
import Mathlib.Data.Finset.Insert
import Mathlib.Data.String.Basic

/-!
# Directed context selection

A graph of nodes with costs, where a requires edge from `A` to `B` means that selecting `A` also
selects `B`. A list of facts, each with alternative sets of nodes, asks for one alternative per fact;
the search returns a cheapest union of the closures of such a choice. Costs are either added up over
the nodes or given by the caller for a whole set.

Node ids and costs are `u64` in the code; here they are natural numbers, and the places where a sum is
checked against the width of the type say so.
-/

namespace Innen.ContextSelection

open Innen.Common

/-! ## The relevance of a node -/

/-- A finite nonnegative `f64`, given by its bits, as a multiple of the least positive one. -/
def scaled (bits : UInt64) : ℕ :=
  let exponent := bits.toNat / 2 ^ 52 % 2 ^ 11
  let fraction := bits.toNat % 2 ^ 52
  if exponent = 0 then fraction else (2 ^ 52 + fraction) * 2 ^ (exponent - 1)

/-- The exponent of an `f64` that is no number or infinite has all bits set. -/
def isFinite (bits : UInt64) : Bool := bits.toNat / 2 ^ 52 % 2 ^ 11 ≠ 2 ^ 11 - 1

/-- Below zero: the sign bit is set and the value is not the negative zero. -/
def isNegative (bits : UInt64) : Bool := 2 ^ 63 < bits.toNat

/-- Round to 53 significant bits, ties to even. -/
def roundEven (n : ℕ) : ℕ :=
  if n < 2 ^ 53 then n
  else
    let unit := 2 ^ (Nat.log2 n - 52)
    let quotient := n / unit
    let remainder := n % unit
    let up := unit < 2 * remainder ∨ (2 * remainder = unit ∧ quotient % 2 = 1)
    (if up then quotient + 1 else quotient) * unit

/-- The sum of finite nonnegative numbers, rounded after every addition, as `f64` computes it. -/
def sumScaled (bits : List UInt64) : ℕ :=
  bits.foldl (fun total b => roundEven (total + scaled b)) 0

/-- The first multiple of the least positive `f64` that is infinite. -/
def infinity : ℕ := 2 ^ 2098

/-! ## The graph -/

/-- A node of the graph. -/
structure Node where
  id : ℕ
  cost : ℕ
  /-- The bits of an `f64`. -/
  relevance : UInt64
deriving DecidableEq

/-- The two kinds of edges. -/
inductive Relation where
  | requires
  | related
deriving DecidableEq

/-- A directed edge. -/
structure Edge where
  «from» : ℕ
  «to» : ℕ
  relation : Relation
deriving DecidableEq

/-- All facts are needed; of a fact one alternative; of an alternative all nodes. -/
structure Fact where
  id : String
  alternatives : List (SortedSet ℕ)

/-- Why a selection fails. -/
inductive SelectionError where
  | invalid (message : String)
  | budgetInsufficient (required budget : ℕ)
  | factsInfeasible (budget : ℕ)
  | searchLimit (limit : ℕ)
deriving DecidableEq

/-- The text of an error (`Display`). -/
def SelectionError.text : SelectionError → String
  | .invalid message => "invalid graph: " ++ message
  | .budgetInsufficient required budget =>
    "required context costs " ++ toString required ++ ", exceeding budget " ++ toString budget
  | .factsInfeasible budget => "no evidence combination fits budget " ++ toString budget
  | .searchLimit limit =>
    "evidence search exceeded " ++ toString limit ++ " states; feasibility is unknown"

/-- A selected set with its cost and the budget it was found under. -/
structure Selection where
  selected : SortedSet ℕ
  cost : ℕ
  budget : ℕ
deriving DecidableEq

/-- The nodes by id and the targets of the requires edges, all of them known nodes. -/
@[ext] structure ContextGraph where
  nodes : SortedMap ℕ Node
  requires : SortedMap ℕ (SortedSet ℕ)
  known : ∀ id targets, requires.get? id = some targets → ∀ t ∈ targets, (nodes.get? t).isSome

namespace ContextGraph

instance : DecidableEq ContextGraph := fun g h =>
  decidable_of_iff (g.nodes = h.nodes ∧ g.requires = h.requires) ContextGraph.ext_iff.symm

/-- The targets of the requires edges of a node. -/
def neighbors (g : ContextGraph) (id : ℕ) : SortedSet ℕ := (g.requires.get? id).getD ∅

theorem mem_keys_of_mem_neighbors (g : ContextGraph) (id : ℕ) :
    ∀ t ∈ (g.neighbors id).elems, t ∈ g.nodes.keys := by
  intro t ht
  unfold neighbors at ht
  rcases hget : g.requires.get? id with _ | targets
  · rw [hget] at ht
    exact absurd ht List.not_mem_nil
  · rw [hget] at ht
    exact g.nodes.mem_keys_iff.mpr (g.known id targets hget t ht)

/-- Take in one more node. -/
def addNode (nodes : SortedMap ℕ Node) (node : Node) : Except SelectionError (SortedMap ℕ Node) :=
  if node.cost = 0 ∨ !isFinite node.relevance ∨ isNegative node.relevance then
    .error (.invalid "cost must be positive and relevance finite/nonnegative")
  else if (nodes.get? node.id).isSome then .error (.invalid "duplicate node")
  else .ok (nodes.insert node.id node)

/-- Take in one more edge; only a requires edge leaves a trace. -/
def addEdge (g : ContextGraph) (edge : Edge) : Except SelectionError ContextGraph :=
  if h : (g.nodes.get? edge.from).isSome ∧ (g.nodes.get? edge.to).isSome then
    match edge.relation with
    | .requires => .ok
      { nodes := g.nodes
        requires := g.requires.upsert edge.from ∅ fun targets => targets.insert edge.to
        known := by
          intro id targets hget t ht
          rw [SortedMap.get?_upsert] at hget
          split at hget
          · obtain rfl := Option.some.inj hget
            rcases SortedSet.mem_insert.mp ht with rfl | ht
            · exact h.2
            · exact g.nodes.mem_keys_iff.mp (g.mem_keys_of_mem_neighbors edge.from t ht)
          · exact g.known id targets hget t ht }
    | .related => .ok g
  else .error (.invalid "dangling edge")

/-- `ContextGraph::new`. -/
def new (nodes : List Node) (edges : List Edge) : Except SelectionError ContextGraph := do
  let nodes ← nodes.foldlM addNode ∅
  if infinity ≤ sumScaled (nodes.values.map (·.relevance)) then
    .error (.invalid "total relevance overflow")
  edges.foldlM addEdge ⟨nodes, ∅, by simp⟩

/-- The seeds with everything they require, or an error when a seed is unknown. -/
def closure (g : ContextGraph) (seeds : SortedSet ℕ) : Except SelectionError (SortedSet ℕ) :=
  if seeds.elems.any fun s => (g.nodes.get? s).isNone then .error (.invalid "unknown seed")
  else
    -- the code pops from the end of a vector that holds the seeds in ascending order
    .ok (Worklist.collect g.nodes.keys (fun id => (g.neighbors id).elems) g.mem_keys_of_mem_neighbors
      seeds seeds.elems.reverse)

/-- The cost of one node; the code indexes the map, and only asks for known nodes. -/
def nodeCost (g : ContextGraph) (id : ℕ) : ℕ := (g.nodes.get? id).elim 0 (·.cost)

/-- Add a cost to a total, unless the sum needs more than 64 bits. -/
def checkedAdd (g : ContextGraph) (total id : ℕ) : Except SelectionError ℕ :=
  if total + g.nodeCost id < 2 ^ 64 then .ok (total + g.nodeCost id)
  else .error (.invalid "cost overflow")

/-- The cost of a set. -/
def cost (g : ContextGraph) (ids : SortedSet ℕ) : Except SelectionError ℕ :=
  ids.elems.foldlM g.checkedAdd 0

end ContextGraph

/-! ## The search -/

/-- A cost of whole sets supplied by the caller. -/
abbrev PacketCost := SortedSet ℕ → Except SelectionError ℕ

/-- What the search keeps between calls. -/
structure FactSearch where
  states : ℕ
  best : Option Selection
  visited : Finset (ℕ × SortedSet ℕ)

/-- The cost computed at a partial union: the caller's at a leaf only, the sum of the nodes everywhere. -/
def stateCost (g : ContextGraph) (packetCost : Option PacketCost) (leaf : Bool)
    (selected : SortedSet ℕ) : Except SelectionError ℕ :=
  match packetCost with
  | some packetCost => if leaf then packetCost selected else .ok 0
  | none => g.cost selected

/-- `FactSearch::visit`; the first argument holds the alternatives from `index` on. -/
def FactSearch.visit (g : ContextGraph) (packetCost : Option PacketCost) (budget stateLimit : ℕ) :
    List (List (SortedSet ℕ)) → ℕ → SortedSet ℕ → FactSearch → Except SelectionError FactSearch
  | rest, index, selected, search =>
    if (index, selected) ∈ search.visited then .ok search
    else if stateLimit ≤ search.states then .error (.searchLimit stateLimit)
    else
      let entered : FactSearch :=
        ⟨search.states + 1, search.best, insert (index, selected) search.visited⟩
      match stateCost g packetCost rest.isEmpty selected with
      | .error e => .error e
      | .ok cost =>
        if (packetCost.isNone ∨ rest.isEmpty) ∧ (budget < cost ∨ ∃ b ∈ search.best, b.cost ≤ cost) then
          .ok entered
        else
          match rest with
          | [] => .ok { entered with best := some ⟨selected, cost, budget⟩ }
          | alternatives :: rest =>
            alternatives.foldlM (fun next alternative =>
              visit g packetCost budget stateLimit rest (index + 1) (selected.union alternative) next)
              entered

namespace ContextGraph

/-- A fact the search refuses: no id, a repeated id, no alternative or an empty one. -/
def refused (ids : SortedSet String) (fact : Fact) : Bool :=
  fact.id = "" ∨ fact.id ∈ ids ∨ fact.alternatives = [] ∨ ∃ a ∈ fact.alternatives, a.elems = []

/-- Check the facts and close their alternatives. -/
def closeFacts (g : ContextGraph) :
    SortedSet String → List Fact → Except SelectionError (List (List (SortedSet ℕ)))
  | _, [] => .ok []
  | ids, fact :: rest => do
    if refused ids fact then
      .error (.invalid "facts require unique IDs and nonempty evidence alternatives")
    let closed ← fact.alternatives.mapM g.closure
    let others ← closeFacts g (ids.insert fact.id) rest
    .ok (closed :: others)

/-- `ContextGraph::select_facts_inner`. -/
def selectFactsInner (g : ContextGraph) (budget : ℕ) (facts : List Fact) (stateLimit : ℕ)
    (packetCost : Option PacketCost) : Except SelectionError Selection := do
  let closed ← g.closeFacts ∅ facts
  let search ← FactSearch.visit g packetCost budget stateLimit closed 0 ∅ ⟨0, none, ∅⟩
  match search.best with
  | some best => .ok best
  | none => .error (.factsInfeasible budget)

/-- `ContextGraph::select_facts`. -/
def selectFacts (g : ContextGraph) (budget : ℕ) (facts : List Fact) (stateLimit : ℕ) :
    Except SelectionError Selection := g.selectFactsInner budget facts stateLimit none

/-- `ContextGraph::select_facts_by`. -/
def selectFactsBy (g : ContextGraph) (budget : ℕ) (facts : List Fact) (stateLimit : ℕ)
    (cost : PacketCost) : Except SelectionError Selection :=
  g.selectFactsInner budget facts stateLimit (some cost)

end ContextGraph

end Innen.ContextSelection
