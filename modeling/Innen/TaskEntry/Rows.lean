import Innen.TaskEntry.Baseline
import Mathlib.Data.List.Destutter

/-!
# The rows of an answer

The constraints of the projects that the best candidates belong to are listed apart: the ones with the most of the
request first, without those that say nearly the same. The rows are the candidates that are left after folding, without
those that the constraints list already, from an offset on and up to a limit.
-/

namespace Innen.TaskEntry

open Common Graph

variable {σ : Type}

/-- The arithmetic of weights that the rows need. -/
structure Weighing (σ : Type) where
  /-- The sum of the weights of the terms that hit, by the number of nodes, and how many nodes have each term. -/
  sum : ℕ → List (ℕ × Bool) → σ
  /-- Whether a score is at least half the best one. -/
  halfOf : σ → σ → Bool

/-! ## Constraints -/

/-- The pairs of neighbouring characters of a text without white space. -/
def bigrams (s : String) : List (Char × Char) :=
  let cs := s.toList.filter fun c => !isWhitespace c
  (cs.zip cs.tail).dedup

/-- `near_duplicate`: the shared pairs are at least 0.85 of the mean number of pairs. -/
def nearDuplicate (a b : String) : Bool :=
  if bigrams a = [] ∨ bigrams b = [] then trim a = trim b
  else 17 * ((bigrams a).length + (bigrams b).length) ≤ 40 * ((bigrams a).filter (· ∈ bigrams b)).length

/-- A constraint as it is shown. -/
structure ConstraintRow where
  id : String
  text : String
  source : String
deriving DecidableEq

/-- `CONSTRAINT_LIMIT`. -/
def constraintLimit : ℕ := 12

section

variable [LinearOrder σ] (E : Engine σ) (W : Weighing σ)

/-- How much of the request a constraint says. -/
def constraintHits (nodes : SortedMap String Value) (terms : List String) (node : Value) : σ :=
  let hay := E.lower (nodeText node "body" ++ " " ++ nodeText node "label")
  W.sum nodes.entries.length
    (terms.map fun term => (documentFrequency E nodes term, containsText hay (E.lower term)))

/-- The row of an edge, unless the edge is passed over. -/
def constraintRow (graph : Materialized) (projects : SortedSet String) (terms : List String) (edge : StoredEdge) :
    Option (σ × ConstraintRow) :=
  if edge.retracted = true ∨ edge.edge ≠ .belongsTo ∨ edge.to ∉ projects then none
  else ((graph.nodes.get? edge.from).filter fun node => sameAscii (nodeText node "type") "constraint").map fun node =>
    (constraintHits E W graph.nodes terms node, ⟨edge.from, nodeText node "body", nodeText node "provenance"⟩)

/-- Keep a row that says something new. -/
def addDistinct (kept : List ConstraintRow) (row : ConstraintRow) : List ConstraintRow :=
  if kept.any fun k => nearDuplicate k.text row.text then kept else kept ++ [row]

/-- `project_constraints`: the rows that are shown, and how many rows there are. -/
def projectConstraints (graph : Materialized) (projects : SortedSet String) (terms : List String) :
    List ConstraintRow × ℕ :=
  let rows := (graph.edges.filterMap (constraintRow E W graph projects terms)).insertionSort
    fun a b => b.1 < a.1 ∨ (a.1 = b.1 ∧ a.2.id ≤ b.2.id)
  let kept := ((rows.map Prod.snd).destutter fun a b => a.id ≠ b.id).foldl addDistinct []
  (kept.take constraintLimit, kept.length)

/-! ## Rows -/

/-- `MIN_KEPT`. -/
def minKept : ℕ := 3

/-- `prune_candidates`. -/
def pruneCandidates (ranked : List (Candidate σ)) (shown : List String) (perTerm : Bool) : List (Candidate σ) :=
  let fresh := ranked.filter fun c => c.id ∉ shown
  let base := if fresh = [] then ranked else fresh
  if perTerm then
    let top := (base.head?.map Candidate.score).getD E.zero
    (base.zipIdx.filter fun e => decide (e.2 < minKept) || W.halfOf top e.1.score).map Prod.fst
  else base

/-- The rows of an answer and what is listed apart. -/
structure Page (σ : Type) where
  constraints : List ConstraintRow
  constraintsTotal : ℕ
  rows : List (Candidate σ)
  total : ℕ
  nextOffset : Option ℕ

/-- The page of an answer for a graph. -/
def pageFor (graph : Materialized) (q : String) (offset limit : ℕ) : Page σ :=
  let r := Request.of E q
  let found := admitted E r graph.nodes
  let ranked := (foldRanked found.1 graph.nodes).1
  let part := decide (found.2 ≠ []) || ranked.any fun c => startsWith c.why "term_coverage:"
  let constraints := projectConstraints E W graph (focusProjects E ranked graph) r.terms
  let pruned := pruneCandidates E W ranked (constraints.1.map ConstraintRow.id) part
  let rows := (pruned.drop offset).take limit
  ⟨constraints.1, constraints.2, rows, pruned.length,
    if offset + rows.length < pruned.length then some (offset + rows.length) else none⟩

end

end Innen.TaskEntry
