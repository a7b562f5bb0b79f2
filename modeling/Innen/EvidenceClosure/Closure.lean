import Innen.Common.BreadthFirst
import Innen.EvidenceClosure.Snapshot

/-!
# Closing an alternative

Starting from the roots of an alternative, every dependency is followed breadth first. Each node must be
eligible: in scope, pinned with the hash of its replayed content, observed inside the window, with a
provenance. The walk stops at the first thing that is not in order, a contradiction included; what it
reports names a node in scope only.
-/

namespace Innen.EvidenceClosure

open Innen.Common Innen.Graph

/-- Why an alternative is rejected. -/
inductive Reason where
  | scopeOrSourceUnavailable
  | sourcePinMissing
  | sourceChanged
  | observationTimeUnknown
  | observationOutsideWindow
  | sourceProvenanceMissing
  | unresolvedConflict
  | dependencyProvenanceMissing
  | hopLimit
  | dependencyTraceMissing
deriving DecidableEq

/-- The text of a reason. -/
def Reason.text : Reason → String
  | .scopeOrSourceUnavailable => "scope_or_source_unavailable"
  | .sourcePinMissing => "source_pin_missing"
  | .sourceChanged => "source_changed"
  | .observationTimeUnknown => "observation_time_unknown"
  | .observationOutsideWindow => "observation_outside_window"
  | .sourceProvenanceMissing => "source_provenance_missing"
  | .unresolvedConflict => "unresolved_conflict"
  | .dependencyProvenanceMissing => "dependency_provenance_missing"
  | .hopLimit => "hop_limit"
  | .dependencyTraceMissing => "dependency_trace_missing"

/-- A reason with the node it concerns, which is told only when it is in scope. -/
abbrev Problem := Reason × Option String

variable (P : Platform) (c : Contract) (s : Snapshot)

/-- `problem`. -/
def problem (reason : Reason) (id : String) : Problem :=
  (reason, if id ∈ c.scopeNodes then some id else none)

/-- A provenance that is absent or blank. -/
def blankProvenance (provenance : Option String) : Bool := provenance.all blank

/-- `eligible`: nothing, or the first check that fails. Pins are hexadecimal, so lower case is that of
ASCII. -/
def ineligible (id : String) : Option Reason :=
  if id ∉ c.scopeNodes then some .scopeOrSourceUnavailable
  else
    match c.sources.get? id with
    | none => some .sourcePinMissing
    | some pin =>
      match s.graph.nodes.get? id with
      | none => some .scopeOrSourceUnavailable
      | some node =>
        if P.sha256Hex (node.toText P.floatText).toUTF8 ≠ asciiLower pin then some .sourceChanged
        else
          match (node.index "observed_utc").asStr?.filter timestamp with
          | none => some .observationTimeUnknown
          | some observed =>
            if observed < c.minObservedUtc ∨ c.asOf < observed then some .observationOutsideWindow
            else if blankProvenance (node.index "provenance").asStr? then some .sourceProvenanceMissing
            else none

/-- A dependency that was followed, with its citations. -/
structure Path where
  receipt : Value
  citations : List Citation

/-- The JSON of a path. -/
def Path.json (p : Path) : Value :=
  p.receipt.set "journal_citations" (.array (p.citations.map Citation.json))

/-- The paths found, and the texts of those. -/
structure Trace where
  paths : List Path
  seenEdges : SortedSet String

/-- Record a path unless one with the same text is there. -/
def Trace.add (trace : Trace) (p : Path) : Trace :=
  let text := p.json.toText P.floatText
  if text ∈ trace.seenEdges then trace else ⟨trace.paths ++ [p], trace.seenEdges.insert text⟩

/-- The rows filed under a node. -/
def rowsAt (id : String) : List StoredEdge := (s.adjacency.get? id).getD []

/-- What is wrong with following the dependency `e` from the node `id` at some depth. -/
def dependencyProblem (nodes : SortedSet String) (id : String) (depth : ℕ) (e : StoredEdge) :
    Option Problem :=
  match ineligible P c s e.to with
  | some reason => some (problem c reason e.to)
  | none =>
    if blankProvenance e.provenance then some (problem c .dependencyProvenanceMissing id)
    else if c.maxHops ≤ depth ∧ e.to ∉ nodes then some (problem c .hopLimit id)
    else if (s.edgeCitations.get? (receiptText P e)).isNone then some (problem c .dependencyTraceMissing id)
    else none

/-- The other end of a contradiction at `id`. -/
def otherEnd (id : String) (e : StoredEdge) : String := if e.from = id then e.to else e.from

/-- A contradiction with `id` as one end. -/
def contradicts (id : String) (e : StoredEdge) : Bool :=
  e.edge.name = "CONTRADICTS" ∧ (e.from = id ∨ e.to = id)

/-- What is reported of a contradiction at `id`. -/
def contradictionProblem (id : String) (e : StoredEdge) : Problem :=
  if otherEnd id e ∉ c.scopeNodes then (.scopeOrSourceUnavailable, none)
  else problem c .unresolvedConflict (otherEnd id e)

/-- Inspect one row filed under `id`: stop, pass it over, or follow it. -/
def inspectRow (nodes : SortedSet String) (id : String) (depth : ℕ) (acc : List String × Trace)
    (e : StoredEdge) : Except Problem (List String × Trace) :=
  if contradicts id e then .error (contradictionProblem c id e)
  else if e.from ≠ id ∨ e.edge.name ≠ "DEPENDS_ON" then .ok acc
  else
    match dependencyProblem P c s nodes id depth e with
    | some p => .error p
    | none =>
      let path : Path := ⟨edgeReceipt e, (s.edgeCitations.get? (receiptText P e)).getD []⟩
      .ok (if e.to ∈ nodes then acc.1 else acc.1 ++ [e.to], acc.2.add P path)

/-- Visit a node: it must be eligible, then its rows are inspected in order. -/
def visitNode (nodes : SortedSet String) (id : String) (depth : ℕ) (trace : Trace) :
    Except Problem (List String × Trace) :=
  match ineligible P c s id with
  | some reason => .error (problem c reason id)
  | none => (rowsAt s id).foldlM (inspectRow P c s nodes id depth) ([], trace)

theorem mem_scope_of_ineligible {id : String} (h : ineligible P c s id = none) : id ∈ c.scopeNodes := by
  by_contra hid
  rw [ineligible, if_pos hid] at h
  cases h

/-- The walk: only nodes in scope are ever visited, so it ends. -/
def closureSearch : BreadthFirst.Search String Trace Problem where
  known := c.scopeNodes.elems
  expand := visitNode P c s
  mem_known := by
    intro nodes id depth trace r h
    unfold visitNode at h
    split at h
    · cases h
    · rename_i hnone
      exact mem_scope_of_ineligible P c s hnone

/-- An alternative whose dependencies were all followed. -/
structure Alternative where
  roots : SortedSet String
  nodes : SortedSet String
  paths : List Path

/-- `closure`. -/
def closure (roots : SortedSet String) : Except Problem Alternative :=
  match BreadthFirst.run (closureSearch P c s) ∅ ⟨[], ∅⟩ (roots.elems.map fun id => (id, 0)) with
  | .error p => .error p
  | .ok (nodes, trace) => .ok ⟨roots, nodes, trace.paths⟩

end Innen.EvidenceClosure
