import Innen.Graph.EdgeType

/-!
# Which edges are legal

Core kinds of nodes may only be connected as the adjacency rows say. A custom kind of a node or an edge is open, but needs
provenance, and a URI may only be the end of a location.
-/

namespace Innen.Graph

open Common

/-- Graph node kind. -/
inductive NodeType
  | conversation
  | task
  | decision
  | experiment
  | dataset
  | model
  | artifact
  | project
  | product
  | custom (s : String)
deriving DecidableEq, Repr

namespace NodeType

/-- Canonical display name; a custom node keeps its string. -/
def name : NodeType → String
  | conversation => "Conversation"
  | task => "Task"
  | decision => "Decision"
  | experiment => "Experiment"
  | dataset => "Dataset"
  | model => "Model"
  | artifact => "Artifact"
  | project => "Project"
  | product => "Product"
  | custom s => s

/-- The core kinds, those with a name of their own. -/
def core : List NodeType :=
  [conversation, task, decision, experiment, dataset, model, artifact, project, product]

/-- `NodeType::from_str`: the arms of its match are the names of the core kinds without regard to ASCII case. -/
def parse (s : String) : NodeType := (core.find? fun n => asciiLower n.name == asciiLower s).getD (custom s)

/-- Whether a kind is none of the core. -/
def isCustom : NodeType → Bool
  | custom _ => true
  | _ => false

end NodeType

/-- Whether a kind is none of the core. -/
def EdgeType.isCustom : EdgeType → Bool
  | .custom _ => true
  | _ => false

/-- Edge target: either a typed node or an external URI string. -/
inductive Endpoint
  | node (kind : NodeType)
  | uri (uri : String)
deriving DecidableEq

/-- How an endpoint is shown. -/
def Endpoint.text : Endpoint → String
  | node kind => kind.name
  | uri s => s

/-- Why `validate` rejects a triple. -/
inductive AdjacencyError
  | illegalPair («from» edge «to» : String)
  | badUri (uri : String)
  | missingProvenance
deriving DecidableEq

/-- `has_valid_provenance`. -/
def hasValidProvenance (provenance : Option String) : Bool := provenance.any fun p => trim p ≠ ""

/-- `is_uri_shape`. -/
def isUriShape (s : String) : Bool := decide (s ≠ "") && (startsWith s "/" || containsText s "://")

/-- The adjacency rows between core nodes. -/
def adjacencyRows : List (NodeType × EdgeType × NodeType) :=
  [(.conversation, .belongsTo, .project), (.task, .belongsTo, .project), (.decision, .belongsTo, .project),
    (.experiment, .belongsTo, .project), (.artifact, .belongsTo, .project),
    (.conversation, .followsUp, .conversation), (.conversation, .followsUp, .task), (.task, .followsUp, .task),
    (.task, .followsUp, .decision), (.task, .followsUp, .conversation), (.task, .followsUp, .artifact),
    (.decision, .followsUp, .task), (.decision, .followsUp, .decision),
    (.decision, .supports, .task), (.decision, .supports, .decision), (.experiment, .supports, .task),
    (.experiment, .supports, .decision),
    (.experiment, .evaluates, .product), (.experiment, .evaluates, .dataset), (.experiment, .evaluates, .model),
    (.experiment, .discussedIn, .conversation), (.decision, .discussedIn, .conversation),
    (.model, .derivedFrom, .dataset), (.model, .derivedFrom, .model), (.model, .derivedFrom, .conversation),
    (.dataset, .derivedFrom, .dataset), (.dataset, .derivedFrom, .model), (.dataset, .derivedFrom, .conversation),
    (.artifact, .derivedFrom, .dataset), (.artifact, .derivedFrom, .model), (.artifact, .derivedFrom, .conversation),
    (.artifact, .supersedes, .artifact), (.decision, .supersedes, .decision),
    (.artifact, .contains, .artifact), (.artifact, .partOf, .artifact),
    (.product, .informs, .project), (.experiment, .informs, .project)]

/-- `validate`. -/
def validate («from» : NodeType) (edge : EdgeType) («to» : Endpoint) (provenance : Option String) :
    Except AdjacencyError Unit :=
  let illegal : AdjacencyError := .illegalPair from.name edge.name to.text
  let customParty := from.isCustom || edge.isCustom || match «to» with
    | .node kind => kind.isCustom
    | .uri _ => false
  if customParty && !hasValidProvenance provenance then .error .missingProvenance
  else
    match «to» with
    | .uri uri =>
      if edge ≠ .locatedAt ∧ edge ≠ .originatedAt then .error illegal
      else if isUriShape uri = false then .error (.badUri uri)
      else if customParty then .ok ()
      else if «from» ∈ [NodeType.dataset, .model, .artifact] then .ok ()
      else .error illegal
    | .node kind =>
      if customParty then .ok ()
      else if («from», edge, kind) ∈ adjacencyRows then .ok ()
      else .error illegal

/-- The rows only connect core kinds by core edges. -/
example : ∀ row ∈ adjacencyRows, row.1 ∈ NodeType.core ∧ row.2.1 ∈ EdgeType.core ∧ row.2.2 ∈ NodeType.core := by decide

end Innen.Graph
