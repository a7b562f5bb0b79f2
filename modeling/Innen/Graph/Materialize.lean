import Innen.Graph.EdgeType
import Innen.Json.Value

/-!
# Journal replay

`materialize` replays journal events into merged nodes and edge rows. It is one fold of
`materializeStep` over the events, followed by the validity filter on edge rows.

A step does one of three things to the state: merge a node, push an edge row, or mark rows as
retracted. `materializeStep_cases` says which, with everything a later proof needs.
-/

namespace Innen.Graph

open Common

/-- One asserted edge row. Retracted rows are retained. -/
structure StoredEdge where
  «from» : String
  edge : EdgeType
  «to» : String
  /-- The bits of the `f32` weight. -/
  weight : Option UInt32
  validFrom : String
  validUntil : Option String
  retracted : Bool
  observedUtc : String
  provenance : Option String
deriving DecidableEq, Repr

/-- Replay result: merged nodes by id plus edge rows in assertion order. -/
structure Materialized where
  nodes : SortedMap String Value
  edges : List StoredEdge
deriving DecidableEq

namespace Materialized

/-- The state before the first event. -/
def empty : Materialized := ⟨∅, []⟩

end Materialized

/-- Canonical `YYYY-MM-DDTHH:MM:SSZ` shape check. -/
def isCanonicalTs (s : String) : Bool := utcShape s

/-! ## Reading an event -/

/-- `event.get("op").as_str()`. -/
def eventOp (event : Value) : Option String := (event.get? "op").bind Value.asStr?

/-- `event.get("payload").as_object()`. -/
def eventPayload (event : Value) : Option Fields := (event.get? "payload").bind Value.asObject?

/-- `event.get("observed_utc").as_str()`. -/
def envObserved (event : Value) : Option String := (event.get? "observed_utc").bind Value.asStr?

/-- A string field of a payload. -/
def strField (payload : Fields) (key : String) : Option String :=
  (Assoc.get? key payload).bind Value.asStr?

/-! ## Node merge -/

/-- Merge one payload field into the stored fields: the larger of two string timestamps stays, any other
value replaces what is stored. -/
def mergeField (stored : Fields) (k : String) (v : Value) : Fields :=
  if k = "observed_utc" then
    match strField stored "observed_utc", v.asStr? with
    | some cur, some inc => if cur ≥ inc then stored else Assoc.insert k v stored
    | none, some _ => Assoc.insert k v stored
    | _, none => Assoc.insert k v stored
  else Assoc.insert k v stored

/-- Merge all payload fields, in map order. -/
def mergeFields (stored payload : Fields) : Fields :=
  payload.foldl (fun acc e => mergeField acc e.1 e.2) stored

/-- Raise the stored timestamp to the envelope's. -/
def mergeEnv (stored : Fields) (env : Option String) : Fields :=
  match env with
  | none => stored
  | some env =>
      if (strField stored "observed_utc").any (fun cur => decide (cur ≥ env)) then stored
      else Assoc.insert "observed_utc" (.string env) stored

/-- Merge a node event into an entry. -/
def mergeNode (entry : Value) (payload : Fields) (env : Option String) : Value :=
  match entry with
  | .object stored => .object (mergeEnv (mergeFields stored payload) env)
  | _ => .object payload

/-! ## Edge rows -/

/-- The `f32` bits of a JSON weight (`as_f64` then `as f32`). -/
def weightBits (v : Value) : Option UInt32 :=
  match v with
  | .number n => some n.asF64.toFloat32.toBits
  | _ => none

/-- The end points and kind named by an edge payload. -/
def edgeKey (payload : Fields) : Option (String × EdgeType × String) :=
  match strField payload "from", strField payload "to", strField payload "type" with
  | some «from», some «to», some typ => some («from», EdgeType.parse typ, «to»)
  | _, _, _ => none

/-- The row asserted by an edge payload, unless one of its timestamps is not canonical. -/
def assertedRow (payload : Fields) (env : Option String) : Option StoredEdge :=
  match edgeKey payload with
  | none => none
  | some («from», edge, «to») =>
      let validFrom := ((strField payload "valid_from").or env).getD ""
      let validUntil := strField payload "valid_until"
      let observedUtc := ((strField payload "observed_utc").or env).getD ""
      if validFrom ≠ "" ∧ ¬ isCanonicalTs validFrom then none
      else if validUntil.any (fun u => !isCanonicalTs u) then none
      else if observedUtc ≠ "" ∧ ¬ isCanonicalTs observedUtc then none
      else some {
        «from», edge, «to»
        weight := (Assoc.get? "weight" payload).bind weightBits
        validFrom, validUntil
        retracted := false
        observedUtc
        provenance := strField payload "provenance" }

/-- The identity a retraction compares: end points and kind. -/
def StoredEdge.key (row : StoredEdge) : String × EdgeType × String := (row.from, row.edge, row.to)

/-- Mark a row as retracted when it has the given identity. -/
def StoredEdge.retract (key : String × EdgeType × String) (row : StoredEdge) : StoredEdge :=
  if row.key = key then { row with retracted := true } else row

/-! ## Replay -/

/-- Replay one event. Malformed events and unknown operations change nothing. -/
def materializeStep (m : Materialized) (event : Value) : Materialized :=
  match eventOp event, eventPayload event with
  | some op, some payload =>
      match op with
      | "node.upsert" =>
          match strField payload "id" with
          | none => m
          | some id =>
              { m with
                nodes := m.nodes.upsert id (.object [("id", .string id)])
                  (fun entry => mergeNode entry payload (envObserved event)) }
      | "edge.assert" =>
          match assertedRow payload (envObserved event) with
          | none => m
          | some row => { m with edges := m.edges ++ [row] }
      | "edge.retract" =>
          match edgeKey payload with
          | none => m
          | some key => { m with edges := m.edges.map (StoredEdge.retract key) }
      | _ => m
  | _, _ => m

/-- Replay all events in order. -/
def replay (events : List Value) : Materialized := events.foldl materializeStep .empty

/-- The validity window of a row contains `cutoff`, both ends included. -/
def StoredEdge.validAt (cutoff : String) (row : StoredEdge) : Bool :=
  decide (row.validFrom ≤ cutoff) && row.validUntil.all (fun u => decide (cutoff ≤ u))

/-- Replay journal events into a snapshot; `now` is the clock reading used when `asOf` is absent. -/
def materialize (events : List Value) (asOf : Option String) (now : String) (includeExpired : Bool) :
    Materialized :=
  let m := replay events
  if includeExpired then m
  else { m with edges := m.edges.filter (StoredEdge.validAt (asOf.getD now)) }

/-! ## What a step does -/

/-- The payload of an event that carries the operation `op`. -/
def payloadOf (op : String) (event : Value) : Option Fields :=
  if eventOp event = some op then eventPayload event else none

/-- The node a step merges into, with the payload and the envelope timestamp it merges. -/
def upsertOf (event : Value) : Option (String × Fields × Option String) :=
  (payloadOf "node.upsert" event).bind fun payload =>
    (strField payload "id").map fun id => (id, payload, envObserved event)

/-- The row a step asserts. -/
def assertOf (event : Value) : Option StoredEdge :=
  (payloadOf "edge.assert" event).bind fun payload => assertedRow payload (envObserved event)

/-- The identity a step retracts. -/
def retractOf (event : Value) : Option (String × EdgeType × String) :=
  (payloadOf "edge.retract" event).bind edgeKey

/-- The nodes after a step. -/
theorem materializeStep_nodes (m : Materialized) (event : Value) :
    (materializeStep m event).nodes =
      match upsertOf event with
      | none => m.nodes
      | some (id, payload, env) =>
          m.nodes.upsert id (.object [("id", .string id)]) fun entry => mergeNode entry payload env := by
  unfold materializeStep upsertOf payloadOf
  rcases eventOp event with _ | op
  · simp
  rcases eventPayload event with _ | payload
  · simp
  dsimp only
  split
  · rcases h : strField payload "id" with _ | id <;> simp [h]
  · rcases assertedRow payload (envObserved event) with _ | row <;> simp
  · rcases edgeKey payload with _ | key <;> simp
  · rename_i h _ _
    simp [show op ≠ "node.upsert" from h]

/-- The edge rows after a step. -/
theorem materializeStep_edges (m : Materialized) (event : Value) :
    (materializeStep m event).edges =
      match assertOf event, retractOf event with
      | some row, _ => m.edges ++ [row]
      | none, some key => m.edges.map (StoredEdge.retract key)
      | none, none => m.edges := by
  unfold materializeStep assertOf retractOf payloadOf
  rcases eventOp event with _ | op
  · simp
  rcases eventPayload event with _ | payload
  · simp
  dsimp only
  split
  · rcases strField payload "id" with _ | id <;> simp
  · rcases h : assertedRow payload (envObserved event) with _ | row <;> simp [h]
  · rcases h : edgeKey payload with _ | key <;> simp [h]
  · rename_i h₁ h₂
    simp [show op ≠ "edge.assert" from h₁, show op ≠ "edge.retract" from h₂]

end Innen.Graph
