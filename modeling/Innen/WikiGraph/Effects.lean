import Innen.Common.Except
import Innen.WikiGraph.Sync

/-!
# What the events of a sync do

A node event writes the fields it carries and leaves the others. Only an assertion adds an edge row, and only a
retraction ends one. Everything else about the graph behind an event is what it was.
-/

namespace Innen.WikiGraph

open Common Graph Journal

/-! ## Events -/

@[simp] theorem eventOp_entryEvent (entry : JournalEntry) : eventOp (entryEvent entry) = some entry.op := rfl

@[simp] theorem eventPayload_entryEvent (entry : JournalEntry) :
    eventPayload (entryEvent entry) = entry.payload.val.asObject? := rfl

@[simp] theorem envObserved_entryEvent (entry : JournalEntry) :
    envObserved (entryEvent entry) = some entry.observedUtc := rfl

theorem graphOf_eq (journal : List JournalEntry) : graphOf journal = replay (journal.map entryEvent) := rfl

theorem graphOf_append (journal : List JournalEntry) (entry : JournalEntry) :
    graphOf (journal ++ [entry]) = materializeStep (graphOf journal) (entryEvent entry) := by
  rw [graphOf_eq, graphOf_eq, replay, List.map_append, List.foldl_append]
  rfl

/-- Every node is an object. -/
theorem object_of_node {journal : List JournalEntry} {id : String} {node : Value}
    (h : (graphOf journal).nodes.get? id = some node) : ∃ fields, node = .object fields := by
  rw [graphOf_eq, replay_node] at h
  split_ifs at h
  exact ⟨_, (Option.some.inj h).symm⟩

/-- The kind of a row is one that was parsed. -/
theorem parse_name_of_row {journal : List JournalEntry} {row : StoredEdge} (h : row ∈ (graphOf journal).edges) :
    EdgeType.parse row.edge.name = row.edge := by
  rw [graphOf_eq, replay_edges] at h
  obtain ⟨before, event, later, asserted, -, hassert, rfl⟩ := mem_rowsOf.mp h
  obtain ⟨payload, -, hrow⟩ := Option.bind_eq_some_iff.mp hassert
  obtain ⟨hkey, -, -⟩ := assertedRow_spec hrow
  unfold edgeKey at hkey
  split at hkey
  · have hedge : EdgeType.parse _ = asserted.edge := (Prod.mk.inj (Prod.mk.inj (Option.some.inj hkey)).2).1
    rw [← hedge]
    exact EdgeType.parse_name_parse _
  · cases hkey

/-! ## Fields of nodes -/

/-- A field of a node of the graph. -/
def nodeField (graph : Materialized) (id k : String) : Option Value := (graph.nodes.get? id).bind (·.get? k)

theorem nodeField_of_get? {graph : Materialized} {id : String} {node : Value} (h : graph.nodes.get? id = some node)
    (k : String) : nodeField graph id k = node.get? k := by
  rw [nodeField, h, Option.bind_some]

section

variable (journal : List JournalEntry) {entry : JournalEntry} {id : String} {fields : Fields}

/-- Behind a node event its node is there, and all others are what they were. -/
theorem nodes_append_upsert (hop : entry.op = "node.upsert") (hfields : entry.payload.val = .object fields)
    (hid : Assoc.get? "id" fields = some (.string id)) (id' : String) :
    (graphOf (journal ++ [entry])).nodes.get? id' =
      if id' = id then some (mergeNode (((graphOf journal).nodes.get? id).getD (.object [("id", .string id)])) fields
        (some entry.observedUtc))
      else (graphOf journal).nodes.get? id' := by
  have hupsert : upsertOf (entryEvent entry) = some (id, fields, some entry.observedUtc) := by
    simp [upsertOf, payloadOf, hop, hfields, Value.asObject?, strField, hid]
  rw [graphOf_append, materializeStep_nodes, hupsert]
  exact SortedMap.get?_upsert _ _ _ _ _

/-- A node event writes the fields that it carries. -/
theorem nodeField_append_upsert (hop : entry.op = "node.upsert") (hfields : entry.payload.val = .object fields)
    (hid : Assoc.get? "id" fields = some (.string id)) {k : String} (hk : k ≠ "observed_utc") (id' : String) :
    nodeField (graphOf (journal ++ [entry])) id' k =
      if id' = id then (Assoc.get? k fields).or (nodeField (graphOf journal) id k)
      else nodeField (graphOf journal) id' k := by
  have hasc : Assoc.Ascending fields := (Value.wf_object.mp (hfields ▸ entry.payload.property)).1
  rw [nodeField, nodes_append_upsert journal hop hfields hid]
  split_ifs with hsame
  · have hmerge : ∀ stored : Fields, (mergeNode (.object stored) fields (some entry.observedUtc)).get? k =
        (Assoc.get? k fields).or (Assoc.get? k stored) := by
      intro stored
      rw [mergeNode, Value.get?_object, get?_mergeEnv_ne hk, get?_mergeFields hasc]
      cases Assoc.get? k fields with
      | none => rfl
      | some v => simp [mergedValue, hk]
    rw [Option.bind_some]
    cases hnode : (graphOf journal).nodes.get? id with
    | none =>
      rw [Option.getD_none, hmerge, nodeField, hnode, Option.bind_none]
      by_cases hkid : k = "id"
      · rw [hkid, hid]
        rfl
      · rw [Assoc.get?_cons, if_neg hkid, Assoc.get?_nil]
    | some node =>
      obtain ⟨stored, rfl⟩ := object_of_node hnode
      rw [Option.getD_some, hmerge, nodeField, hnode, Option.bind_some, Value.get?_object]
  · rfl

/-- A node event leaves the edge rows. -/
theorem edges_append_upsert (hop : entry.op = "node.upsert") :
    (graphOf (journal ++ [entry])).edges = (graphOf journal).edges := by
  rw [graphOf_append, materializeStep_edges]
  simp [assertOf, retractOf, payloadOf, hop]

/-- An edge event leaves the nodes. -/
theorem nodes_append_edge (hop : entry.op ≠ "node.upsert") :
    (graphOf (journal ++ [entry])).nodes = (graphOf journal).nodes := by
  rw [graphOf_append, materializeStep_nodes]
  simp [upsertOf, payloadOf, hop]

end

/-! ## The appended entries -/

variable {P : Platform}

/-- The entry of an event. -/
def entryOf (P : Platform) (W : World) (i : ℕ) (event : String × Json) : JournalEntry :=
  newEntry P event.1 event.2 (W.now i)

/-- The entries of the first events of a list. -/
def entriesOf (P : Platform) (W : World) (i : ℕ) (events : List (String × Json)) : List JournalEntry :=
  events.mapIdx fun j event => entryOf P W (i + j) event

theorem entriesOf_cons (W : World) (i : ℕ) (event : String × Json) (events : List (String × Json)) :
    entriesOf P W i (event :: events) = entryOf P W i event :: entriesOf P W (i + 1) events := by
  simp only [entriesOf, List.mapIdx_cons, Nat.add_zero, Nat.add_assoc, Nat.add_comm 1]

theorem entriesOf_concat (W : World) (i : ℕ) (events : List (String × Json)) (event : String × Json) :
    entriesOf P W i (events ++ [event]) = entriesOf P W i events ++ [entryOf P W (i + events.length) event] := by
  simp only [entriesOf, List.mapIdx_append, List.mapIdx_cons, List.mapIdx_nil, Nat.zero_add]

/-- What is appended is a first part of the events, all of them if no append fails. -/
theorem appendEvents_spec (W : World) (i : ℕ) (events : List (String × Json)) (journal : List JournalEntry) :
    ∃ done left, events = done ++ left ∧ (appendEvents P W i events journal).1 = journal ++ entriesOf P W i done ∧
      ((appendEvents P W i events journal).2 = .ok () → left = []) := by
  induction events generalizing i journal with
  | nil => exact ⟨[], [], rfl, (List.append_nil _).symm, fun _ => rfl⟩
  | cons event rest ih =>
    obtain ⟨op, payload⟩ := event
    rw [appendEvents]
    split
    · obtain ⟨done, left, hevents, hjournal, hok⟩ := ih (i + 1) (journal ++ [newEntry P op payload (W.now i)])
      refine ⟨(op, payload) :: done, left, by rw [hevents, List.cons_append], ?_, hok⟩
      rw [hjournal, entriesOf_cons, List.append_assoc]
      rfl
    · exact ⟨[], (op, payload) :: rest, rfl, (List.append_nil _).symm, fun h => by cases h⟩

/-- A sync that plans appends a first part of its plan; one that does not appends nothing. -/
theorem sync_spec (W : World) (place : Place) (files : List PageFile) (journal : List JournalEntry) :
    (∃ e, plan P W.visit place files (graphOf journal) = .error e ∧
        sync P W place files journal = (journal, .error e)) ∨
      ∃ p done left, plan P W.visit place files (graphOf journal) = .ok p ∧ p.events = done ++ left ∧
        (sync P W place files journal).1 = journal ++ entriesOf P W 0 done ∧
        ((sync P W place files journal).2 = .ok () → left = []) := by
  unfold sync
  cases hplan : plan P W.visit place files (graphOf journal) with
  | error e => exact .inl ⟨e, rfl, rfl⟩
  | ok p =>
    obtain ⟨done, left, hevents, hjournal, hok⟩ := appendEvents_spec (P := P) W 0 p.events journal
    exact .inr ⟨p, done, left, rfl, hevents, hjournal, hok⟩

end Innen.WikiGraph
