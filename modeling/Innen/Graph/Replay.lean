import Innen.Graph.Materialize
import Mathlib.Order.Bounds.Basic
import Mathlib.Data.List.Induction

/-!
# The replay law

What a replayed graph says about its events, for any sequence of events.

* Edge rows: one row for each asserting event, in order, retracted exactly when a later event retracts
  its end points and kind (`replay_edges`).
* Node fields: the value of the last event that carried the field (`node_field`).
* Node timestamps: the greatest string candidate, as long as no event of the node carries a timestamp
  that is not a string (`node_observed`). Such an event replaces what was merged before it.
* Edge timestamps: the payload's string, else the envelope's, else the empty string.

Both halves go through one fold each: `replay_node` writes a node as the fold of the events that
define it, and the timestamp invariant `Observed` is carried along that fold.
-/

namespace Innen.Graph

open Common

/-! ## Edge rows -/

/-- The rows of a sequence of events, each with the retraction it meets later. -/
def rowsOf : List Value → List StoredEdge
  | [] => []
  | event :: later =>
      match assertOf event with
      | none => rowsOf later
      | some row =>
          { row with retracted := later.any fun e => retractOf e == some row.key } :: rowsOf later

/-- A retraction marks exactly the rows of its identity. -/
theorem retract_retracted (key : String × EdgeType × String) (row : StoredEdge) :
    (row.retract key) = { row with retracted := row.retracted || (row.key == key) } := by
  unfold StoredEdge.retract
  by_cases h : row.key = key
  · rw [if_pos h, beq_iff_eq.mpr h, Bool.or_true]
  · rw [if_neg h, beq_eq_false_iff_ne.mpr h, Bool.or_false]

/-- No event both asserts and retracts. -/
theorem retractOf_eq_none_of_assertOf {event : Value} {row : StoredEdge}
    (h : assertOf event = some row) : retractOf event = none := by
  unfold assertOf payloadOf at h
  unfold retractOf payloadOf
  split_ifs at h ⊢ with h₁ h₂ <;> simp_all

/-- A freshly asserted row is live. -/
theorem retracted_of_assertOf {event : Value} {row : StoredEdge} (h : assertOf event = some row) :
    row.retracted = false := by
  obtain ⟨payload, -, h⟩ := Option.bind_eq_some_iff.mp h
  unfold assertedRow at h
  split at h
  · simp at h
  · dsimp only at h
    split_ifs at h
    simp only [Option.some.injEq] at h
    exact h ▸ rfl

/-- Replaying further events keeps the earlier rows, marked by the retractions among them, and appends
the new rows. -/
theorem foldl_materializeStep_edges (events : List Value) (m : Materialized) :
    (events.foldl materializeStep m).edges =
      m.edges.map (fun row =>
        { row with retracted := row.retracted || events.any fun e => retractOf e == some row.key }) ++
      rowsOf events := by
  induction events generalizing m with
  | nil => simp [rowsOf]
  | cons event later ih =>
    rw [List.foldl_cons, ih, materializeStep_edges]
    rcases hassert : assertOf event with _ | row
    · rcases hretract : retractOf event with _ | key
      · simp [rowsOf, hassert, hretract]
      · simp only [rowsOf, hassert, List.map_map, List.any_cons, hretract]
        congr 1
        refine List.map_congr_left fun row _ => ?_
        have hcomm : (some key == some row.key) = (row.key == key) := by
          rw [Option.some_beq_some, BEq.comm]
        simp only [Function.comp_apply, retract_retracted, Bool.or_assoc]
        rw [← hcomm]
        rfl
    · have hnone := retractOf_eq_none_of_assertOf hassert
      have hlive := retracted_of_assertOf hassert
      simp [rowsOf, hassert, hnone, hlive]

/-- The rows of a replay: one for each asserting event, retracted exactly when a later event retracts it. -/
theorem replay_edges (events : List Value) : (replay events).edges = rowsOf events := by
  simp [replay, foldl_materializeStep_edges, Materialized.empty]

/-- A row belongs to the event that asserts it, and its retraction to the events behind that one. -/
theorem mem_rowsOf {events : List Value} {row : StoredEdge} :
    row ∈ rowsOf events ↔
      ∃ before event later asserted, events = before ++ event :: later ∧
        assertOf event = some asserted ∧
        row = { asserted with retracted := later.any fun e => retractOf e == some asserted.key } := by
  induction events with
  | nil => simp [rowsOf]
  | cons event later ih =>
    constructor
    · intro h
      rcases hassert : assertOf event with _ | asserted
      · rw [rowsOf, hassert] at h
        obtain ⟨before, e, rest, asserted, rfl, he, hrow⟩ := ih.mp h
        exact ⟨event :: before, e, rest, asserted, rfl, he, hrow⟩
      · rw [rowsOf, hassert] at h
        rcases List.mem_cons.mp h with hrow | h
        · exact ⟨[], event, later, asserted, rfl, hassert, hrow⟩
        · obtain ⟨before, e, rest, asserted', rfl, he, hrow⟩ := ih.mp h
          exact ⟨event :: before, e, rest, asserted', rfl, he, hrow⟩
    · rintro ⟨before, e, rest, asserted, heq, he, hrow⟩
      cases before with
      | nil =>
        obtain ⟨rfl, rfl⟩ := List.cons.inj heq
        rw [rowsOf, he, hrow]
        exact List.mem_cons_self
      | cons b before =>
        obtain ⟨rfl, rfl⟩ := List.cons.inj heq
        have hmem : row ∈ rowsOf (before ++ e :: rest) := ih.mpr ⟨before, e, rest, asserted, rfl, he, hrow⟩
        rw [rowsOf]
        split
        · exact hmem
        · exact List.mem_cons_of_mem _ hmem

/-- The rows in order, before any retraction, are the asserted ones. -/
theorem rowsOf_asserted (events : List Value) :
    (rowsOf events).map (fun row => { row with retracted := false }) = events.filterMap assertOf := by
  induction events with
  | nil => rfl
  | cons event later ih =>
    rcases hassert : assertOf event with _ | row
    · rw [rowsOf, hassert, List.filterMap_cons_none hassert, ih]
    · have hlive := retracted_of_assertOf hassert
      rw [rowsOf, hassert, List.filterMap_cons_some hassert, List.map_cons, ih, ← hlive]

/-! ## Nodes as folds of their own events -/

/-- The events that define a node: payloads and envelope timestamps, in order. -/
def upsertsOf (id : String) (events : List Value) : List (Fields × Option String) :=
  events.filterMap fun event => (upsertOf event).bind fun u => if u.1 = id then some u.2 else none

/-- Merge the events of a node into stored fields. -/
def mergeAll (stored : Fields) (upserts : List (Fields × Option String)) : Fields :=
  upserts.foldl (fun acc u => mergeEnv (mergeFields acc u.1) u.2) stored

/-- The fields a node starts from. -/
def freshNode (id : String) : Fields := [("id", .string id)]

/-- A replayed node is the fold of the events that define it. -/
theorem replay_node (id : String) (events : List Value) :
    (replay events).nodes.get? id =
      if upsertsOf id events = [] then none
      else some (.object (mergeAll (freshNode id) (upsertsOf id events))) := by
  induction events using List.reverseRecOn with
  | nil => rfl
  | append_singleton events event ih =>
    have hreplay : replay (events ++ [event]) = materializeStep (replay events) event := by
      simp [replay]
    have happ : upsertsOf id (events ++ [event]) = upsertsOf id events ++ upsertsOf id [event] := by
      simp [upsertsOf]
    rw [hreplay, materializeStep_nodes, happ]
    rcases hup : upsertOf event with _ | ⟨id', payload, env⟩
    · have hnil : upsertsOf id [event] = [] := by simp [upsertsOf, hup]
      simpa [hnil] using ih
    · by_cases hid : id' = id
      · subst hid
        have hone : upsertsOf id' [event] = [(payload, env)] := by simp [upsertsOf, hup]
        simp only [hone, SortedMap.get?_upsert, ↓reduceIte, List.append_eq_nil_iff, reduceCtorEq,
          and_false, ih]
        split
        · rename_i hnil
          simp [hnil, mergeAll, mergeNode, freshNode]
        · simp [mergeAll, mergeNode]
      · have hnil : upsertsOf id [event] = [] := by simp [upsertsOf, hup, hid]
        simpa [hnil, SortedMap.get?_upsert, Ne.symm hid] using ih

/-! ## Merging one field -/

/-- What a payload value leaves in a field, given the value stored there. -/
def mergedValue (k : String) (old : Option Value) (v : Value) : Value :=
  if k = "observed_utc" then
    match old.bind Value.asStr?, v.asStr? with
    | some cur, some inc => if cur ≥ inc then .string cur else v
    | _, _ => v
  else v

theorem get?_mergeField_ne {k j : String} (h : j ≠ k) (stored : Fields) (v : Value) :
    Assoc.get? j (mergeField stored k v) = Assoc.get? j stored := by
  unfold mergeField
  split
  · split
    · split
      · rfl
      · exact Assoc.get?_insert_ne h _ _
    · exact Assoc.get?_insert_ne h _ _
    · exact Assoc.get?_insert_ne h _ _
  · exact Assoc.get?_insert_ne h _ _

theorem get?_mergeField_self (k : String) (stored : Fields) (v : Value) :
    Assoc.get? k (mergeField stored k v) = some (mergedValue k (Assoc.get? k stored) v) := by
  unfold mergeField mergedValue
  split
  · rename_i hk
    subst hk
    rw [show strField stored "observed_utc" =
      (Assoc.get? "observed_utc" stored).bind Value.asStr? from rfl]
    rcases hold : (Assoc.get? "observed_utc" stored).bind Value.asStr? with _ | cur <;>
      rcases hinc : v.asStr? with _ | inc
    · simp
    · simp
    · simp
    · obtain ⟨w, hw, hcur⟩ := Option.bind_eq_some_iff.mp hold
      rw [Value.asStr?_eq_some] at hcur
      subst hcur
      dsimp only
      split
      · exact hw
      · simp
  · simp

/-- In a payload without duplicate keys only the field itself is merged into a field. -/
theorem get?_mergeFields {payload : Fields} (h : Assoc.Ascending payload) (stored : Fields)
    (k : String) :
    Assoc.get? k (mergeFields stored payload) =
      match Assoc.get? k payload with
      | none => Assoc.get? k stored
      | some v => some (mergedValue k (Assoc.get? k stored) v) := by
  induction payload generalizing stored with
  | nil => rfl
  | cons e rest ih =>
    obtain ⟨k₀, v₀⟩ := e
    obtain ⟨hlt, hrest⟩ := Assoc.ascending_cons.mp h
    rw [show mergeFields stored ((k₀, v₀) :: rest) = mergeFields (mergeField stored k₀ v₀) rest from rfl,
      ih hrest, Assoc.get?_cons]
    by_cases hk : k = k₀
    · subst hk
      rw [if_pos rfl, Assoc.get?_eq_none_of_forall_lt hlt]
      exact get?_mergeField_self k stored v₀
    · rw [if_neg hk, get?_mergeField_ne hk]

theorem get?_mergeEnv_ne {k : String} (h : k ≠ "observed_utc") (stored : Fields)
    (env : Option String) : Assoc.get? k (mergeEnv stored env) = Assoc.get? k stored := by
  unfold mergeEnv
  split
  · rfl
  · split
    · rfl
    · exact Assoc.get?_insert_ne h _ _

/-! ## Last-win fields -/

/-- The value of a field in the last event that carries it. -/
def lastCarried (k : String) (upserts : List (Fields × Option String)) : Option Value :=
  (upserts.filterMap fun u => Assoc.get? k u.1).getLast?

/-- Every field but the timestamp has the value of the last event that carried it. -/
theorem get?_mergeAll {k : String} (hk : k ≠ "observed_utc") (stored : Fields)
    {upserts : List (Fields × Option String)} (h : ∀ u ∈ upserts, Assoc.Ascending u.1) :
    Assoc.get? k (mergeAll stored upserts) = (lastCarried k upserts).or (Assoc.get? k stored) := by
  induction upserts using List.reverseRecOn with
  | nil => rfl
  | append_singleton upserts u ih =>
    have ih := ih fun u hu => h u (List.mem_append_left _ hu)
    have hu : Assoc.Ascending u.1 := h u (by simp)
    rw [show mergeAll stored (upserts ++ [u]) =
        mergeEnv (mergeFields (mergeAll stored upserts) u.1) u.2 from by simp [mergeAll],
      get?_mergeEnv_ne hk, get?_mergeFields hu]
    rcases hget : Assoc.get? k u.1 with _ | v
    · simpa [lastCarried, hget] using ih
    · simp [lastCarried, hget, mergedValue, hk]

/-! ## Greatest timestamps -/

/-- The string timestamp candidates of a node's events: payload first, then envelope. -/
def candidates (upserts : List (Fields × Option String)) : List String :=
  upserts.flatMap fun u => (strField u.1 "observed_utc").toList ++ u.2.toList

/-- The payload timestamp of an event is a string or absent. -/
def StringObserved (payload : Fields) : Prop :=
  ∀ v, Assoc.get? "observed_utc" payload = some v → ∃ s, v = .string s

/-- The stored timestamp is the greatest of the candidates seen so far, absent when there are none. -/
def Observed (seen : List String) (stored : Option Value) : Prop :=
  (seen = [] ∧ stored = none) ∨ ∃ s, IsGreatest {c | c ∈ seen} s ∧ stored = some (.string s)

/-- One more candidate, kept or dropped by comparison, leaves the greatest of all. -/
theorem Observed.raise {seen : List String} {stored : Option Value} (h : Observed seen stored)
    (inc : String) :
    Observed (seen ++ [inc])
      (some (if (stored.bind Value.asStr?).any (fun cur => decide (cur ≥ inc)) then
        stored.getD .null else .string inc)) := by
  rcases h with ⟨rfl, rfl⟩ | ⟨s, ⟨hmem, hub⟩, rfl⟩
  · exact .inr ⟨inc, ⟨by simp, fun c hc => by simp_all⟩, by simp⟩
  · by_cases hle : inc ≤ s
    · refine .inr ⟨s, ⟨by simp_all, fun c hc => ?_⟩, by simp [hle]⟩
      rcases List.mem_append.mp hc with hc | hc
      · exact hub hc
      · exact (List.mem_singleton.mp hc) ▸ hle
    · refine .inr ⟨inc, ⟨by simp, fun c hc => ?_⟩, by simp [hle]⟩
      rcases List.mem_append.mp hc with hc | hc
      · exact (hub hc).trans (le_of_not_ge hle)
      · exact (List.mem_singleton.mp hc).le

theorem get?_mergeEnv_observed (stored : Fields) (env : String) :
    Assoc.get? "observed_utc" (mergeEnv stored (some env)) =
      some (if ((Assoc.get? "observed_utc" stored).bind Value.asStr?).any
          (fun cur => decide (cur ≥ env)) then (Assoc.get? "observed_utc" stored).getD .null
        else .string env) := by
  unfold mergeEnv
  rw [show strField stored "observed_utc" =
    (Assoc.get? "observed_utc" stored).bind Value.asStr? from rfl]
  rcases hold : Assoc.get? "observed_utc" stored with _ | w
  · simp
  · dsimp only [Option.bind_some]
    split
    · simpa using hold
    · simp

theorem mergedValue_observed (old : Option Value) (inc : String) :
    mergedValue "observed_utc" old (.string inc) =
      if (old.bind Value.asStr?).any (fun cur => decide (cur ≥ inc)) then old.getD .null
      else .string inc := by
  rcases old with _ | w
  · simp [mergedValue]
  · cases w <;> simp [mergedValue, Value.asStr?]

/-- Merging an event with a string timestamp or none keeps the greatest candidate. -/
theorem Observed.merge {seen : List String} {stored payload : Fields} {env : Option String}
    (h : Observed seen (Assoc.get? "observed_utc" stored)) (hasc : Assoc.Ascending payload)
    (hstr : StringObserved payload) :
    Observed (seen ++ ((strField payload "observed_utc").toList ++ env.toList))
      (Assoc.get? "observed_utc" (mergeEnv (mergeFields stored payload) env)) := by
  have hpayload : Observed (seen ++ (strField payload "observed_utc").toList)
      (Assoc.get? "observed_utc" (mergeFields stored payload)) := by
    rw [get?_mergeFields hasc]
    rcases hget : Assoc.get? "observed_utc" payload with _ | v
    · simpa [strField, hget] using h
    · obtain ⟨s, rfl⟩ := hstr v hget
      simp only [strField, hget, Option.bind_some, Value.asStr?_string, Option.toList_some,
        mergedValue_observed]
      exact h.raise s
  rw [← List.append_assoc]
  cases env with
  | none => simpa [mergeEnv] using hpayload
  | some env =>
    rw [get?_mergeEnv_observed]
    exact hpayload.raise env

/-- Along all events of a node the stored timestamp is the greatest candidate. -/
theorem observed_mergeAll {stored : Fields} (hstored : Assoc.get? "observed_utc" stored = none)
    {upserts : List (Fields × Option String)} (hasc : ∀ u ∈ upserts, Assoc.Ascending u.1)
    (hstr : ∀ u ∈ upserts, StringObserved u.1) :
    Observed (candidates upserts) (Assoc.get? "observed_utc" (mergeAll stored upserts)) := by
  induction upserts using List.reverseRecOn with
  | nil => exact .inl ⟨rfl, hstored⟩
  | append_singleton upserts u ih =>
    have ih := ih (fun u hu => hasc u (List.mem_append_left _ hu))
      (fun u hu => hstr u (List.mem_append_left _ hu))
    have hstep : Observed (candidates upserts ++ (strField u.1 "observed_utc").toList ++ u.2.toList)
        (Assoc.get? "observed_utc" (mergeEnv (mergeFields (mergeAll stored upserts) u.1) u.2)) := by
      simpa using ih.merge (hasc u (by simp)) (hstr u (by simp))
    simpa [candidates, mergeAll] using hstep

/-! ## The laws of a replay over well-formed events -/

/-- Payloads of well-formed events list their fields in ascending order. -/
theorem ascending_of_upsertOf {event : Value} (h : event.WF) {id : String} {payload : Fields}
    {env : Option String} (hup : upsertOf event = some (id, payload, env)) :
    Assoc.Ascending payload := by
  obtain ⟨payload', hpayload, hid⟩ := Option.bind_eq_some_iff.mp hup
  obtain ⟨_, _, heq⟩ := Option.map_eq_some_iff.mp hid
  simp only [Prod.mk.injEq] at heq
  obtain ⟨-, rfl, -⟩ := heq
  unfold payloadOf at hpayload
  split_ifs at hpayload
  obtain ⟨v, hv, hobj⟩ := Option.bind_eq_some_iff.mp hpayload
  rw [Value.asObject?_eq_some] at hobj
  subst hobj
  exact (Value.wf_object.mp (Value.wf_of_get? h hv)).1

theorem ascending_upsertsOf {events : List Json} {id : String} {u : Fields × Option String}
    (h : u ∈ upsertsOf id (events.map Subtype.val)) : Assoc.Ascending u.1 := by
  obtain ⟨event, hmem, hup⟩ := List.mem_filterMap.mp h
  obtain ⟨⟨event, hwf⟩, -, rfl⟩ := List.mem_map.mp hmem
  obtain ⟨⟨id', payload, env⟩, hup', hif⟩ := Option.bind_eq_some_iff.mp hup
  split_ifs at hif
  simp only [Option.some.injEq] at hif
  subst hif
  exact ascending_of_upsertOf hwf hup'

/-- Every event that defines a node carries the node's id. -/
theorem get?_id_of_mem_upsertsOf {events : List Value} {id : String} {u : Fields × Option String}
    (h : u ∈ upsertsOf id events) : Assoc.get? "id" u.1 = some (.string id) := by
  obtain ⟨event, -, hup⟩ := List.mem_filterMap.mp h
  obtain ⟨⟨id', payload, env⟩, hup', hif⟩ := Option.bind_eq_some_iff.mp hup
  obtain ⟨payload', -, hmap⟩ := Option.bind_eq_some_iff.mp hup'
  obtain ⟨id'', hid, heq⟩ := Option.map_eq_some_iff.mp hmap
  simp only [Prod.mk.injEq] at heq
  obtain ⟨rfl, rfl, rfl⟩ := heq
  split_ifs at hif with hsame
  simp only [Option.some.injEq] at hif
  subst hif
  obtain ⟨v, hv, hstr⟩ := Option.bind_eq_some_iff.mp hid
  rw [Value.asStr?_eq_some] at hstr
  rw [hv, hstr, show id'' = id from hsame]

/-- A node's fields other than its timestamp: the last event that carried the field decides. -/
theorem node_field (events : List Json) {id k : String} (hk : k ≠ "observed_utc") {node : Value}
    (hnode : (replay (events.map Subtype.val)).nodes.get? id = some node) :
    node.get? k = lastCarried k (upsertsOf id (events.map Subtype.val)) := by
  rw [replay_node] at hnode
  split_ifs at hnode with hnil
  simp only [Option.some.injEq] at hnode
  subst hnode
  rw [Value.get?_object, get?_mergeAll hk _ fun u hu => ascending_upsertsOf hu]
  by_cases hid : k = "id"
  · -- the starting field is overwritten by the first event already
    subst hid
    have hsome : (lastCarried "id" (upsertsOf id (events.map Subtype.val))).isSome := by
      rw [lastCarried, List.getLast?_isSome]
      obtain ⟨u, rest, hcons⟩ := List.exists_cons_of_ne_nil hnil
      have hget := get?_id_of_mem_upsertsOf (hcons ▸ List.mem_cons_self : u ∈ _)
      rw [hcons]
      simp only [List.filterMap_cons, hget]
      exact List.cons_ne_nil _ _
    obtain ⟨v, hv⟩ := Option.isSome_iff_exists.mp hsome
    rw [hv, Option.some_or]
  · simp [freshNode, Assoc.get?, hid]

/-- A node's timestamp: the greatest string candidate, when every event's payload timestamp is a string
or absent. -/
theorem node_observed (events : List Json) {id : String} {node : Value}
    (hnode : (replay (events.map Subtype.val)).nodes.get? id = some node)
    (hstr : ∀ u ∈ upsertsOf id (events.map Subtype.val), StringObserved u.1) :
    Observed (candidates (upsertsOf id (events.map Subtype.val))) (node.get? "observed_utc") := by
  rw [replay_node] at hnode
  split_ifs at hnode
  simp only [Option.some.injEq] at hnode
  subst hnode
  exact observed_mergeAll rfl (fun u hu => ascending_upsertsOf hu) hstr

/-- The row of an edge payload has its end points, its kind and its timestamp. -/
theorem assertedRow_spec {payload : Fields} {env : Option String} {row : StoredEdge}
    (h : assertedRow payload env = some row) :
    edgeKey payload = some row.key ∧ row.retracted = false ∧
      row.observedUtc = ((strField payload "observed_utc").or env).getD "" := by
  unfold assertedRow at h
  split at h
  · simp at h
  · rename_i hkey
    dsimp only at h
    split_ifs at h
    simp only [Option.some.injEq] at h
    subst h
    exact ⟨hkey, rfl, rfl⟩

theorem mem_materialize_edges {events : List Value} {asOf : Option String} {now : String}
    {includeExpired : Bool} {row : StoredEdge}
    (h : row ∈ (materialize events asOf now includeExpired).edges) : row ∈ rowsOf events := by
  rw [← replay_edges]
  unfold materialize at h
  dsimp only at h
  split at h
  · exact h
  · exact List.mem_of_mem_filter h

@[simp] theorem materialize_nodes (events : List Value) (asOf : Option String) (now : String)
    (includeExpired : Bool) :
    (materialize events asOf now includeExpired).nodes = (replay events).nodes := by
  unfold materialize
  split <;> rfl

/-- **The replay law.** For every sequence of events and every validity filter: a row is retracted exactly
when an event behind its own retracts its end points and kind, and has its payload's timestamp, else its
envelope's; before the filter there is one row for each asserting event, in order; a node field is the
one of the last event that carried it; a node timestamp is the greatest string candidate when no event
of the node carries a timestamp of another type. -/
theorem materialize_replay_law (events : List Json) (asOf : Option String) (now : String)
    (includeExpired : Bool) :
    (∀ row ∈ (materialize (events.map Subtype.val) asOf now includeExpired).edges,
      ∃ before event later payload,
        events.map Subtype.val = before ++ event :: later ∧
        payloadOf "edge.assert" event = some payload ∧ edgeKey payload = some row.key ∧
        (row.retracted = true ↔ ∃ e ∈ later, retractOf e = some row.key) ∧
        row.observedUtc = ((strField payload "observed_utc").or (envObserved event)).getD "") ∧
    ((replay (events.map Subtype.val)).edges.map (fun row => { row with retracted := false }) =
      (events.map Subtype.val).filterMap assertOf) ∧
    (∀ id node k,
      (materialize (events.map Subtype.val) asOf now includeExpired).nodes.get? id = some node →
      k ≠ "observed_utc" → node.get? k = lastCarried k (upsertsOf id (events.map Subtype.val))) ∧
    (∀ id node,
      (materialize (events.map Subtype.val) asOf now includeExpired).nodes.get? id = some node →
      (∀ u ∈ upsertsOf id (events.map Subtype.val), StringObserved u.1) →
      Observed (candidates (upsertsOf id (events.map Subtype.val))) (node.get? "observed_utc")) := by
  refine ⟨fun row hrow => ?_, ?_, fun id node k hnode hk => ?_, fun id node hnode hstr => ?_⟩
  · obtain ⟨before, event, later, asserted, heq, hassert, rfl⟩ :=
      mem_rowsOf.mp (mem_materialize_edges hrow)
    obtain ⟨payload, hpayload, hasserted⟩ := Option.bind_eq_some_iff.mp hassert
    obtain ⟨hkey, -, hobs⟩ := assertedRow_spec hasserted
    refine ⟨before, event, later, payload, heq, hpayload, hkey, ?_, hobs⟩
    simp [StoredEdge.key]
  · rw [replay_edges, rowsOf_asserted]
  · rw [materialize_nodes] at hnode
    exact node_field events hk hnode
  · rw [materialize_nodes] at hnode
    exact node_observed events hnode hstr

/-! ## Where the greatest timestamp is not kept -/

/-- An edge whose payload is older than its envelope, then a node whose second event carries a `null`
timestamp and an older envelope. -/
def staleTimestamps : List Value :=
  [ .mkObject [("op", .string "edge.assert"), ("observed_utc", .string "2026-02-01T00:00:00Z"),
      ("payload", .mkObject [("from", .string "a"), ("to", .string "b"), ("type", .string "INFORMS"),
        ("observed_utc", .string "2026-01-01T00:00:00Z")])],
    .mkObject [("op", .string "node.upsert"), ("observed_utc", .string "2026-02-01T00:00:00Z"),
      ("payload", .mkObject [("id", .string "n")])],
    .mkObject [("op", .string "node.upsert"), ("observed_utc", .string "2026-01-01T00:00:00Z"),
      ("payload", .mkObject [("id", .string "n"), ("observed_utc", .null)])] ]

/-- Neither the row nor the node has its greatest candidate: an edge row takes its payload's timestamp over
a later envelope, and a `null` payload timestamp discards a later merged one. -/
theorem staleTimestamps_not_greatest :
    ((materialize staleTimestamps none "2026-03-01T00:00:00Z" true).edges.map (·.observedUtc) =
        ["2026-01-01T00:00:00Z"] ∧
      ¬ IsGreatest {c | c ∈ ["2026-01-01T00:00:00Z", "2026-02-01T00:00:00Z"]} "2026-01-01T00:00:00Z") ∧
    (((materialize staleTimestamps none "2026-03-01T00:00:00Z" true).nodes.get? "n").bind
        (·.get? "observed_utc") = some (.string "2026-01-01T00:00:00Z") ∧
      candidates (upsertsOf "n" staleTimestamps) = ["2026-02-01T00:00:00Z", "2026-01-01T00:00:00Z"] ∧
      ¬ IsGreatest {c | c ∈ candidates (upsertsOf "n" staleTimestamps)} "2026-01-01T00:00:00Z") := by
  have hnot : ∀ seen : List String, "2026-02-01T00:00:00Z" ∈ seen →
      ¬ IsGreatest {c | c ∈ seen} "2026-01-01T00:00:00Z" := by
    intro seen hmem hgreatest
    exact absurd (hgreatest.2 hmem) (by decide)
  have hcand : candidates (upsertsOf "n" staleTimestamps) =
      ["2026-02-01T00:00:00Z", "2026-01-01T00:00:00Z"] := by decide +kernel
  refine ⟨⟨by decide +kernel, hnot _ (by simp)⟩, by decide +kernel, hcand, hnot _ ?_⟩
  rw [hcand]
  exact List.mem_cons_self

end Innen.Graph
