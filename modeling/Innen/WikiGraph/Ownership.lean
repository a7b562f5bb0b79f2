import Innen.Common.Transition
import Innen.WikiGraph.Planning

/-!
# What a sync leaves alone

Along the events of a plan every node that is not managed stays as it is, a managed node keeps its type, and a path only
comes to the node of the page that has it. Live rows of others stay live. So a path keeps one node, as long as no two
pages of one sync have one path.
-/

namespace Innen.WikiGraph

open Common Graph Journal

variable {P : Platform}

/-! ## Node events -/

theorem isManaged_iff {node : Value} : isManaged node = true ↔ node.get? "managed_by" = some (.string managedBy) := by
  rw [isManaged, decide_eq_true_eq, Option.bind_eq_some_iff]
  constructor
  · rintro ⟨v, hv, hs⟩
    rw [hv, Value.asStr?_eq_some.mp hs]
  · intro h
    exact ⟨_, h, rfl⟩

theorem registeredPath_eq_some {node : Value} {path : String} :
    registeredPath node = some path ↔
      isManaged node = true ∧ node.get? "type" = some (.string "Wiki") ∧
        node.get? "wiki_path" = some (.string path) := by
  have hstr : ∀ (o : Option Value) (s : String), o.bind Value.asStr? = some s ↔ o = some (.string s) := by
    intro o s
    rw [Option.bind_eq_some_iff]
    constructor
    · rintro ⟨v, hv, hs⟩
      rw [hv, Value.asStr?_eq_some.mp hs]
    · rintro h
      exact ⟨_, h, rfl⟩
  unfold registeredPath isWiki wikiPathOf
  split_ifs with h
  · rw [Bool.and_eq_true, decide_eq_true_eq, hstr] at h
    rw [hstr]
    exact ⟨fun hp => ⟨h.1, h.2, hp⟩, fun hp => hp.2.2⟩
  · refine ⟨fun hp => (by cases hp), fun hp => absurd ?_ h⟩
    rw [Bool.and_eq_true, decide_eq_true_eq, hstr]
    exact ⟨hp.1, hp.2.1⟩

/-- What the fields of a node event say of ownership, type and path. -/
structure NodeWrite (graph : Materialized) (pages : List WikiPage) (id : String) (fields : Fields) : Prop where
  id_eq : Assoc.get? "id" fields = some (.string id)
  /-- A new node is marked; one that is there is marked already and keeps its mark and its type. -/
  owned : (graph.nodes.get? id = none ∧ Assoc.get? "managed_by" fields = some (.string managedBy)) ∨
    ∃ node, graph.nodes.get? id = some node ∧ isManaged node = true ∧ Assoc.get? "managed_by" fields = none ∧
      Assoc.get? "type" fields = none
  /-- A path is that of the page with this id. -/
  path : ∀ v, Assoc.get? "wiki_path" fields = some v → ∃ page ∈ pages, page.id = id ∧ v = .string page.wikiPath

/-- The fields that differ, in an event for a desired node. -/
theorem planNode_some {graph : Materialized} {id : String} {desired : Json} {fields : Fields} {payload : Json}
    (hdesired : desired.val = .object fields) (h : planNode graph (id, desired) = .ok (some payload)) :
    payload.val = .object (changedObject (graph.nodes.get? id) fields) ∧
      (graph.nodes.get? id = none ∨ ∃ node, graph.nodes.get? id = some node ∧ isManaged node = true ∧
        node.get? "type" = Assoc.get? "type" fields) := by
  have hchanged : ∀ current, changedFields current desired = some payload →
      payload.val = .object (changedObject current fields) := by
    intro current hcurrent
    obtain ⟨v, hv⟩ := desired
    obtain rfl : v = .object fields := hdesired
    unfold changedFields at hcurrent
    dsimp only at hcurrent
    split_ifs at hcurrent
    obtain rfl := Option.some.inj hcurrent
    rfl
  unfold planNode at h
  cases hnode : graph.nodes.get? id with
  | none =>
    simp only [hnode] at h
    exact ⟨hchanged none (Except.ok.inj h), .inl rfl⟩
  | some node =>
    simp only [hnode, hdesired, Value.get?_object] at h
    split_ifs at h with hmanaged htype
    exact ⟨hchanged (some node) (Except.ok.inj h),
      .inr ⟨node, rfl, Bool.not_eq_false _ |>.mp hmanaged, not_not.mp htype⟩⟩

/-- A field is written when it differs from what the node has. -/
theorem get?_changedObject {fields : Fields} (hasc : Assoc.Ascending fields) (current : Option Value) {k : String}
    (hk : k ≠ "id") :
    Assoc.get? k (changedObject current fields) =
      (Assoc.get? k fields).filter fun v => decide ((current.bind Value.asObject?).bind (Assoc.get? k) ≠ some v) := by
  rw [changedObject, Assoc.get?_filter hasc]
  refine congrArg (fun keep => Option.filter keep (Assoc.get? k fields)) (funext fun v => ?_)
  simp [changes, hk]

theorem get?_id_changedObject {fields : Fields} (hasc : Assoc.Ascending fields) (current : Option Value) :
    Assoc.get? "id" (changedObject current fields) = Assoc.get? "id" fields := by
  rw [changedObject, Assoc.get?_filter hasc]
  cases Assoc.get? "id" fields with
  | none => rfl
  | some v => exact Option.filter_some.trans (if_pos rfl)

section

variable {journal : List JournalEntry} {pages : List WikiPage}

/-- The event for a node that is asked for. -/
theorem nodeWrite_of_planNode {id : String} {desired payload : Json} {fields : Fields}
    (hdesired : desired.val = .object fields) (hid : Assoc.get? "id" fields = some (.string id))
    (hmanaged : Assoc.get? "managed_by" fields = some (.string managedBy))
    (hpath : ∀ v, Assoc.get? "wiki_path" fields = some v → ∃ page ∈ pages, page.id = id ∧ v = .string page.wikiPath)
    (h : planNode (graphOf journal) (id, desired) = .ok (some payload)) :
    ∃ written, payload.val = .object written ∧ NodeWrite (graphOf journal) pages id written := by
  have hasc : Assoc.Ascending fields := (Value.wf_object.mp (hdesired ▸ desired.property)).1
  obtain ⟨hpayload, hcurrent⟩ := planNode_some hdesired h
  refine ⟨_, hpayload, ?_, ?_, ?_⟩
  · rw [get?_id_changedObject hasc, hid]
  · rcases hcurrent with hnone | ⟨node, hnode, howner, htype⟩
    · refine .inl ⟨hnone, ?_⟩
      rw [hnone, get?_changedObject hasc none (by decide), hmanaged]
      rfl
    · obtain ⟨stored, rfl⟩ := object_of_node hnode
      have howner' : Assoc.get? "managed_by" stored = some (.string managedBy) := isManaged_iff.mp howner
      have htype' : Assoc.get? "type" stored = Assoc.get? "type" fields := htype
      refine .inr ⟨_, hnode, howner, ?_, ?_⟩
      · rw [hnode, get?_changedObject hasc _ (by decide), hmanaged, Option.bind_some, Value.asObject?, Option.bind_some,
          howner']
        simp
      · rw [hnode, get?_changedObject hasc _ (by decide), ← htype', Option.bind_some, Value.asObject?, Option.bind_some]
        cases Assoc.get? "type" stored <;> simp
  · intro v hv
    rw [get?_changedObject hasc _ (by decide)] at hv
    exact hpath v (Option.eq_some_of_filter_eq_some hv)

theorem Writes.nodeWrite {payload : Json} (h : Writes P (graphOf journal) pages payload) :
    ∃ id fields, payload.val = .object fields ∧ NodeWrite (graphOf journal) pages id fields := by
  cases h with
  | @page page payload hpage hplan =>
    refine ⟨page.id, nodeWrite_of_planNode rfl rfl rfl (fun v hv => ⟨page, hpage, rfl, ?_⟩) hplan⟩
    exact (Option.some.inj hv).symm
  | @source raw locator payload hplan =>
    exact ⟨_, nodeWrite_of_planNode rfl rfl rfl (fun v hv => (by cases hv)) hplan⟩
  | @gone id path node hnode hpath =>
    exact ⟨id, _, rfl, rfl, .inr ⟨node, hnode, (registeredPath_eq_some.mp hpath).1, rfl, rfl⟩, fun v hv => (by cases hv)⟩

end

/-! ## Along the events of a plan -/

/-- What a graph behind some events of a plan keeps of the graph the plan is for. -/
structure Kept (graph : Materialized) (pages : List WikiPage) (later : Materialized) : Prop where
  /-- A node is managed or what it was. -/
  managed : ∀ id node, later.nodes.get? id = some node → isManaged node = true ∨ graph.nodes.get? id = some node
  /-- A node is still there. -/
  there : ∀ id, (graph.nodes.get? id).isSome → (later.nodes.get? id).isSome
  /-- One that is not managed is what it was. -/
  others : ∀ id node, graph.nodes.get? id = some node → isManaged node = false → later.nodes.get? id = some node
  /-- A node keeps its type. -/
  typed : ∀ id, (graph.nodes.get? id).isSome → nodeField later id "type" = nodeField graph id "type"
  /-- A path is the one a node had or that of the page with its id. -/
  path : ∀ id v, nodeField later id "wiki_path" = some v → nodeField graph id "wiki_path" = some v ∨
    ∃ page ∈ pages, page.id = id ∧ v = .string page.wikiPath
  /-- A live row was live before or is the projection's. -/
  rows : ∀ row ∈ later.edges, row.retracted = false → row ∈ graph.edges ∨ isOwned row = true
  /-- A live row of somebody else stays. -/
  foreign : ∀ row ∈ graph.edges, row.retracted = false → isOwned row = false → row ∈ later.edges

theorem Kept.refl (graph : Materialized) (pages : List WikiPage) : Kept graph pages graph where
  managed _ _ h := .inr h
  there _ h := h
  others _ _ h _ := h
  typed _ _ := rfl
  path _ _ h := .inl h
  rows _ h _ := .inl h
  foreign _ h _ _ := h

/-- A node event of the plan only meets a managed node. -/
theorem Kept.meets_managed {graph later : Materialized} {pages : List WikiPage} (h : Kept graph pages later)
    {id : String} {fields : Fields} (hwrite : NodeWrite graph pages id fields) {node : Value}
    (hnode : later.nodes.get? id = some node) : isManaged node = true := by
  rcases h.managed id node hnode with hmanaged | hsame
  · exact hmanaged
  · rcases hwrite.owned with ⟨hnone, -⟩ | ⟨node', hnode', hmanaged, -⟩
    · exact absurd (hnone.symm.trans hsame) (by simp)
    · rw [Option.some.inj (hsame.symm.trans hnode')]
      exact hmanaged

section

variable {graph : Materialized} {pages : List WikiPage} {journal : List JournalEntry} {entry : JournalEntry}

theorem Kept.upsert (h : Kept graph pages (graphOf journal)) {id : String} {fields : Fields}
    (hwrite : NodeWrite graph pages id fields) (hop : entry.op = "node.upsert")
    (hfields : entry.payload.val = .object fields) : Kept graph pages (graphOf (journal ++ [entry])) := by
  have hnodes := nodes_append_upsert journal hop hfields hwrite.id_eq
  have hfield := fun {k : String} (hk : k ≠ "observed_utc") =>
    nodeField_append_upsert journal hop hfields hwrite.id_eq hk
  have hedges := edges_append_upsert journal hop
  -- the written node is marked, by this event or before
  have hmarked : nodeField (graphOf (journal ++ [entry])) id "managed_by" = some (.string managedBy) := by
    rw [hfield (by decide), if_pos rfl]
    rcases hwrite.owned with ⟨-, hmark⟩ | ⟨node, hnode, hmanaged, hmark, -⟩
    · rw [hmark, Option.some_or]
    · rw [hmark, Option.none_or]
      obtain ⟨node', hnode'⟩ := Option.isSome_iff_exists.mp (h.there id (hnode ▸ rfl))
      rw [nodeField_of_get? hnode']
      exact isManaged_iff.mp (h.meets_managed hwrite hnode')
  refine ⟨fun id' node hnode => ?_, fun id' hid' => ?_, fun id' node hnode hnot => ?_, fun id' hid' => ?_,
    fun id' v hv => ?_, fun row hrow => ?_, fun row hrow => ?_⟩
  · by_cases hid : id' = id
    · subst hid
      rw [nodeField_of_get? hnode] at hmarked
      exact .inl (isManaged_iff.mpr hmarked)
    · rw [hnodes, if_neg hid] at hnode
      exact h.managed id' node hnode
  · rw [hnodes]
    split_ifs
    · rfl
    · exact h.there id' hid'
  · have hid : id' ≠ id := by
      rintro rfl
      rcases hwrite.owned with ⟨hnone, -⟩ | ⟨node', hnode', hmanaged, -⟩
      · exact absurd (hnone.symm.trans hnode) (by simp)
      · rw [Option.some.inj (hnode.symm.trans hnode'), hmanaged] at hnot
        cases hnot
    rw [hnodes, if_neg hid]
    exact h.others id' node hnode hnot
  · rw [hfield (by decide)]
    split_ifs with hid
    · subst hid
      rcases hwrite.owned with ⟨hnone, -⟩ | ⟨node, -, -, -, htype⟩
      · simp [hnone] at hid'
      · rw [htype, Option.none_or]
        exact h.typed id' hid'
    · exact h.typed id' hid'
  · rw [hfield (by decide)] at hv
    split_ifs at hv with hid
    · subst hid
      rcases Option.or_eq_some_iff.mp hv with hv | ⟨-, hv⟩
      · exact .inr (hwrite.path v hv)
      · exact h.path id' v hv
    · exact h.path id' v hv
  · rw [hedges] at hrow
    exact h.rows row hrow
  · rw [hedges]
    exact h.foreign row hrow

/-- An edge event of the plan keeps the nodes, and the rows that a node event keeps. -/
theorem Kept.edge (h : Kept graph pages (graphOf journal)) (hop : entry.op ≠ "node.upsert")
    (hrows : ∀ row ∈ (graphOf (journal ++ [entry])).edges, row.retracted = false →
      row ∈ (graphOf journal).edges ∨ isOwned row = true)
    (hforeign : ∀ row ∈ graph.edges, row ∈ (graphOf journal).edges → row.retracted = false → isOwned row = false →
      row ∈ (graphOf (journal ++ [entry])).edges) :
    Kept graph pages (graphOf (journal ++ [entry])) := by
  have hnodes := nodes_append_edge journal hop
  have hfield : ∀ id k, nodeField (graphOf (journal ++ [entry])) id k = nodeField (graphOf journal) id k := by
    intro id k
    rw [nodeField, hnodes, nodeField]
  refine ⟨fun id node hnode => h.managed id node (hnodes ▸ hnode), fun id hid => hnodes ▸ h.there id hid,
    fun id node hnode hnot => hnodes ▸ h.others id node hnode hnot, fun id hid => ?_, fun id v hv => ?_,
    fun row hrow hlive => ?_, fun row hrow hlive hnot => ?_⟩
  · rw [hfield]
    exact h.typed id hid
  · rw [hfield] at hv
    exact h.path id v hv
  · rcases hrows row hrow hlive with hold | howned
    · exact h.rows row hold hlive
    · exact .inr howned
  · exact hforeign row hrow (h.foreign row hrow hlive hnot) hlive hnot

end

/-! ## Retractions -/

/-- The key that a retraction of a plan names to the graph. -/
theorem retractOf_retractEvent (P : Platform) (W : World) (i : ℕ) (key : EdgeKey) :
    retractOf (entryEvent (entryOf P W i (retractEvent key))) =
      some (key.start, EdgeType.parse key.kind, key.target) := rfl

/-- In a replayed graph the retraction of a key only reaches the rows of the key. -/
theorem rowKey_of_retract {journal : List JournalEntry} {row row' : StoredEdge} (hrow : row ∈ (graphOf journal).edges)
    (h : row'.key = ((rowKey row).start, EdgeType.parse (rowKey row).kind, (rowKey row).target)) :
    rowKey row' = rowKey row := by
  have hparse : EdgeType.parse (rowKey row).kind = row.edge := parse_name_of_row hrow
  rw [hparse] at h
  obtain ⟨hfrom, hrest⟩ := Prod.mk.inj h
  obtain ⟨hedge, hto⟩ := Prod.mk.inj hrest
  rw [rowKey, hfrom, hedge, hto]
  rfl

theorem retracted_retract (key : String × EdgeType × String) (row : StoredEdge) :
    row.retract key = row ∨ (row.key = key ∧ (row.retract key).retracted = true) := by
  unfold StoredEdge.retract
  split_ifs with hkey
  · exact .inr ⟨hkey, rfl⟩
  · exact .inl rfl

theorem mem_liveOwnedEdges_keys {graph : Materialized} {key : EdgeKey} (h : key ∈ (liveOwnedEdges graph).keys) :
    ∃ row ∈ graph.edges, row.retracted = false ∧ isOwned row = true ∧ rowKey row = key := by
  obtain ⟨provenances, hget⟩ := Option.isSome_iff_exists.mp ((SortedMap.mem_keys_iff _).mp h)
  rw [liveOwnedEdges, SortedMap.get?_groupBy] at hget
  split_ifs at hget with hnone
  obtain ⟨row, hrow⟩ := List.exists_mem_of_ne_nil _ hnone
  simp only [List.mem_filter, Bool.and_eq_true, Bool.not_eq_true', decide_eq_true_eq] at hrow
  exact ⟨row, hrow.1.1, hrow.1.2.1, hrow.1.2.2, hrow.2⟩

theorem mem_liveForeignKeys {graph : Materialized} {row : StoredEdge} (h : row ∈ graph.edges)
    (hlive : row.retracted = false) (hnot : isOwned row = false) : rowKey row ∈ liveForeignKeys graph :=
  List.mem_map_of_mem (List.mem_filter.mpr ⟨h, by simp [hlive, hnot]⟩)

section

variable {graph : Materialized} {pages : List WikiPage} {journal before : List JournalEntry} {W : World} {i : ℕ}

/-- A retraction of the plan only ends rows of the projection. -/
theorem Kept.reaches_owned (h : Kept (graphOf before) pages (graphOf journal)) {key : EdgeKey}
    (hkey : key ∈ (liveOwnedEdges (graphOf before)).keys) (hfree : key ∉ liveForeignKeys (graphOf before))
    {row : StoredEdge} (hrow : row ∈ (graphOf journal).edges) (hlive : row.retracted = false)
    (hsame : row.key = (key.start, EdgeType.parse key.kind, key.target)) : isOwned row = true := by
  rcases h.rows row hrow hlive with hold | howned
  · obtain ⟨row', hrow', -, -, rfl⟩ := mem_liveOwnedEdges_keys hkey
    rw [← rowKey_of_retract hrow' hsame] at hfree
    by_contra hnot
    exact hfree (mem_liveForeignKeys hold hlive (Bool.not_eq_true _ |>.mp hnot))
  · exact howned

theorem Kept.retract (h : Kept (graphOf before) pages (graphOf journal)) {key : EdgeKey}
    (hkey : key ∈ (liveOwnedEdges (graphOf before)).keys) (hfree : key ∉ liveForeignKeys (graphOf before)) :
    Kept (graphOf before) pages (graphOf (journal ++ [entryOf P W i (retractEvent key)])) := by
  have hedges : (graphOf (journal ++ [entryOf P W i (retractEvent key)])).edges =
      (graphOf journal).edges.map (StoredEdge.retract (key.start, EdgeType.parse key.kind, key.target)) := by
    rw [graphOf_append, materializeStep_edges]
    rfl
  refine h.edge (by decide : "edge.retract" ≠ "node.upsert") (fun row hrow hlive => ?_)
    fun row _ hrow hlive hnot => ?_
  · rw [hedges] at hrow
    obtain ⟨row', hrow', rfl⟩ := List.mem_map.mp hrow
    rcases retracted_retract (key.start, EdgeType.parse key.kind, key.target) row' with hsame | ⟨-, hretracted⟩
    · rw [hsame]
      exact .inl hrow'
    · rw [hretracted] at hlive
      cases hlive
  · rw [hedges]
    have hother : row.key ≠ (key.start, EdgeType.parse key.kind, key.target) := by
      intro hsame
      rw [h.reaches_owned hkey hfree hrow hlive hsame] at hnot
      cases hnot
    exact List.mem_map.mpr ⟨row, hrow, if_neg hother⟩

theorem Kept.assert (h : Kept graph pages (graphOf journal)) {e : EdgeKey × String}
    (howned : startsWith e.2 edgeProvenanceStart = true) :
    Kept graph pages (graphOf (journal ++ [entryOf P W i (assertEvent e)])) := by
  have hedges : (graphOf (journal ++ [entryOf P W i (assertEvent e)])).edges = (graphOf journal).edges ∨
      ∃ row : StoredEdge, row.provenance = some e.2 ∧
        (graphOf (journal ++ [entryOf P W i (assertEvent e)])).edges = (graphOf journal).edges ++ [row] := by
    rw [graphOf_append, materializeStep_edges]
    cases hrow : assertOf (entryEvent (entryOf P W i (assertEvent e))) with
    | none => exact .inl rfl
    | some row =>
      refine .inr ⟨row, ?_, rfl⟩
      obtain ⟨payload, hpayload, hasserted⟩ := Option.bind_eq_some_iff.mp hrow
      obtain rfl := Option.some.inj hpayload
      unfold assertedRow at hasserted
      split at hasserted
      · cases hasserted
      · dsimp only at hasserted
        split_ifs at hasserted
        obtain rfl := Option.some.inj hasserted
        rfl
  refine h.edge (by decide : "edge.assert" ≠ "node.upsert") (fun row hrow hlive => ?_) fun row _ hrow _ _ => ?_
  · rcases hedges with hsame | ⟨new, hnew, happend⟩
    · exact .inl (hsame ▸ hrow)
    · rw [happend] at hrow
      rcases List.mem_append.mp hrow with hold | hlast
      · exact .inl hold
      · obtain rfl := List.mem_singleton.mp hlast
        refine .inr ?_
        rw [isOwned, hnew, Option.any_some]
        exact howned
  · rcases hedges with hsame | ⟨new, -, happend⟩
    · exact hsame ▸ hrow
    · rw [happend]
      exact List.mem_append_left _ hrow

variable {place : Place} {files : List PageFile} {p : Plan}

/-- Each event of a plan keeps what is to be kept. -/
theorem Planned.kept_entry (hplan : Planned P place files (graphOf before) pages p)
    (h : Kept (graphOf before) pages (graphOf journal)) {event : String × Json} (hevent : event ∈ p.events) :
    Kept (graphOf before) pages (graphOf (journal ++ [entryOf P W i event])) := by
  rcases List.mem_append.mp hevent with hevent | hevent
  · rcases List.mem_append.mp hevent with hevent | hevent
    · obtain ⟨payload, hpayload, rfl⟩ := List.mem_map.mp hevent
      obtain ⟨id, fields, hfields, hwrite⟩ := (hplan.writes payload hpayload).nodeWrite
      exact h.upsert hwrite rfl hfields
    · obtain ⟨key, hkey, rfl⟩ := List.mem_map.mp hevent
      exact h.retract (hplan.retracts key hkey).1 (hplan.retracts key hkey).2
  · obtain ⟨e, he, rfl⟩ := List.mem_map.mp hevent
    exact h.assert (hplan.asserts e he)

/-- So does any part of the plan that is appended. -/
theorem Planned.kept (hplan : Planned P place files (graphOf before) pages p) {done left : List (String × Json)}
    (hevents : p.events = done ++ left) : Kept (graphOf before) pages (graphOf (before ++ entriesOf P W 0 done)) := by
  induction done using List.reverseRecOn generalizing left with
  | nil =>
    have hnil : before ++ entriesOf P W 0 [] = before := List.append_nil before
    rw [hnil]
    exact .refl _ _
  | append_singleton done event ih =>
    rw [List.append_assoc] at hevents
    rw [entriesOf_concat, ← List.append_assoc]
    exact hplan.kept_entry (ih hevents) (hevents ▸ List.mem_append_right _ (List.mem_append_left _ List.mem_cons_self))

end

/-! ## Paths -/

/-- A registered path was registered before, or is that of the page with the id of its node. -/
theorem Kept.registered {graph later : Materialized} {pages : List WikiPage} (h : Kept graph pages later)
    {id path : String} {node : Value} (hnode : later.nodes.get? id = some node)
    (hpath : registeredPath node = some path) :
    (∃ node', graph.nodes.get? id = some node' ∧ registeredPath node' = some path) ∨
      ∃ page ∈ pages, page.id = id ∧ page.wikiPath = path := by
  obtain ⟨hmanaged, htype, hwiki⟩ := registeredPath_eq_some.mp hpath
  rcases h.path id _ (by rw [nodeField_of_get? hnode, hwiki]) with hold | ⟨page, hpage, hid, hv⟩
  · obtain ⟨node', hnode', hwiki'⟩ := Option.bind_eq_some_iff.mp hold
    refine .inl ⟨node', hnode', registeredPath_eq_some.mpr ⟨?_, ?_, hwiki'⟩⟩
    · by_contra hnot
      have hsame := h.others id node' hnode' (Bool.not_eq_true _ |>.mp hnot)
      exact hnot (Option.some.inj (hnode.symm.trans hsame) ▸ hmanaged)
    · rw [← nodeField_of_get? hnode', ← h.typed id (hnode' ▸ rfl), nodeField_of_get? hnode, htype]
  · exact .inr ⟨page, hpage, hid, (Value.string.inj hv).symm⟩

/-- When no two pages have one path, no two nodes get one. -/
theorem Kept.pathsDistinct {graph later : Materialized} {read pages : List WikiPage} (h : Kept graph pages later)
    (hassigned : Assigned graph read pages) (hread : (read.map WikiPage.wikiPath).Nodup)
    (hdistinct : PathsDistinct graph) : PathsDistinct later := by
  intro id id' node node' path hnode hnode' hpath hpath'
  rcases h.registered hnode hpath with ⟨old, hold, holdpath⟩ | ⟨page, hpage, rfl, rfl⟩
  · rcases h.registered hnode' hpath' with ⟨old', hold', holdpath'⟩ | ⟨page', hpage', rfl, rfl⟩
    · exact hdistinct id id' old old' path hold hold' holdpath holdpath'
    · exact (hassigned.registered page' hpage' id old hold holdpath).symm
  · rcases h.registered hnode' hpath' with ⟨old', hold', holdpath'⟩ | ⟨page', hpage', rfl, hsame⟩
    · exact hassigned.registered page hpage id' old' hold' holdpath'
    · exact congrArg WikiPage.id (List.inj_on_of_nodup_map (hassigned.paths ▸ hread) hpage hpage' hsame.symm)

/-! ## Runs -/

/-- Which events of a sync are about what. -/
structure Respects (P : Platform) (W : World) (place : Place) (files : List PageFile) (journal : List JournalEntry) :
    Prop where
  /-- A node event meets no node that is not managed. -/
  nodes : ∀ pre entry post, (sync P W place files journal).1 = journal ++ (pre ++ entry :: post) →
    ∀ id payload env, upsertOf (entryEvent entry) = some (id, payload, env) →
      ∀ node, (graphOf (journal ++ pre)).nodes.get? id = some node → isManaged node = true
  /-- A retraction meets no live row of somebody else. -/
  edges : ∀ pre entry post, (sync P W place files journal).1 = journal ++ (pre ++ entry :: post) →
    ∀ key, retractOf (entryEvent entry) = some key →
      ∀ row ∈ (graphOf (journal ++ pre)).edges, row.key = key → row.retracted = false → isOwned row = true
  /-- A sync that fails for its ids appends nothing. -/
  identity : ∀ e, (sync P W place files journal).2 = .error e → e ≠ .journal →
    (sync P W place files journal).1 = journal

theorem entriesOf_split {W : World} {i : ℕ} {done : List (String × Json)} {pre post : List JournalEntry}
    {entry : JournalEntry} (h : entriesOf P W i done = pre ++ entry :: post) :
    ∃ first event rest, done = first ++ event :: rest ∧ pre = entriesOf P W i first ∧
      entry = entryOf P W (i + first.length) event := by
  induction done generalizing i pre with
  | nil => exact absurd h.symm (List.append_ne_nil_of_right_ne_nil _ (List.cons_ne_nil _ _))
  | cons event done ih =>
    rw [entriesOf_cons] at h
    cases pre with
    | nil => exact ⟨[], event, done, rfl, rfl, (List.cons.inj h).1.symm⟩
    | cons head pre =>
      obtain ⟨hhead, htail⟩ := List.cons.inj h
      obtain ⟨first, event', rest, rfl, hpre, hentry⟩ := ih htail
      refine ⟨event :: first, event', rest, rfl, ?_, ?_⟩
      · rw [entriesOf_cons, ← hhead, hpre]
      · rw [hentry, List.length_cons, Nat.add_assoc, Nat.add_comm 1]

theorem appendEvents_error {W : World} {i : ℕ} {events : List (String × Json)} {journal : List JournalEntry}
    {e : SyncError} (h : (appendEvents P W i events journal).2 = .error e) : e = .journal := by
  induction events generalizing i journal with
  | nil => cases h
  | cons event rest ih =>
    rw [appendEvents] at h
    split_ifs at h
    · exact ih h
    · exact (Except.error.inj h).symm

theorem respects (P : Platform) (W : World) (place : Place) (files : List PageFile) (journal : List JournalEntry) :
    Respects P W place files journal := by
  rcases sync_spec (P := P) W place files journal with ⟨e, -, hsync⟩ | ⟨p, done, left, hplan, hevents, hjournal, -⟩
  · have hnothing : ∀ pre entry post, (sync P W place files journal).1 ≠ journal ++ (pre ++ entry :: post) := by
      intro pre entry post heq
      rw [hsync] at heq
      exact absurd (List.self_eq_append_right.mp heq) (List.append_ne_nil_of_right_ne_nil _ (List.cons_ne_nil _ _))
    exact ⟨fun pre entry post heq => absurd heq (hnothing pre entry post),
      fun pre entry post heq => absurd heq (hnothing pre entry post), fun e' _ _ => by rw [hsync]⟩
  · obtain ⟨pages, hplanned⟩ := planned_of_ok hplan
    -- an appended entry is one of the plan's, behind a part of the plan
    have hpart : ∀ pre entry post, (sync P W place files journal).1 = journal ++ (pre ++ entry :: post) →
        ∃ i event, event ∈ p.events ∧ entry = entryOf P W i event ∧
          Kept (graphOf journal) pages (graphOf (journal ++ pre)) := by
      intro pre entry post heq
      rw [hjournal] at heq
      obtain ⟨first, event, rest, rfl, rfl, rfl⟩ := entriesOf_split (List.append_cancel_left heq)
      rw [List.append_assoc] at hevents
      exact ⟨_, event, hevents ▸ List.mem_append_right _ (List.mem_append_left _ List.mem_cons_self), rfl,
        hplanned.kept hevents⟩
    refine ⟨fun pre entry post heq id payload env hupsert node hnode => ?_, fun pre entry post heq key hretract row hrow
      hsame hlive => ?_, fun e herror hne => ?_⟩
    · obtain ⟨i, event, hevent, rfl, hkept⟩ := hpart pre entry post heq
      rcases List.mem_append.mp hevent with hevent | hevent
      · rcases List.mem_append.mp hevent with hevent | hevent
        · obtain ⟨payload', hpayload', rfl⟩ := List.mem_map.mp hevent
          obtain ⟨id', fields, hfields, hwrite⟩ := (hplanned.writes payload' hpayload').nodeWrite
          have hid : upsertOf (entryEvent (entryOf P W i (nodeEvent payload'))) =
              some (id', fields, some (W.now i)) := by
            have hobject : payload'.val.asObject? = some fields := by rw [hfields, Value.asObject?]
            simp [upsertOf, payloadOf, entryOf, newEntry, nodeEvent, hobject, strField, hwrite.id_eq]
          obtain ⟨rfl, -⟩ := Prod.mk.inj (Option.some.inj (hid.symm.trans hupsert))
          exact hkept.meets_managed hwrite hnode
        · obtain ⟨key, -, rfl⟩ := List.mem_map.mp hevent
          cases hupsert
      · obtain ⟨e, -, rfl⟩ := List.mem_map.mp hevent
        cases hupsert
    · obtain ⟨i, event, hevent, rfl, hkept⟩ := hpart pre entry post heq
      rcases List.mem_append.mp hevent with hevent | hevent
      · rcases List.mem_append.mp hevent with hevent | hevent
        · obtain ⟨payload', -, rfl⟩ := List.mem_map.mp hevent
          cases hretract
        · obtain ⟨key', hkey', rfl⟩ := List.mem_map.mp hevent
          obtain rfl := Option.some.inj hretract
          obtain ⟨hlive', hfree⟩ := hplanned.retracts key' hkey'
          exact hkept.reaches_owned hlive' hfree hrow hlive hsame
      · obtain ⟨e, -, rfl⟩ := List.mem_map.mp hevent
        cases hretract
    · have happend : (appendEvents P W 0 p.events journal).2 = .error e := by
        simpa only [sync, hplan] using herror
      exact absurd (appendEvents_error happend) hne

/-- A sync as a step on the journal. -/
def syncStep (P : Platform) (journal : List JournalEntry) (x : World × Place × List PageFile) :
    Option (List JournalEntry) := some (sync P x.1 x.2.1 x.2.2 journal).1

/-- No two files that could be read have one path. -/
def DistinctPaths (x : World × Place × List PageFile) : Prop :=
  ((preflight x.2.1 x.2.2).pages.map WikiPage.wikiPath).Nodup

theorem PathsDistinct.sync {W : World} {place : Place} {files : List PageFile} {journal : List JournalEntry}
    (h : PathsDistinct (graphOf journal)) (hpaths : ((preflight place files).pages.map WikiPage.wikiPath).Nodup) :
    PathsDistinct (graphOf (WikiGraph.sync P W place files journal).1) := by
  rcases sync_spec (P := P) W place files journal with ⟨e, -, hsync⟩ | ⟨p, done, left, hplan, hevents, hjournal, -⟩
  · rw [hsync]
    exact h
  · obtain ⟨pages, hplanned⟩ := planned_of_ok hplan
    rw [hjournal]
    exact (hplanned.kept hevents).pathsDistinct hplanned.assigned hpaths h

private theorem bind_ne_error {ε α β : Type} {x : Except ε α} {f : α → Except ε β} {e : ε} (hx : x ≠ .error e)
    (hf : ∀ a, f a ≠ .error e) : (x >>= f) ≠ .error e := by
  cases x with
  | error e' => exact fun h => hx (congrArg Except.error (Except.error.inj h))
  | ok a => exact hf a

private theorem mapM_ne_error {ε α β : Type} {f : α → Except ε β} {e : ε} (hf : ∀ a, f a ≠ .error e) (l : List α) :
    l.mapM f ≠ .error e := by
  induction l with
  | nil => exact fun h => by cases h
  | cons a rest ih =>
    rw [List.mapM_cons]
    exact bind_ne_error (hf a) fun b => bind_ne_error ih fun bs h => by cases h

theorem claimIds_ne (registered claimed : SortedMap String String) (pages : List WikiPage) (path previous id : String) :
    claimIds P registered claimed pages ≠ .error (.multipleIds path previous id) := by
  induction pages generalizing claimed with
  | nil => exact fun h => by cases h
  | cons page rest ih =>
    rw [claimIds]
    split
    · exact fun h => by cases h
    · intro h
      cases hrest : claimIds P registered (claimed.insert (idFor P registered page) page.wikiPath) rest with
      | error e =>
        rw [hrest] at h
        exact ih _ (hrest.trans (congrArg Except.error (Except.error.inj h)))
      | ok tail =>
        rw [hrest] at h
        cases h

/-- Then ids can be assigned, as far as registered paths go. -/
theorem PathsDistinct.plan_ne {V : Visit} {place : Place} {files : List PageFile} {graph : Materialized}
    (h : PathsDistinct graph) (path previous id : String) :
    plan P V place files graph ≠ .error (.multipleIds path previous id) := by
  have hentry : ∀ e ∈ V.order graph.nodes, graph.nodes.get? e.1 = some e.2 := fun e he =>
    (SortedMap.mem_entries_iff _).mp ((V.perm graph.nodes).mem_iff.mp he)
  obtain ⟨registered, hregistered⟩ := register_of_distinct (m := ∅)
    (fun e he d hd path hpath hpath' => h e.1 d.1 e.2 d.2 path (hentry e he) (hentry d hd) hpath hpath')
    (fun e _ path id _ hid => by cases hid)
  have hregister : (V.order graph.nodes).foldlM registerNode ∅ ≠ .error (.multipleIds path previous id) := by
    rw [hregistered]
    exact fun h => by cases h
  have hnode : ∀ e : String × Json, planNode graph e ≠ .error (.multipleIds path previous id) := by
    intro e
    unfold planNode
    split
    · exact fun h => by cases h
    · split_ifs <;> exact fun h => by cases h
  refine bind_ne_error (bind_ne_error hregister fun registered => claimIds_ne registered ∅ _ path previous id)
    fun pages => ?_
  exact bind_ne_error (mapM_ne_error hnode _) fun changed h => by cases h

/-- Whatever the journal and the pages are, a sync only touches what is its own and fails for its ids before it appends.
Along syncs in none of which two pages have one path, from a journal without managed nodes, no two nodes have one
path, and no sync fails for one. -/
theorem sync_respects_foreign (P : Platform) :
    (∀ W place files journal, Respects P W place files journal) ∧
      ∀ start, (∀ id node, (graphOf start).nodes.get? id = some node → isManaged node = false) →
        ∀ actions journal, GuardedRun (syncStep P) (fun _ x => DistinctPaths x) start actions journal →
          PathsDistinct (graphOf journal) ∧
            ∀ V place files path previous id,
              plan P V place files (graphOf journal) ≠ .error (.multipleIds path previous id) := by
  refine ⟨respects P, fun start hstart actions journal hrun => ?_⟩
  have hfirst : PathsDistinct (graphOf start) := by
    intro id id' node node' path hnode hnode' hpath hpath'
    have hmanaged := (registeredPath_eq_some.mp hpath).1
    rw [hstart id node hnode] at hmanaged
    cases hmanaged
  have hstep : ∀ {s x s'}, PathsDistinct (graphOf s) → DistinctPaths x → syncStep P s x = some s' →
      PathsDistinct (graphOf s') := by
    intro s x s' hinv hok hnext
    obtain rfl := Option.some.inj hnext
    exact hinv.sync hok
  have hdistinct : PathsDistinct (graphOf journal) :=
    hrun.invariant (fun hinv hok hnext => hstep hinv hok hnext) hfirst
  exact ⟨hdistinct, fun V place files path previous id => hdistinct.plan_ne path previous id⟩

/-! ## Two files with one path -/

/-- A library without a digest. -/
def plainPlatform : Platform := ⟨fun _ => "0.0", fun _ => none, fun _ => none, fun _ => "0"⟩

/-- All appends succeed. -/
def calmWorld : World := ⟨⟨SortedMap.entries, fun _ => List.Perm.refl _⟩, fun _ => true, fun _ => "2026-01-01T00:00:00Z"⟩

/-- The root of a knowledge base. -/
def kbPlace : Place := ⟨⟨true, ["kb"]⟩, none⟩

/-- A page with an id and nothing else. -/
def pageWithId (id : String) : PageText := ⟨"Title", [], [], [], some id, "", "0"⟩

/-- A file in a directory, and one whose name has a backslash. -/
def twinFiles : List PageFile := [⟨"a/b.md", some (pageWithId "x")⟩, ⟨"a\\b.md", some (pageWithId "y")⟩]

/-- Both files are projected to the path `a/b.md`, and the next sync fails for it. -/
theorem twins_share_path :
    (graphOf []).nodes.entries = [] ∧
      ¬PathsDistinct (graphOf (sync plainPlatform calmWorld kbPlace twinFiles []).1) ∧
      (sync plainPlatform calmWorld kbPlace twinFiles (sync plainPlatform calmWorld kbPlace twinFiles []).1).2 =
        .error (.multipleIds "a/b.md" "x" "y") := by
  have hx : ((graphOf (sync plainPlatform calmWorld kbPlace twinFiles []).1).nodes.get? "x").bind registeredPath =
      some "a/b.md" := by decide +kernel
  have hy : ((graphOf (sync plainPlatform calmWorld kbPlace twinFiles []).1).nodes.get? "y").bind registeredPath =
      some "a/b.md" := by decide +kernel
  refine ⟨rfl, fun h => ?_, by decide +kernel⟩
  obtain ⟨node, hnode, hpath⟩ := Option.bind_eq_some_iff.mp hx
  obtain ⟨node', hnode', hpath'⟩ := Option.bind_eq_some_iff.mp hy
  exact absurd (h "x" "y" node node' "a/b.md" hnode hnode' hpath hpath') (by decide)

/-- With only one of the files all is well. -/
theorem one_path_kept :
    PathsDistinct (graphOf (sync plainPlatform calmWorld kbPlace [⟨"a/b.md", some (pageWithId "x")⟩] []).1) ∧
      ∀ V place files path previous id, plan plainPlatform V place files
          (graphOf (sync plainPlatform calmWorld kbPlace [⟨"a/b.md", some (pageWithId "x")⟩] []).1) ≠
        .error (.multipleIds path previous id) :=
  (sync_respects_foreign plainPlatform).2 [] (fun _ _ hnode => by cases hnode)
    [(calmWorld, kbPlace, [⟨"a/b.md", some (pageWithId "x")⟩])] _
    (.next (List.nodup_singleton _) rfl (.done _))

end Innen.WikiGraph
