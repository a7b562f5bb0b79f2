import Innen.Common.Runs
import Innen.TaskEntry.Baseline

/-!
# The neighbourhood of a project

The nodes that belong to the linked projects are listed by label, one row for each live edge, and rows with one id that
come to stand next to each other are merged. What is left is folded by document. Folding loses nothing
(`foldDocuments_once`). The merge relies on the order of the edges: a node in two projects stays twice when another node
with the same label comes between (`neighbors_once_iff`).
-/

namespace Innen.TaskEntry

open Common Graph

/-! ## The rows -/

/-- `is_constraint`. -/
def isConstraint (node : Value) : Bool := sameAscii (nodeText node "type") "constraint"

/-- A row of the neighbourhood before it is folded: a node, and the project that an edge says it belongs to. -/
structure NeighborRow where
  id : String
  kind : String
  label : String
  project : String
deriving DecidableEq

def NeighborRow.item (row : NeighborRow) : Item := ⟨row.id, row.kind, row.label⟩

section

variable (nodes : SortedMap String Value) (projects seeds : SortedSet String)

/-- The row of an edge, unless the edge is passed over. -/
def neighborRow (edge : StoredEdge) : Option NeighborRow :=
  if edge.retracted = true ∨ edge.edge ≠ .belongsTo ∨ edge.to ∉ projects ∨ edge.from ∈ seeds then none
  else (nodes.get? edge.from).bind fun node =>
    if isConstraint node then none else some ⟨edge.from, nodeKind node, nodeText node "label", edge.to⟩

/-- The items that are folded: the rows by label, of neighbours with one id the first. -/
def neighborItems (edges : List StoredEdge) : List Item :=
  (sortRuns NeighborRow.label NeighborRow.id (edges.filterMap (neighborRow nodes projects seeds))).map NeighborRow.item

/-- `NEIGHBORHOOD_LIMIT`. -/
def neighborhoodLimit : ℕ := 12

/-- A row as it is shown. -/
structure ShownNeighbor where
  id : String
  kind : String
  label : String
  also : ℕ
deriving DecidableEq

/-- The rows that are shown for the items, and how many rows there are. Every row is one of the items, so that it has
a kind. -/
def shownNeighbors (items : List Item) : List ShownNeighbor × ℕ :=
  let kinds := (∅ : SortedMap String String).insertAll (items.map fun item => (item.id, item.kind))
  let folded := foldDocuments items
  ((folded.take neighborhoodLimit).map fun row => ⟨row.id, (kinds.get? row.id).getD "", row.label, row.also.length⟩,
    folded.length)

/-- `project_neighbors`. -/
def projectNeighbors (edges : List StoredEdge) : List ShownNeighbor × ℕ :=
  shownNeighbors (neighborItems nodes projects seeds edges)

end

/-! ## Folding loses nothing -/

/-- The ids that a row stands for. -/
def Folded.ids (row : Folded) : List String := row.id :: row.also

/-- Every item is in one row, once; the rows come in the order of their first items, and so do the items of a row. -/
structure FoldsOnce (items : List Item) (rows : List Folded) : Prop where
  once : (rows.flatMap Folded.ids).Perm (items.map Item.id)
  order : (rows.map Folded.id).Sublist (items.map Item.id)
  members : ∀ row ∈ rows, row.ids.Sublist (items.map Item.id)

/-- The rows of a folding, with groups that know their rows. -/
structure Folding.Placed (done : Folding) (items : List Item) : Prop where
  folds : FoldsOnce items done.rows
  placed : ∀ key group, done.groups.get? key = some group → group.place < done.rows.length

theorem perm_flatMap_modify {f : Folded → Folded} {id : String} (hf : ∀ row, (f row).ids = row.ids ++ [id])
    {rows : List Folded} {i : ℕ} (hi : i < rows.length) :
    ((rows.modify i f).flatMap Folded.ids).Perm (rows.flatMap Folded.ids ++ [id]) := by
  induction rows generalizing i with
  | nil => exact absurd hi (Nat.not_lt_zero i)
  | cons row rest ih =>
    cases i with
    | zero =>
      rw [List.modify_zero_cons, List.flatMap_cons, List.flatMap_cons, hf, List.append_assoc, List.append_assoc]
      exact List.perm_append_comm.append_left row.ids
    | succ i =>
      rw [List.modify_succ_cons, List.flatMap_cons, List.flatMap_cons, List.append_assoc]
      exact (ih (Nat.lt_of_succ_lt_succ hi)).append_left row.ids

theorem mem_modify {α : Type} {f : α → α} {l : List α} {i : ℕ} {b : α} (h : b ∈ l.modify i f) :
    b ∈ l ∨ ∃ a ∈ l, b = f a := by
  induction l generalizing i with
  | nil => exact absurd h (by simp)
  | cons a rest ih =>
    cases i with
    | zero =>
      rw [List.modify_zero_cons] at h
      rcases List.mem_cons.mp h with rfl | h
      · exact .inr ⟨a, List.mem_cons_self, rfl⟩
      · exact .inl (List.mem_cons_of_mem a h)
    | succ i =>
      rw [List.modify_succ_cons] at h
      rcases List.mem_cons.mp h with rfl | h
      · exact .inl List.mem_cons_self
      · exact (ih h).imp (List.mem_cons_of_mem a) fun ⟨c, hc, heq⟩ => ⟨c, List.mem_cons_of_mem a hc, heq⟩

/-- A new row for an item. -/
theorem FoldsOnce.add {items : List Item} {rows : List Folded} (h : FoldsOnce items rows) (item : Item) :
    FoldsOnce (items ++ [item]) (rows ++ [⟨item.id, item.label, []⟩]) where
  once := by
    rw [List.flatMap_append, List.map_append]
    exact h.once.append (List.Perm.refl _)
  order := by
    rw [List.map_append, List.map_append]
    exact h.order.append (List.Sublist.refl _)
  members row hrow := by
    rw [List.map_append]
    rcases List.mem_append.mp hrow with hrow | hrow
    · exact (h.members row hrow).trans (List.sublist_append_left _ _)
    · obtain rfl := List.mem_singleton.mp hrow
      exact List.sublist_append_right _ _

/-- An item that joins the row of its group. -/
theorem FoldsOnce.join {items : List Item} {rows : List Folded} (h : FoldsOnce items rows) (item : Item)
    {f : Folded → Folded} (hid : ∀ row, (f row).id = row.id) (hf : ∀ row, (f row).ids = row.ids ++ [item.id]) {i : ℕ}
    (hi : i < rows.length) : FoldsOnce (items ++ [item]) (rows.modify i f) where
  once := by
    rw [List.map_append]
    exact (perm_flatMap_modify hf hi).trans (h.once.append (List.Perm.refl _))
  order := by
    rw [map_modify_of_eq hid, List.map_append]
    exact h.order.trans (List.sublist_append_left _ _)
  members row hrow := by
    rw [List.map_append]
    rcases mem_modify hrow with hrow | ⟨row', hrow', rfl⟩
    · exact (h.members row hrow).trans (List.sublist_append_left _ _)
    · rw [hf]
      exact (h.members row' hrow').append (List.Sublist.refl _)

/-- One item is folded into the row of its group, or gets a row. -/
theorem Folding.Placed.foldItem {done : Folding} {items : List Item} (h : done.Placed items) (item : Item) :
    (TaskEntry.foldItem done item).Placed (items ++ [item]) := by
  simp only [TaskEntry.foldItem]
  split
  · refine ⟨h.folds.add item, fun key group hget => ?_⟩
    have := h.placed key group hget
    simp only [List.length_append, List.length_singleton]
    omega
  · split
    · rename_i group hgroup
      have hplace : group.place < done.rows.length := h.placed _ _ hgroup
      refine ⟨?_, fun key group' hget => ?_⟩
      · refine h.folds.join item ?_ ?_ hplace
        · exact fun row => rfl
        · exact fun row => rfl
      · rw [SortedMap.get?_insert] at hget
        rw [List.length_modify]
        split at hget
        · obtain rfl := Option.some.inj hget
          exact hplace
        · exact h.placed key group' hget
    · refine ⟨h.folds.add item, fun key group' hget => ?_⟩
      rw [SortedMap.get?_insert] at hget
      rw [List.length_append, List.length_singleton]
      split at hget
      · obtain rfl := Option.some.inj hget
        exact Nat.lt_succ_self _
      · exact Nat.lt_succ_of_lt (h.placed key group' hget)

theorem Folding.Placed.foldl {done : Folding} {items : List Item} (h : done.Placed items) (more : List Item) :
    (more.foldl TaskEntry.foldItem done).Placed (items ++ more) := by
  induction more generalizing done items with
  | nil => rwa [List.append_nil]
  | cons item rest ih =>
    have hnext := ih (h.foldItem item)
    rwa [List.append_assoc] at hnext

theorem foldDocuments_once (items : List Item) : FoldsOnce items (foldDocuments items) := by
  have hempty : Folding.Placed ⟨[], ∅⟩ [] :=
    ⟨⟨.refl _, .refl _, fun row hrow => absurd hrow List.not_mem_nil⟩, fun key group h => absurd h (by simp)⟩
  exact (hempty.foldl items).folds

/-! ## What the rows are -/

/-- `total`: each document once. -/
theorem total_eq (items : List Item) : (shownNeighbors items).2 = (firstOfKey Item.key [] items).length := by
  have hids := foldItems_ids items ⟨[], ∅⟩ [] (fun key => by simp)
  have hlen := congrArg List.length hids
  rw [List.map_nil, List.nil_append, List.length_map, List.length_map] at hlen
  exact hlen

section

variable (nodes : SortedMap String Value) (projects seeds : SortedSet String)

/-- A node that the neighbourhood is to list. -/
def IsNeighbor (edges : List StoredEdge) (id : String) : Prop :=
  id ∉ seeds ∧ (∃ node, nodes.get? id = some node ∧ isConstraint node = false) ∧
    ∃ edge ∈ edges, edge.retracted = false ∧ edge.edge = .belongsTo ∧ edge.from = id ∧ edge.to ∈ projects

/-- Each node of the neighbourhood is folded once. -/
def ListsOnce (edges : List StoredEdge) : Prop :=
  ((neighborItems nodes projects seeds edges).map Item.id).Nodup ∧
    ∀ id, id ∈ (neighborItems nodes projects seeds edges).map Item.id ↔ IsNeighbor nodes projects seeds edges id

/-- Two orders of the edges give the same answer, but for the order of nodes with one label. -/
structure SameBeyondTies (edges edges' : List StoredEdge) : Prop where
  items : (neighborItems nodes projects seeds edges').Perm (neighborItems nodes projects seeds edges)
  labels : (neighborItems nodes projects seeds edges').map Item.label =
    (neighborItems nodes projects seeds edges).map Item.label
  total : (projectNeighbors nodes projects seeds edges').2 = (projectNeighbors nodes projects seeds edges).2
  untied : ((neighborItems nodes projects seeds edges).map Item.label).Nodup →
    projectNeighbors nodes projects seeds edges' = projectNeighbors nodes projects seeds edges

/-- An edge that has a row. -/
def isNeighborEdge (edge : StoredEdge) : Bool := (neighborRow nodes projects seeds edge).isSome

/-- The label of the node that an edge starts at. -/
def labelFrom (edge : StoredEdge) : String := nodeText (nodeOf nodes edge.from) "label"

/-- The edges that have a row. -/
def neighborEdges (edges : List StoredEdge) : List StoredEdge := edges.filter (isNeighborEdge nodes projects seeds)

variable {nodes projects seeds}

/-- The row of an edge that has one. -/
theorem neighborRow_eq_some {edge : StoredEdge} {row : NeighborRow}
    (h : neighborRow nodes projects seeds edge = some row) :
    (edge.retracted = false ∧ edge.edge = .belongsTo ∧ edge.to ∈ projects ∧ edge.from ∉ seeds) ∧
      ∃ node, nodes.get? edge.from = some node ∧ isConstraint node = false ∧
        row = ⟨edge.from, nodeKind node, nodeText node "label", edge.to⟩ := by
  unfold neighborRow at h
  split at h
  · exact absurd h (by simp)
  · rename_i hpass
    simp only [not_or, Bool.not_eq_true, not_not] at hpass
    obtain ⟨node, hnode, h⟩ := Option.bind_eq_some_iff.mp h
    split at h
    · exact absurd h (by simp)
    · rename_i hconstraint
      exact ⟨hpass, node, hnode, Bool.not_eq_true _ ▸ hconstraint, (Option.some.inj h).symm⟩

theorem isNeighbor_iff {edges : List StoredEdge} {id : String} : IsNeighbor nodes projects seeds edges id ↔
    id ∈ (edges.filterMap (neighborRow nodes projects seeds)).map NeighborRow.id := by
  constructor
  · rintro ⟨hseed, ⟨node, hnode, hconstraint⟩, edge, hedge, hlive, hbelongs, rfl, hto⟩
    refine List.mem_map.mpr ⟨⟨edge.from, nodeKind node, nodeText node "label", edge.to⟩,
      List.mem_filterMap.mpr ⟨edge, hedge, ?_⟩, rfl⟩
    simp [neighborRow, hlive, hbelongs, hto, hseed, hnode, hconstraint]
  · intro h
    obtain ⟨row, hrow, rfl⟩ := List.mem_map.mp h
    obtain ⟨edge, hedge, hsome⟩ := List.mem_filterMap.mp hrow
    obtain ⟨⟨hlive, hbelongs, hto, hseed⟩, node, hnode, hconstraint, rfl⟩ := neighborRow_eq_some hsome
    exact ⟨hseed, ⟨node, hnode, hconstraint⟩, edge, hedge, hlive, hbelongs, rfl, hto⟩

/-- The row of an edge whose node is there. -/
def rowOf (nodes : SortedMap String Value) (edge : StoredEdge) : NeighborRow :=
  ⟨edge.from, nodeKind (nodeOf nodes edge.from), labelFrom nodes edge, edge.to⟩

theorem eq_rowOf {edge : StoredEdge} {row : NeighborRow} (h : neighborRow nodes projects seeds edge = some row) :
    row = rowOf nodes edge := by
  obtain ⟨-, node, hnode, -, rfl⟩ := neighborRow_eq_some h
  rw [rowOf, labelFrom, nodeOf, hnode]
  rfl

theorem filterMap_neighborRow (edges : List StoredEdge) :
    edges.filterMap (neighborRow nodes projects seeds) =
      (neighborEdges nodes projects seeds edges).map (rowOf nodes) := by
  induction edges with
  | nil => rfl
  | cons edge rest ih =>
    rw [neighborEdges, List.filter_cons, List.filterMap_cons]
    cases hrow : neighborRow nodes projects seeds edge with
    | none => rw [isNeighborEdge, hrow, Option.isSome_none, if_neg (by simp)]; exact ih
    | some row =>
      rw [isNeighborEdge, hrow, Option.isSome_some, if_pos rfl, List.map_cons, eq_rowOf hrow]
      exact congrArg _ ih

/-- Edges from one node have rows with one label. -/
theorem labelFrom_eq (edges : List StoredEdge) : ∀ a ∈ edges, ∀ b ∈ edges, a.from = b.from →
    labelFrom nodes a = labelFrom nodes b := by
  intro a _ b _ h
  rw [labelFrom, labelFrom, h]

/-- Separated rows are rows of separated edges. -/
theorem separated_rows_iff {l : List StoredEdge} :
    Separated NeighborRow.label NeighborRow.id (l.map (rowOf nodes)) ↔
      Separated (labelFrom nodes) StoredEdge.from l := by
  constructor
  · rintro ⟨x, y, z, hsub, hzx, hyx, hlabel⟩
    obtain ⟨r, hr, heq⟩ := List.sublist_map_iff.mp hsub
    obtain ⟨a, r₁, rfl, rfl, h₁⟩ := List.map_eq_cons_iff.mp heq.symm
    obtain ⟨b, r₂, rfl, rfl, h₂⟩ := List.map_eq_cons_iff.mp h₁
    obtain ⟨c, r₃, rfl, rfl, h₃⟩ := List.map_eq_cons_iff.mp h₂
    obtain rfl := List.map_eq_nil_iff.mp h₃
    exact ⟨a, b, c, hr, hzx, hyx, hlabel⟩
  · rintro ⟨a, b, c, hsub, hca, hba, hlabel⟩
    exact ⟨rowOf nodes a, rowOf nodes b, rowOf nodes c, hsub.map (rowOf nodes), hca, hba, hlabel⟩

theorem map_id_neighborItems (edges : List StoredEdge) : (neighborItems nodes projects seeds edges).map Item.id =
    (sortRuns NeighborRow.label NeighborRow.id ((neighborEdges nodes projects seeds edges).map (rowOf nodes))).map
      NeighborRow.id := by
  rw [neighborItems, List.map_map, filterMap_neighborRow]
  rfl

/-- Every node of the neighbourhood is listed, and it is listed once unless its edges are separated. -/
theorem listsOnce_iff {edges : List StoredEdge} : ListsOnce nodes projects seeds edges ↔
    ¬Separated (labelFrom nodes) StoredEdge.from (neighborEdges nodes projects seeds edges) := by
  have hmem : ∀ id, id ∈ (neighborItems nodes projects seeds edges).map Item.id ↔
      IsNeighbor nodes projects seeds edges id := by
    intro id
    rw [isNeighbor_iff, filterMap_neighborRow, map_id_neighborItems, mem_map_sortRuns]
  rw [ListsOnce, and_iff_left hmem, map_id_neighborItems, nodup_sortRuns_iff, separated_rows_iff]
  intro a ha b hb hid
  obtain ⟨e, he, rfl⟩ := List.mem_map.mp ha
  obtain ⟨e', he', rfl⟩ := List.mem_map.mp hb
  exact labelFrom_eq _ e he e' he' hid

/-! ## Other orders of the edges -/

/-- An item of the neighbourhood is told by its id. -/
theorem item_of_mem {edges : List StoredEdge} {item : Item} (h : item ∈ neighborItems nodes projects seeds edges) :
    item = ⟨item.id, nodeKind (nodeOf nodes item.id), nodeText (nodeOf nodes item.id) "label"⟩ := by
  obtain ⟨row, hrow, rfl⟩ := List.mem_map.mp h
  have hrow := sortRuns_subset _ _ _ hrow
  rw [filterMap_neighborRow] at hrow
  obtain ⟨edge, -, rfl⟩ := List.mem_map.mp hrow
  rfl

theorem pairwise_neighborItems (edges : List StoredEdge) :
    (neighborItems nodes projects seeds edges).Pairwise fun a b => a.label ≤ b.label :=
  List.pairwise_map.mpr (pairwise_sortRuns NeighborRow.label NeighborRow.id _)

theorem IsNeighbor.perm {edges edges' : List StoredEdge} (hperm : edges'.Perm edges) {id : String} :
    IsNeighbor nodes projects seeds edges' id ↔ IsNeighbor nodes projects seeds edges id := by
  simp only [IsNeighbor, hperm.mem_iff]

/-- Where both orders list every node once, the answers are the same. -/
theorem sameBeyondTies_of_once {edges edges' : List StoredEdge} (hperm : edges'.Perm edges)
    (h : ListsOnce nodes projects seeds edges) (h' : ListsOnce nodes projects seeds edges') :
    SameBeyondTies nodes projects seeds edges edges' := by
  have hitems : (neighborItems nodes projects seeds edges').Perm (neighborItems nodes projects seeds edges) := by
    refine (List.perm_ext_iff_of_nodup (h'.1.of_map _) (h.1.of_map _)).mpr fun item => ?_
    have hsub : ∀ {l l' : List StoredEdge}, l'.Perm l → ListsOnce nodes projects seeds l →
        ListsOnce nodes projects seeds l' → item ∈ neighborItems nodes projects seeds l' →
        item ∈ neighborItems nodes projects seeds l := by
      intro l l' hl hlist hlist' hmem
      have hid := (hlist.2 item.id).mpr ((IsNeighbor.perm hl).mp ((hlist'.2 _).mp (List.mem_map_of_mem hmem)))
      obtain ⟨other, hother, heq⟩ := List.mem_map.mp hid
      rw [item_of_mem hmem, ← heq, ← item_of_mem hother]
      exact hother
    exact ⟨hsub hperm h h', hsub hperm.symm h' h⟩
  have hlabels : (neighborItems nodes projects seeds edges').map Item.label =
      (neighborItems nodes projects seeds edges).map Item.label := by
    refine List.Perm.eq_of_pairwise ?_ (List.pairwise_map.mpr (pairwise_neighborItems edges'))
      (List.pairwise_map.mpr (pairwise_neighborItems edges)) (hitems.map Item.label)
    exact fun a b _ _ hab hba => le_antisymm hab hba
  refine ⟨hitems, hlabels, ?_, fun hnodup => ?_⟩
  · rw [projectNeighbors, projectNeighbors, total_eq, total_eq]
    exact length_firstOfKey_perm hitems
  · have heq : neighborItems nodes projects seeds edges' = neighborItems nodes projects seeds edges := by
      refine List.Perm.eq_of_pairwise ?_ (pairwise_neighborItems edges') (pairwise_neighborItems edges) hitems
      intro a b ha hb hab hba
      exact List.inj_on_of_nodup_map hnodup (hitems.subset ha) hb (le_antisymm hab hba)
    rw [projectNeighbors, projectNeighbors, heq]

/-- The edges that have a row, in any order, are those of some order of all edges. -/
theorem exists_perm_neighborEdges {edges l : List StoredEdge} (h : l.Perm (neighborEdges nodes projects seeds edges)) :
    ∃ edges', edges'.Perm edges ∧ neighborEdges nodes projects seeds edges' = l := by
  refine ⟨l ++ edges.filter fun e => !isNeighborEdge nodes projects seeds e, ?_, ?_⟩
  · exact (h.append_right _).trans (List.filter_append_perm _ _)
  · have hall : l.filter (isNeighborEdge nodes projects seeds) = l :=
      List.filter_eq_self.mpr fun e he => (List.mem_filter.mp (h.subset he)).2
    have hnone : (edges.filter fun e => !isNeighborEdge nodes projects seeds e).filter
        (isNeighborEdge nodes projects seeds) = [] := by
      rw [List.filter_filter, List.filter_eq_nil_iff]
      simp
    rw [neighborEdges, List.filter_append, hall, hnone, List.append_nil]

/-- Folding loses no item. The neighbourhood lists each of its nodes once iff no two edges of a node are separated by
an edge of another node with the same label, and it does so in every order of the edges, with the same answer, iff no
node with two edges shares its label with another one. -/
theorem neighbors_once_iff (nodes : SortedMap String Value) (projects seeds : SortedSet String)
    (edges : List StoredEdge) :
    (∀ items : List Item, (items.map Item.id).Nodup →
        ((foldDocuments items).flatMap Folded.ids).Nodup ∧ FoldsOnce items (foldDocuments items)) ∧
      (ListsOnce nodes projects seeds edges ↔
        ¬Separated (labelFrom nodes) StoredEdge.from (neighborEdges nodes projects seeds edges)) ∧
      ((∀ edges', edges'.Perm edges →
          ListsOnce nodes projects seeds edges' ∧ SameBeyondTies nodes projects seeds edges edges') ↔
        ¬Shared (labelFrom nodes) StoredEdge.from (neighborEdges nodes projects seeds edges)) := by
  refine ⟨fun items hnodup => ?_, listsOnce_iff, ?_⟩
  · exact ⟨(foldDocuments_once items).once.nodup_iff.mpr hnodup, foldDocuments_once items⟩
  rw [← exists_perm_separated_iff _ _ _ (labelFrom_eq _)]
  constructor
  · rintro h ⟨l, hl, hseparated⟩
    obtain ⟨edges', hperm, rfl⟩ := exists_perm_neighborEdges hl
    exact listsOnce_iff.mp (h edges' hperm).1 hseparated
  · intro h
    have honce : ∀ edges', edges'.Perm edges → ListsOnce nodes projects seeds edges' :=
      fun edges' hperm => listsOnce_iff.mpr fun hseparated => h ⟨_, hperm.filter _, hseparated⟩
    exact fun edges' hperm =>
      ⟨honce edges' hperm, sameBeyondTies_of_once hperm (honce edges (.refl _)) (honce edges' hperm)⟩

/-- Two pages with one label: the first belongs to two projects, and the second one is recorded in between. -/
def planNodes : SortedMap String Value :=
  ((∅ : SortedMap String Value).insert "page:a" (.object [("label", .string "Plan"), ("type", .string "Page")])).insert
    "page:b" (.object [("label", .string "Plan"), ("type", .string "Page")])

def planEdge (a p : String) : StoredEdge :=
  ⟨a, .belongsTo, p, none, "2026-01-01T00:00:00Z", none, false, "2026-01-01T00:00:00Z", none⟩

def planEdges : List StoredEdge :=
  [planEdge "page:a" "project:p", planEdge "page:b" "project:p", planEdge "page:a" "project:q"]

/-- The page that belongs to two projects is listed twice, before and behind the other one. -/
theorem plan_twice : ¬∀ (nodes : SortedMap String Value) (projects seeds : SortedSet String)
    (edges : List StoredEdge), ListsOnce nodes projects seeds edges := by
  intro h
  have honce := h planNodes (SortedSet.ofList ["project:p", "project:q"]) ∅ planEdges
  rw [listsOnce_iff] at honce
  have hrows : neighborEdges planNodes (SortedSet.ofList ["project:p", "project:q"]) ∅ planEdges = planEdges := by
    decide +kernel
  rw [hrows] at honce
  exact honce ⟨_, _, _, List.Sublist.refl planEdges, rfl, by decide, rfl⟩

end

end Innen.TaskEntry
