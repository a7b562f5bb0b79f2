import Innen.Index.Model
import Innen.Graph.Replay
import Innen.Journal.Lines
import Innen.Journal.Table

/-!
# What the index holds

Built from scratch, the tables hold the last entry of each event id and the merged nodes, and nothing
else. They hold the edge rows, group by group, exactly when no two groups share a key text, which
happens when a kind or an id contains a NUL.

Built again after more appends, the tables agree with those built from scratch exactly when every key
the older entries gave is still given. That is so when the journal ended with a newline. Otherwise the
first append continues an unfinished line, both are moved to the quarantine, and the keys only that
line gave stay behind in the tables.
-/

namespace Innen.Index

open Innen.Common Innen.Journal Innen.Graph

/-! ## Lists of pairs -/

/-- Looking up a key among pairs made from the elements of a list. -/
theorem get?_map_pairs {α : Type*} (key val : α → String) (l : List α) (k : String) :
    Assoc.get? k (l.map fun a => (key a, val a)) = (l.find? fun a => key a = k).map val := by
  induction l with
  | nil => rfl
  | cons a rest ih =>
    rw [List.map_cons, Assoc.get?_cons, List.find?_cons, ih]
    by_cases h : k = key a
    · simp [h]
    · simp [h, Ne.symm h]

/-- Where a key has one value, lookup finds it. -/
theorem get?_of_mem_unique {l : List (String × String)} {k v : String} (hmem : (k, v) ∈ l)
    (hunique : ∀ v', (k, v') ∈ l → v' = v) : Assoc.get? k l = some v := by
  rcases hget : Assoc.get? k l with _ | v'
  · have hkey : k ∈ Assoc.keys l := List.mem_map_of_mem hmem
    rw [← Assoc.get?_isSome_iff, hget] at hkey
    exact absurd hkey (by simp)
  · rw [hunique v' (Assoc.get?_some_mem hget)]

/-- In an ascending list the order of lookup does not matter. -/
theorem get?_reverse {l : List (String × String)} (h : Assoc.Ascending l) (k : String) :
    Assoc.get? k l.reverse = Assoc.get? k l := by
  rcases hget : Assoc.get? k l with _ | v
  · rw [Assoc.get?_eq_none_iff] at hget ⊢
    exact fun hmem => hget (by simpa [Assoc.keys] using hmem)
  · refine get?_of_mem_unique (List.mem_reverse.mpr (Assoc.get?_some_mem hget)) fun v' hv' => ?_
    have := h.mem_iff.mp (List.mem_reverse.mp hv')
    exact Option.some.inj (this.symm.trans hget)

/-- Overwriting a table gives the table written from scratch exactly when every key of the old one is
overwritten. -/
theorem insertAll_eq_iff (l l' : List (String × String)) :
    ((∅ : SortedMap String String).insertAll l).insertAll l' = (∅ : SortedMap String String).insertAll l' ↔
      ∀ p ∈ l, p.1 ∈ Assoc.keys l' := by
  have hkey : ∀ k, (Assoc.get? k l'.reverse).isSome ↔ k ∈ Assoc.keys l' := by
    intro k
    rw [Assoc.get?_isSome_iff]
    simp [Assoc.keys]
  constructor
  · intro h p hp
    by_contra hno
    have hget := congrArg (fun m => SortedMap.get? m p.1) h
    simp only [SortedMap.get?_insertAll, SortedMap.get?_empty, Option.or_none] at hget
    have hnone : Assoc.get? p.1 l'.reverse = none := by
      rw [← Option.not_isSome_iff_eq_none, hkey]
      exact hno
    have hsome : (Assoc.get? p.1 l.reverse).isSome := by
      rw [Assoc.get?_isSome_iff]
      simp only [Assoc.keys, List.map_reverse, List.mem_reverse]
      exact List.mem_map_of_mem hp
    rw [hnone, Option.none_or] at hget
    rw [hget] at hsome
    simp at hsome
  · intro h
    refine SortedMap.ext_get? fun k => ?_
    simp only [SortedMap.get?_insertAll, SortedMap.get?_empty, Option.or_none]
    rcases hget : Assoc.get? k l'.reverse with _ | v
    · rw [Option.none_or, ← Option.not_isSome_iff_eq_none, Assoc.get?_isSome_iff]
      intro hmem
      simp only [Assoc.keys, List.map_reverse, List.mem_reverse, List.mem_map] at hmem
      obtain ⟨p, hp, rfl⟩ := hmem
      have := (hkey p.1).mpr (h p hp)
      rw [hget] at this
      simp at this
    · rfl

/-! ## The groups -/

/-- The rows of a group, in assertion order. -/
def groupRows (edges : List StoredEdge) (group : String × String) : List StoredEdge :=
  edges.filter fun row => groupOf row = group

theorem grouped_get? (edges : List StoredEdge) (group : String × String) :
    (grouped edges).get? (toLex group) =
      if groupRows edges group = [] then none else some ((groupRows edges group).map edgeRow) := by
  induction edges using List.reverseRecOn with
  | nil => rfl
  | append_singleton edges row ih =>
    have hfold : grouped (edges ++ [row]) =
        (grouped edges).upsert (toLex (groupOf row)) [] (· ++ [edgeRow row]) := by
      rw [grouped, List.foldl_append]
      rfl
    rw [hfold, SortedMap.get?_upsert, groupRows, List.filter_append]
    by_cases h : groupOf row = group
    · subst h
      rw [if_pos rfl, ih]
      split <;> simp_all [groupRows]
    · rw [if_neg fun heq => h (toLex.injective heq).symm, ih]
      simp [groupRows, h]

theorem mem_grouped_iff {edges : List StoredEdge} {group : String ×ₗ String} {rows : List Value} :
    (group, rows) ∈ (grouped edges).entries ↔
      groupRows edges (ofLex group) ≠ [] ∧ rows = (groupRows edges (ofLex group)).map edgeRow := by
  rw [SortedMap.mem_entries_iff, show group = toLex (ofLex group) from rfl, grouped_get?]
  by_cases hempty : groupRows edges (ofLex group) = []
  · rw [if_pos hempty]
    exact ⟨fun h => by simp at h, fun h => absurd hempty h.1⟩
  · rw [if_neg hempty, Option.some.injEq]
    exact ⟨fun h => ⟨hempty, h.symm⟩, fun h => h.2.symm⟩

variable (P : Platform)

/-- The stored text of a group. -/
def groupText (m : Materialized) (group : String × String) : String :=
  (Value.array ((groupRows m.edges group).map edgeRow)).toText P.floatText

variable {P}

theorem mem_edgePairs_iff {m : Materialized} {key raw : String} :
    (key, raw) ∈ edgePairs P m ↔
      ∃ group, groupRows m.edges group ≠ [] ∧ groupKey group = key ∧ groupText P m group = raw := by
  unfold edgePairs
  rw [List.mem_map]
  constructor
  · rintro ⟨⟨group, rows⟩, hmem, heq⟩
    obtain ⟨hne, rfl⟩ := mem_grouped_iff.mp hmem
    obtain ⟨hkey, hraw⟩ := Prod.mk.inj heq
    exact ⟨ofLex group, hne, hkey, hraw⟩
  · rintro ⟨group, hne, hkey, hraw⟩
    refine ⟨(toLex group, (groupRows m.edges group).map edgeRow), mem_grouped_iff.mpr ⟨hne, rfl⟩, ?_⟩
    exact Prod.ext hkey hraw

/-- The stored form of a row, with its fields in map order. -/
theorem edgeRow_eq (row : StoredEdge) : edgeRow row = .object [("from", .string row.from),
    ("observed_utc", .string row.observedUtc), ("retracted", .bool row.retracted),
    ("to", .string row.to), ("type", .string row.edge.name), ("valid_from", .string row.validFrom),
    ("valid_until", .optional .string row.validUntil), ("weight", .optional weightValue row.weight)] := by
  simp +decide only [edgeRow, Value.mkObject, Assoc.insertAll, Assoc.insert, List.foldl_cons,
    List.foldl_nil, if_true, if_false]

/-- The text of a group begins with the start node of its rows. -/
theorem groupText_eq {m : Materialized} {group : String × String} (h : groupRows m.edges group ≠ []) :
    ∃ rest, groupText P m group = "[\x7b\"from\":" ++ (quote group.2 ++ rest) := by
  obtain ⟨row, rows, hrows⟩ := List.exists_cons_of_ne_nil h
  have hfrom : row.from = group.2 := by
    have hmem : row ∈ groupRows m.edges group := hrows ▸ List.mem_cons_self
    have hgroup : groupOf row = group := by simpa using (List.mem_filter.mp hmem).2
    rw [← hgroup]
    rfl
  have hquote : quote "from" = "\"from\"" := by decide
  rw [groupText, hrows, List.map_cons, edgeRow_eq, Value.toText, Value.itemsText, Value.toText,
    Value.fieldsText, Value.toText, hquote, hfrom]
  have hhead : "[\x7b\"from\":" = "[" ++ ("\x7b" ++ ("\"from\"" ++ ":")) := by decide
  rw [hhead]
  simp only [String.append_assoc]
  exact ⟨_, rfl⟩

/-- No two groups share a key text. -/
def SeparateGroups (edges : List StoredEdge) : Prop :=
  ∀ row ∈ edges, ∀ row' ∈ edges,
    groupKey (groupOf row) = groupKey (groupOf row') → groupOf row = groupOf row'

theorem groupRows_groupOf {edges : List StoredEdge} {row : StoredEdge} (h : row ∈ edges) :
    groupRows edges (groupOf row) ≠ [] :=
  List.ne_nil_of_mem (List.mem_filter.mpr ⟨h, by simp⟩)

theorem exists_row {edges : List StoredEdge} {group : String × String} (h : groupRows edges group ≠ []) :
    ∃ row ∈ edges, groupOf row = group := by
  obtain ⟨row, hrow⟩ := List.exists_mem_of_ne_nil _ h
  obtain ⟨hmem, hgroup⟩ := List.mem_filter.mp hrow
  exact ⟨row, hmem, by simpa using hgroup⟩

/-- Two groups with one key text and one stored text are the same group. -/
theorem group_eq_of_text {m : Materialized} {group group' : String × String}
    (h : groupRows m.edges group ≠ []) (h' : groupRows m.edges group' ≠ [])
    (hkey : groupKey group = groupKey group') (htext : groupText P m group = groupText P m group') :
    group = group' := by
  obtain ⟨rest, hrest⟩ := groupText_eq h
  obtain ⟨rest', hrest'⟩ := groupText_eq h'
  rw [hrest, hrest', String.append_right_inj] at htext
  have hfrom : group.2 = group'.2 := (quote_append_inj htext).1
  unfold groupKey at hkey
  rw [hfrom, String.append_left_inj, String.append_left_inj] at hkey
  exact Prod.ext hkey hfrom

/-! ## Built from scratch -/

/-- The tables say what the entries say: the last entry of each id, the merged nodes, and under the key
of each group its rows in order, with nothing else in any table. -/
structure Exact (P : Platform) (tables : Tables) (entries : List JournalEntry) : Prop where
  events : ∀ id, tables.events.get? id =
    (entries.reverse.find? fun entry => entry.id = id).map (entryText P)
  nodes : ∀ id, tables.nodes.get? id =
    ((materialized entries).nodes.get? id).map (Value.toText P.floatText)
  edges : ∀ group, groupRows (materialized entries).edges group ≠ [] →
    tables.edges.get? (groupKey group) = some (groupText P (materialized entries) group)
  only : ∀ key raw, tables.edges.get? key = some raw →
    ∃ group, groupRows (materialized entries).edges group ≠ [] ∧ groupKey group = key

theorem write_events (entries : List JournalEntry) (id : String) :
    (write P Tables.empty entries).events.get? id =
      (entries.reverse.find? fun entry => entry.id = id).map (entryText P) := by
  simp only [write, Tables.empty, SortedMap.get?_insertAll, SortedMap.get?_empty, Option.or_none,
    eventPairs, ← List.map_reverse]
  exact get?_map_pairs _ _ _ id

theorem write_nodes (entries : List JournalEntry) (id : String) :
    (write P Tables.empty entries).nodes.get? id =
      ((materialized entries).nodes.get? id).map (Value.toText P.floatText) := by
  have hasc : Assoc.Ascending (nodePairs P (materialized entries)) :=
    (materialized entries).nodes.ascending.map fun _ node => node.toText P.floatText
  simp only [write, Tables.empty, SortedMap.get?_insertAll, SortedMap.get?_empty, Option.or_none]
  rw [get?_reverse hasc]
  exact Assoc.get?_map (Value.toText P.floatText) id _

/-- The tables built from scratch are exact if and only if no two groups share a key text. -/
theorem exact_write_iff (entries : List JournalEntry) :
    Exact P (write P Tables.empty entries) entries ↔
      SeparateGroups (materialized entries).edges := by
  have hget : ∀ key, (write P Tables.empty entries).edges.get? key =
      Assoc.get? key (edgePairs P (materialized entries)).reverse := by
    intro key
    simp only [write, Tables.empty, SortedMap.get?_insertAll, SortedMap.get?_empty, Option.or_none]
  constructor
  · intro hexact row hrow row' hrow' hkey
    have hne := groupRows_groupOf hrow
    have hne' := groupRows_groupOf hrow'
    have hsome := hexact.edges _ hne
    have hsome' := hexact.edges _ hne'
    rw [hkey, hsome'] at hsome
    exact group_eq_of_text hne hne' hkey (Option.some.inj hsome).symm
  · intro hseparate
    refine ⟨write_events entries, write_nodes entries, fun group hne => ?_, fun key raw hraw => ?_⟩
    · rw [hget]
      refine get?_of_mem_unique (List.mem_reverse.mpr (mem_edgePairs_iff.mpr ⟨group, hne, rfl, rfl⟩)) ?_
      intro raw hraw
      obtain ⟨group', hne', hkey, rfl⟩ := mem_edgePairs_iff.mp (List.mem_reverse.mp hraw)
      obtain ⟨row, hrow, rfl⟩ := exists_row hne
      obtain ⟨row', hrow', rfl⟩ := exists_row hne'
      rw [hseparate row' hrow' row hrow hkey]
    · rw [hget] at hraw
      obtain ⟨group, hne, hkey, -⟩ := mem_edgePairs_iff.mp
        (List.mem_reverse.mp (Assoc.get?_some_mem hraw))
      exact ⟨group, hne, hkey⟩

/-! ## Built again -/

/-- The node an entry merges into. -/
def nodeKey (entry : JournalEntry) : Option String := (upsertOf (eventOf entry)).map (·.1)

/-- The key text of the group of the row an entry asserts. -/
def rowKey (entry : JournalEntry) : Option String :=
  (assertOf (eventOf entry)).map fun row => groupKey (groupOf row)

/-- Every key an entry gives is also given by one of the others. -/
def Covered (entries : List JournalEntry) (entry : JournalEntry) : Prop :=
  (∃ other ∈ entries, other.id = entry.id) ∧
    (∀ id ∈ nodeKey entry, ∃ other ∈ entries, nodeKey other = some id) ∧
    ∀ key ∈ rowKey entry, ∃ other ∈ entries, rowKey other = some key

theorem covered_of_mem {entries : List JournalEntry} {entry : JournalEntry} (h : entry ∈ entries) :
    Covered entries entry :=
  ⟨⟨entry, h, rfl⟩, fun _ hid => ⟨entry, h, hid⟩, fun _ hkey => ⟨entry, h, hkey⟩⟩

theorem mem_keys_eventPairs {entries : List JournalEntry} {id : String} :
    id ∈ Assoc.keys (eventPairs P entries) ↔ ∃ entry ∈ entries, entry.id = id := by
  simp [Assoc.keys, eventPairs]

theorem mem_keys_nodePairs {entries : List JournalEntry} {id : String} :
    id ∈ Assoc.keys (nodePairs P (materialized entries)) ↔ ∃ entry ∈ entries, nodeKey entry = some id := by
  have hkeys : Assoc.keys (nodePairs P (materialized entries)) = (materialized entries).nodes.keys := by
    simp [Assoc.keys, nodePairs, SortedMap.keys]
  rw [hkeys, SortedMap.mem_keys_iff, materialized, replay_node]
  have hupserts : upsertsOf id (entries.map eventOf) ≠ [] ↔
      ∃ entry ∈ entries, nodeKey entry = some id := by
    unfold upsertsOf nodeKey
    rw [ne_eq, List.filterMap_eq_nil_iff]
    simp only [List.mem_map, forall_exists_index, and_imp, forall_apply_eq_imp_iff₂]
    push Not
    refine exists_congr fun entry => and_congr_right fun _ => ?_
    rcases upsertOf (eventOf entry) with _ | u
    · simp
    · simp
  split
  · rename_i hnil
    simp only [Option.isSome_none, Bool.false_eq_true, false_iff]
    exact fun h => hupserts.mpr h hnil
  · rename_i hne
    simp only [Option.isSome_some, true_iff]
    exact hupserts.mp hne

/-- Retraction does not move a row to another group. -/
theorem map_groupKey_edges (entries : List JournalEntry) :
    (materialized entries).edges.map (fun row => groupKey (groupOf row)) = entries.filterMap rowKey := by
  have hrows := congrArg (List.map fun row => groupKey (groupOf row))
    (rowsOf_asserted (entries.map eventOf))
  rw [List.map_map, List.filterMap_map, List.map_filterMap] at hrows
  rw [materialized, replay_edges]
  exact hrows

theorem mem_keys_edgePairs {entries : List JournalEntry} {key : String} :
    key ∈ Assoc.keys (edgePairs P (materialized entries)) ↔
      ∃ entry ∈ entries, rowKey entry = some key := by
  have hrow : (∃ row ∈ (materialized entries).edges, groupKey (groupOf row) = key) ↔
      ∃ entry ∈ entries, rowKey entry = some key := by
    rw [← List.mem_map, map_groupKey_edges, List.mem_filterMap]
  rw [← hrow]
  constructor
  · intro h
    obtain ⟨⟨k, raw⟩, hmem, rfl⟩ := List.mem_map.mp h
    obtain ⟨group, hne, hkey, -⟩ := mem_edgePairs_iff.mp hmem
    obtain ⟨row, hrow, rfl⟩ := exists_row hne
    exact ⟨row, hrow, hkey⟩
  · rintro ⟨row, hrow, hkey⟩
    exact List.mem_map.mpr ⟨(key, _), mem_edgePairs_iff.mpr
      ⟨groupOf row, groupRows_groupOf hrow, hkey, rfl⟩, rfl⟩

/-- Overwriting the tables of older entries gives the tables built from scratch exactly when every key
the older entries gave is given again. -/
theorem write_write_iff (older newer : List JournalEntry) :
    write P (write P Tables.empty older) newer = write P Tables.empty newer ↔
      ∀ entry ∈ older, Covered newer entry := by
  have hsplit : write P (write P Tables.empty older) newer = write P Tables.empty newer ↔
      (∀ p ∈ eventPairs P older, p.1 ∈ Assoc.keys (eventPairs P newer)) ∧
        (∀ p ∈ nodePairs P (materialized older), p.1 ∈ Assoc.keys (nodePairs P (materialized newer))) ∧
        ∀ p ∈ edgePairs P (materialized older), p.1 ∈ Assoc.keys (edgePairs P (materialized newer)) := by
    rw [← insertAll_eq_iff, ← insertAll_eq_iff, ← insertAll_eq_iff]
    simp only [write, Tables.empty, Tables.mk.injEq, and_true]
  have hforall : ∀ {l : List (String × String)} {keys : List String},
      (∀ p ∈ l, p.1 ∈ keys) ↔ ∀ k ∈ Assoc.keys l, k ∈ keys := by
    intro l keys
    simp [Assoc.keys]
  rw [hsplit, hforall, hforall, hforall]
  simp only [mem_keys_eventPairs, mem_keys_nodePairs, mem_keys_edgePairs]
  constructor
  · rintro ⟨hids, hnodes, hrows⟩ entry hentry
    exact ⟨hids _ ⟨entry, hentry, rfl⟩, fun id hid => hnodes id ⟨entry, hentry, hid⟩,
      fun key hkey => hrows key ⟨entry, hentry, hkey⟩⟩
  · intro h
    refine ⟨?_, ?_, ?_⟩
    · rintro _ ⟨entry, hentry, rfl⟩
      exact (h entry hentry).1
    · rintro id ⟨entry, hentry, hid⟩
      exact (h entry hentry).2.1 id hid
    · rintro key ⟨entry, hentry, hkey⟩
      exact (h entry hentry).2.2 key hkey

/-! ## Appends between two builds -/

/-- The entries of a batch of appends. -/
def batchEntries (P : Platform) (batch : List (String × Json × String)) : List JournalEntry :=
  batch.map fun b => newEntry P b.1 b.2.1 b.2.2

theorem appendAll_spec {file file' : Option ByteArray} {batch : List (String × Json × String)}
    {content : String} (hcontent : contentOf file = .ok content)
    (h : appendAll P file batch = .ok file') :
    contentOf file' = .ok (content ++ joinLines ((batchEntries P batch).map (entryText P))) := by
  induction batch generalizing file content with
  | nil =>
    obtain rfl := Except.ok.inj h
    rw [hcontent, batchEntries, List.map_nil, List.map_nil, joinLines, List.foldl_nil,
      String.append_empty]
  | cons b rest ih =>
    have hread : readToString (file.getD .empty) = .ok content := by
      rcases file with _ | bytes
      · obtain rfl := Except.ok.inj hcontent
        exact readToString_textBytes ""
      · exact hcontent
    simp only [appendAll, List.foldlM_cons, append, bind, Except.bind] at h
    rcases hvalid : validate b.1 b.2.1.val with e | _ <;> simp only [hvalid, reduceCtorEq] at h
    have hone : contentOf (some (file.getD .empty ++
        textBytes (entryText P (newEntry P b.1 b.2.1 b.2.2) ++ "\n"))) = _ :=
      readToString_append hread _
    rw [ih hone h]
    simp only [batchEntries, List.map_cons, joinLines_cons, String.append_assoc]

/-- The next build sees the keys again: the journal ends with a newline, or nothing is appended, or the
keys of its unfinished last line, which the first append continues, are also given by other lines. -/
def Continues (P : Platform) (file : Option ByteArray) (batch : List (String × Json × String)) : Prop :=
  ∀ content, contentOf file = .ok content →
    unfinished content = "" ∨ batch = [] ∨
      ∀ entry ∈ P.parseEntry (unfinished content),
        Covered (entriesOf P (finished content) ++ keptAppends P (batchEntries P batch).tail) entry

theorem build_of_open {file opened : Option ByteArray} {bad : List String}
    {entries : List JournalEntry} (hopen : openFile P file = .ok (opened, bad))
    (hread : readAll P opened = .ok entries) (tables : Tables) :
    build P file tables = .ok (opened, write P tables entries) := by
  simp only [build, hopen, hread, bind, Except.bind]

theorem build_eq_ok {file opened : Option ByteArray} {tables tables' : Tables}
    (h : build P file tables = .ok (opened, tables')) :
    ∃ bad entries, openFile P file = .ok (opened, bad) ∧ readAll P opened = .ok entries ∧
      tables' = write P tables entries := by
  simp only [build, bind, Except.bind] at h
  rcases hopen : openFile P file with e | ⟨opened', bad⟩ <;> simp only [hopen, reduceCtorEq] at h
  rcases hread : readAll P opened' with e | entries <;> simp only [hread, reduceCtorEq] at h
  obtain ⟨rfl, rfl⟩ := Prod.mk.inj (Except.ok.inj h)
  exact ⟨bad, entries, rfl, hread, rfl⟩

/-- The keys of the entries read before are given again if and only if the journal `Continues`. -/
theorem covered_iff_continues (hP : P.Lawful) {file : Option ByteArray} {content : String}
    (hcontent : contentOf file = .ok content) (hbad : badLines P content = [])
    (batch : List (String × Json × String)) :
    (∀ entry ∈ entriesOf P content, Covered
      (keptEntries P (content ++ joinLines ((batchEntries P batch).map (entryText P)))) entry) ↔
      Continues P file batch := by
  have hcontinues : Continues P file batch ↔ unfinished content = "" ∨ batch = [] ∨
      ∀ entry ∈ P.parseEntry (unfinished content),
        Covered (entriesOf P (finished content) ++ keptAppends P (batchEntries P batch).tail) entry := by
    constructor
    · exact fun h => h content hcontent
    · intro h content' hcontent'
      obtain rfl := Except.ok.inj (hcontent.symm.trans hcontent')
      exact h
  rw [hcontinues]
  by_cases hdone : unfinished content = ""
  · -- whole lines are added behind whole lines
    rw [keptEntries_append hP hbad hdone]
    exact iff_of_true (fun entry hentry => covered_of_mem (List.mem_append_left _ hentry)) (.inl hdone)
  rcases batch with _ | ⟨b, rest⟩
  · have hsame : keptEntries P (content ++ joinLines ((batchEntries P []).map (entryText P))) =
        entriesOf P content := by
      rw [batchEntries, List.map_nil, List.map_nil, joinLines, List.foldl_nil, String.append_empty,
        keptEntries_of_badLines_nil hbad]
    rw [hsame]
    exact iff_of_true (fun entry hentry => covered_of_mem hentry) (.inr (.inl rfl))
  · -- the unfinished line and the first new one are lost
    have hblank := blank_of_keepLine hP (keepLine_unfinished hbad hdone)
    rw [show batchEntries P (b :: rest) = newEntry P b.1 b.2.1 b.2.2 :: batchEntries P rest from rfl,
      keptEntries_append_unfinished hP hbad hdone, entriesOf_unfinished hblank]
    simp only [hdone, false_or, reduceCtorEq, List.tail_cons]
    constructor
    · intro h entry hentry
      exact h entry (List.mem_append_right _ (by simpa using hentry))
    · intro h entry hentry
      rcases List.mem_append.mp hentry with hin | hin
      · exact covered_of_mem (List.mem_append_left _ hin)
      · exact h entry (by simpa using hin)

/-- What is built after the appends, on the old tables or on none, says the same exactly when the
journal `Continues`. -/
theorem build_again_iff (hP : P.Lawful) {file opened appended opened' opened'' : Option ByteArray}
    {tables tables' tables'' : Tables} {batch : List (String × Json × String)}
    (hbuild : rebuild P file = .ok (opened, tables)) (happend : appendAll P opened batch = .ok appended)
    (hagain : build P appended tables = .ok (opened', tables'))
    (hscratch : rebuild P appended = .ok (opened'', tables'')) :
    opened' = opened'' ∧ (tables' = tables'' ↔ Continues P opened batch) := by
  obtain ⟨bad, older, hopen, hread, rfl⟩ := build_eq_ok hbuild
  obtain ⟨bad', newer, hopen', hread', rfl⟩ := build_eq_ok hagain
  obtain ⟨bad'', newer', hopen'', hread'', rfl⟩ := build_eq_ok hscratch
  obtain ⟨rfl, -⟩ := Prod.mk.inj (Except.ok.inj (hopen'.symm.trans hopen''))
  obtain rfl := Except.ok.inj (hread'.symm.trans hread'')
  refine ⟨rfl, ?_⟩
  obtain ⟨-, content, -, hcontent, hbad, -⟩ := openFile_spec hP hopen
  have happended := appendAll_spec hcontent happend
  obtain ⟨old, new, hold, hnew, -, hkept⟩ := openFile_spec hP hopen'
  obtain rfl := Except.ok.inj (happended.symm.trans hold)
  rw [readAll_eq, hcontent] at hread
  rw [readAll_eq, hnew] at hread'
  obtain rfl := Except.ok.inj hread
  obtain rfl := Except.ok.inj hread'
  rw [write_write_iff, hkept]
  exact covered_iff_continues hP hcontent hbad batch

/-- The index refines the journal exactly when no two groups of edge rows share a key text, and keeps
doing so after further appends exactly when the journal `Continues`. -/
theorem index_refines (hP : P.Lawful) :
    (∀ file opened tables, rebuild P file = .ok (opened, tables) →
      ∃ entries, readAll P opened = .ok entries ∧
        (Exact P tables entries ↔ SeparateGroups (materialized entries).edges)) ∧
    (∀ file opened tables batch appended opened' tables' opened'' tables'',
      rebuild P file = .ok (opened, tables) → appendAll P opened batch = .ok appended →
      build P appended tables = .ok (opened', tables') → rebuild P appended = .ok (opened'', tables'') →
      opened' = opened'' ∧ (tables' = tables'' ↔ Continues P opened batch)) := by
  refine ⟨fun file opened tables hbuild => ?_, ?_⟩
  · obtain ⟨-, entries, -, hread, rfl⟩ := build_eq_ok hbuild
    exact ⟨entries, hread, exact_write_iff entries⟩
  · intro file opened tables batch appended opened' tables' opened'' tables'' hbuild happend hagain hscratch
    exact build_again_iff hP hbuild happend hagain hscratch

/-- One entry appended to a journal that does not exist yet, with a build before and after. -/
theorem index_refines_theme :
    ∃ tables tables' tables'',
      rebuild themePlatform none = .ok (none, tables) ∧
      appendAll themePlatform none [("config.set", themePayload, "2026-01-01T00:00:00Z")] =
        .ok (some (entryFile [themeEntry])) ∧
      build themePlatform (some (entryFile [themeEntry])) tables =
        .ok (some (entryFile [themeEntry]), tables') ∧
      rebuild themePlatform (some (entryFile [themeEntry])) =
        .ok (some (entryFile [themeEntry]), tables'') ∧
      (Exact themePlatform tables'' [themeEntry] ↔
        SeparateGroups (materialized [themeEntry]).edges) ∧
      (tables' = tables'' ↔
        Continues themePlatform none [("config.set", themePayload, "2026-01-01T00:00:00Z")]) := by
  have hids : ([themeEntry].map (·.id)).Nodup := List.nodup_singleton _
  have hlawful : themePlatform.Lawful := entryPlatform_lawful hids
  have hfile : openFile themePlatform (some (entryFile [themeEntry])) =
        .ok (some (entryFile [themeEntry]), []) ∧
      readAll themePlatform (some (entryFile [themeEntry])) = .ok [themeEntry] := open_entryFile hids
  have happend : appendAll themePlatform none
      [("config.set", themePayload, "2026-01-01T00:00:00Z")] = .ok (some (entryFile [themeEntry])) := by
    have hbytes : entryFile [themeEntry] =
        ByteArray.empty ++ textBytes (entryText themePlatform themeEntry ++ "\n") := by
      rw [ByteArray.empty_append, entryFile, List.map_singleton, joinLines_cons]
      exact congrArg textBytes String.append_empty
    rw [hbytes]
    rfl
  generalize entryFile [themeEntry] = file at hfile happend ⊢
  generalize themePlatform = P at hlawful hfile happend ⊢
  obtain ⟨hopen, hread⟩ := hfile
  have hbuild := build_of_open hopen hread
  have hempty : rebuild P none = .ok (none, write P Tables.empty []) := rfl
  obtain ⟨hexact, hagain⟩ := index_refines hlawful
  obtain ⟨entries, hentries, hiff⟩ := hexact _ _ _ (hbuild Tables.empty)
  obtain rfl := Except.ok.inj (hread.symm.trans hentries)
  obtain ⟨-, hcontinues⟩ := hagain _ _ _ _ _ _ _ _ _ hempty happend (hbuild _) (hbuild Tables.empty)
  exact ⟨_, _, _, hempty, happend, hbuild _, hbuild Tables.empty, hiff, hcontinues⟩

/-! ## Two groups under one key -/

/-- An edge from `«from»` to `X` of some kind, as a journal entry. -/
def edgeEntry (id kind «from» : String) : JournalEntry where
  id := id
  observedUtc := ""
  op := "edge.assert"
  payload := ⟨.mkObject [("from", .string «from»), ("to", .string "X"), ("type", .string kind)],
    Value.wf_mkObject (by simp)⟩

/-- Kind `A` from `B\0C` and kind `A\0B` from `C`. -/
def nulEntries : List JournalEntry := [edgeEntry "1" "A" "B\x00C", edgeEntry "2" "A\x00B" "C"]

private theorem nodup_nulEntries : (nulEntries.map (·.id)).Nodup := by decide

/-- A platform that knows the two lines. -/
def nulPlatform : Platform := entryPlatform (fun _ => "") nulEntries

/-- Both rows are materialised, but the second group overwrites the first one. -/
theorem nulFile_not_exact :
    ∃ tables, rebuild nulPlatform (some (entryFile nulEntries)) = .ok (some (entryFile nulEntries), tables) ∧
      readAll nulPlatform (some (entryFile nulEntries)) = .ok nulEntries ∧
      (materialized nulEntries).edges.map groupOf = [("A", "B\x00C"), ("A\x00B", "C")] ∧
      ¬ Exact nulPlatform tables nulEntries := by
  have hgroups : (materialized nulEntries).edges.map groupOf = [("A", "B\x00C"), ("A\x00B", "C")] := by
    decide +kernel
  have hfile : openFile nulPlatform (some (entryFile nulEntries)) =
        .ok (some (entryFile nulEntries), []) ∧
      readAll nulPlatform (some (entryFile nulEntries)) = .ok nulEntries := open_entryFile nodup_nulEntries
  generalize entryFile nulEntries = file at hfile ⊢
  generalize nulPlatform = P at hfile ⊢
  obtain ⟨hopen, hread⟩ := hfile
  refine ⟨write P Tables.empty nulEntries, ?_, hread, hgroups, fun hexact => ?_⟩
  · exact build_of_open hopen hread Tables.empty
  · have hne : ∀ group ∈ [("A", "B\x00C"), ("A\x00B", "C")],
        groupRows (materialized nulEntries).edges group ≠ [] := by
      intro group hgroup
      rw [← hgroups] at hgroup
      obtain ⟨row, hrow, rfl⟩ := List.mem_map.mp hgroup
      exact groupRows_groupOf hrow
    have hone := hexact.edges _ (hne ("A", "B\x00C") (by simp))
    have htwo := hexact.edges _ (hne ("A\x00B", "C") (by simp))
    have hkey : groupKey ("A", "B\x00C") = groupKey ("A\x00B", "C") := by decide
    rw [hkey, htwo] at hone
    exact absurd (group_eq_of_text (hne _ (by simp)) (hne _ (by simp)) hkey
      (Option.some.inj hone).symm) (by decide)

end Innen.Index
