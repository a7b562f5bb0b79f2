import Innen.Graph.Materialize
import Innen.Journal.Model
import Mathlib.Data.Prod.Lex

/-!
# The derived index

`build` opens the journal, reads it back, replays it and writes three tables: every journal entry under
its event id, every merged node under its id, and the edge rows, grouped by kind and start node, under
one text per group that joins the two with a NUL. The tables are overwritten key by key and never
cleared; the full-text documents are replaced as a whole.
-/

namespace Innen.Index

open Innen.Common Innen.Journal Innen.Graph

/-- The tables of `index.redb` and the documents of `fts/`. -/
structure Tables where
  events : SortedMap String String
  nodes : SortedMap String String
  edges : SortedMap String String
  /-- The id and the indexed text of each document, by ascending id. -/
  fts : List (String × String)
deriving DecidableEq

namespace Tables

/-- No derived files yet. -/
def empty : Tables := ⟨∅, ∅, ∅, []⟩

end Tables

/-- The event replayed for a journal entry. -/
def eventOf (entry : JournalEntry) : Value :=
  .mkObject [("op", .string entry.op), ("payload", entry.payload.val),
    ("observed_utc", .string entry.observedUtc)]

/-- Replay of the entries, without any filter. -/
def materialized (entries : List JournalEntry) : Materialized := replay (entries.map eventOf)

/-! ## Edge groups -/

/-- An `f32` weight as a JSON number; an infinite one has no JSON number. -/
def weightValue (bits : UInt32) : Value :=
  if bits.toNat / 2 ^ 23 % 2 ^ 8 = 2 ^ 8 - 1 then .null
  else .number (.float (Float32.ofBits bits).toFloat.toBits)

/-- The stored form of an edge row. -/
def edgeRow (row : StoredEdge) : Value :=
  .mkObject [("from", .string row.from), ("type", .string row.edge.name), ("to", .string row.to),
    ("weight", .optional weightValue row.weight), ("valid_from", .string row.validFrom),
    ("valid_until", .optional .string row.validUntil), ("retracted", .bool row.retracted),
    ("observed_utc", .string row.observedUtc)]

/-- Kind and start node of a row. -/
def groupOf (row : StoredEdge) : String × String := (row.edge.name, row.from)

/-- The key of a group: kind and start node with a NUL in between. -/
def groupKey (group : String × String) : String := group.1 ++ "\x00" ++ group.2

/-- The rows of each group in assertion order, by ascending kind and start node. -/
def grouped (edges : List StoredEdge) : SortedMap (String ×ₗ String) (List Value) :=
  edges.foldl (fun groups row => groups.upsert (toLex (groupOf row)) [] (· ++ [edgeRow row])) ∅

/-! ## Writing -/

variable (P : Platform)

/-- The text of a document: label and body, whichever there are. -/
def documentText (node : Value) : String :=
  let label := ((node.get? "label").bind Value.asStr?).getD ""
  let body := ((node.get? "body").bind Value.asStr?).getD ""
  if body = "" then label else if label = "" then body else label ++ " " ++ body

/-- What is written to the events table, in journal order. -/
def eventPairs (entries : List JournalEntry) : List (String × String) :=
  entries.map fun entry => (entry.id, entryText P entry)

/-- What is written to the nodes table. -/
def nodePairs (m : Materialized) : List (String × String) :=
  m.nodes.entries.map fun e => (e.1, e.2.toText P.floatText)

/-- What is written to the edges table, group by group. -/
def edgePairs (m : Materialized) : List (String × String) :=
  (grouped m.edges).entries.map fun e =>
    (groupKey (ofLex e.1), (Value.array e.2).toText P.floatText)

/-- Overwrite the tables with what the entries say. -/
def write (tables : Tables) (entries : List JournalEntry) : Tables :=
  let m := materialized entries
  { events := tables.events.insertAll (eventPairs P entries)
    nodes := tables.nodes.insertAll (nodePairs P m)
    edges := tables.edges.insertAll (edgePairs P m)
    fts := m.nodes.entries.map fun e => (e.1, documentText e.2) }

/-- `index::build` on the journal file and the derived files. -/
def build (file : Option ByteArray) (tables : Tables) :
    Except JournalError (Option ByteArray × Tables) := do
  let opened ← openFile P file
  let entries ← readAll P opened.1
  .ok (opened.1, write P tables entries)

/-- `index::rebuild`: drop the derived files first. -/
def rebuild (file : Option ByteArray) : Except JournalError (Option ByteArray × Tables) :=
  build P file Tables.empty

/-- A batch of appends to the journal. -/
def appendAll (file : Option ByteArray) (batch : List (String × Json × String)) :
    Except JournalError (Option ByteArray) :=
  batch.foldlM (fun file b => do
    let appended ← append P (file.getD .empty) b.1 b.2.1 b.2.2
    .ok (some appended.1)) file

end Innen.Index
