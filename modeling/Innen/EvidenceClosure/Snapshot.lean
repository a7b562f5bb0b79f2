import Innen.EvidenceClosure.Contract
import Innen.Graph.Replay

/-!
# Snapshots

A snapshot replays the journal up to a cutoff for one contract evaluation. Nothing is skipped or
repaired: a line that is no entry, a time that is not canonical, a malformed edge or an unknown
operation is an error. Events later than the cutoff are left out. Besides the graph it keeps, for every
node and for every asserted edge, the journal lines that say so.
-/

namespace Innen.EvidenceClosure

open Innen.Common Innen.Journal Innen.Graph

/-! ## Citations and receipts -/

/-- A reference to a journal line. -/
structure Citation where
  line : ℕ
  event : String
  «at» : String
deriving DecidableEq

/-- The JSON of a citation. -/
def Citation.json (citation : Citation) : Value :=
  Value.mkObject [("line", .nat citation.line), ("event", .string citation.event),
    ("at", .string citation.at)]

/-- `edge_receipt`. -/
def edgeReceipt (e : StoredEdge) : Value :=
  Value.mkObject [("from", .string e.from), ("to", .string e.to), ("type", .string e.edge.name),
    ("observed_utc", .string e.observedUtc), ("valid_from", .string e.validFrom),
    ("valid_until", .optional .string e.validUntil), ("provenance", .optional .string e.provenance)]

/-- The text of a receipt, under which its citations are filed. -/
def receiptText (P : Platform) (e : StoredEdge) : String := (edgeReceipt e).toText P.floatText

/-- Why a journal cannot be replayed. -/
inductive SnapshotError where
  | notUtf8
  | invalidRecord (line : ℕ)
  | noncanonicalTime (line : ℕ)
  | malformedEdge
  | invalidValidity
  | unsupportedOperation (line : ℕ)
  | nodeIdentityMissing
deriving DecidableEq

/-- The text of an error. -/
def SnapshotError.text : SnapshotError → String
  | .notUtf8 => "journal is not UTF-8"
  | .invalidRecord line => "invalid journal record at line " ++ toString line
  | .noncanonicalTime line => "noncanonical journal time at line " ++ toString line
  | .malformedEdge => "malformed graph edge"
  | .invalidValidity => "invalid edge validity timestamp"
  | .unsupportedOperation line => "unsupported journal operation at line " ++ toString line
  | .nodeIdentityMissing => "node identity missing"

/-! ## Reading the lines -/

/-- The kinds whose upper-case name replaces the one in the journal. -/
def walkedKinds : List String := ["DEPENDS_ON", "CONTRADICTS"]

/-- The payload of an edge event with a walked kind in upper case. -/
def normalizeKind (payload : Value) : Value :=
  match (payload.index "type").asStr? with
  | some typ => if asciiUpper typ ∈ walkedKinds then payload.set "type" (.string (asciiUpper typ)) else payload
  | none => payload

/-- A validity field that is neither absent, `null` nor a timestamp. -/
def invalidTime (payload : Value) (key : String) : Bool :=
  match payload.get? key with
  | none | some .null => false
  | some v => !v.asStr?.any timestamp

/-- The checks on the payload of an edge event, and its kind in upper case. -/
def edgePayload (payload : Value) : Except SnapshotError Value := do
  failIf (["from", "to", "type"].any fun k => ((payload.index k).asStr?).isNone) .malformedEdge
  failIf (["valid_from", "valid_until", "observed_utc"].any (invalidTime (normalizeKind payload)))
    .invalidValidity
  .ok (normalizeKind payload)

/-- The operations a journal may hold. -/
def supportedOps : List String := ["node.upsert", "edge.assert", "edge.retract", "config.set"]

/-- The event as it is replayed. -/
def eventValue (op : String) (payload : Value) (observedUtc : String) : Value :=
  Value.mkObject [("op", .string op), ("payload", payload), ("observed_utc", .string observedUtc)]

/-- What was read so far. -/
structure Reading where
  values : List Value
  citations : SortedMap String (List Citation)
  edgeCitations : SortedMap String (List Citation)

variable (P : Platform) (cutoff : String)

/-- File a citation under a key. -/
def cite (m : SortedMap String (List Citation)) (key : String) (citation : Citation) :
    SortedMap String (List Citation) :=
  m.upsert key [] (· ++ [citation])

/-- File the citation of an event under the receipt of the edge it asserts when replayed alone. -/
def citeEdge (m : SortedMap String (List Citation)) (event : Value) (citation : Citation) :
    SortedMap String (List Citation) :=
  match (materialize [event] (some cutoff) "" true).edges.head? with
  | some edge => cite m (receiptText P edge) citation
  | none => m

/-- The payload of an entry, checked and normalized when it is that of an edge. -/
def readPayload (e : JournalEntry) : Except SnapshotError Value :=
  if e.op = "edge.assert" ∨ e.op = "edge.retract" then edgePayload e.payload.val else .ok e.payload.val

/-- File the citation of a node event under its id. -/
def citeNode (m : SortedMap String (List Citation)) (op : String) (payload : Value) (citation : Citation) :
    Except SnapshotError (SortedMap String (List Citation)) :=
  if op = "node.upsert" then
    match (payload.index "id").asStr? with
    | some id => .ok (cite m id citation)
    | none => .error .nodeIdentityMissing
  else .ok m

/-- Take in an entry that is not later than the cutoff. -/
def readVisible (r : Reading) (n : ℕ) (e : JournalEntry) : Except SnapshotError Reading := do
  let payload ← readPayload e
  failIf (e.op ∉ supportedOps) (.unsupportedOperation n)
  let citations ← citeNode r.citations e.op payload ⟨n, e.id, e.observedUtc⟩
  let event := eventValue e.op payload e.observedUtc
  let edgeCitations :=
    if e.op = "edge.assert" then citeEdge P cutoff r.edgeCitations event ⟨n, e.id, e.observedUtc⟩
    else r.edgeCitations
  .ok ⟨r.values ++ [event], citations, edgeCitations⟩

/-- Take in the entry on line `n`. -/
def readEntry (r : Reading) (n : ℕ) (e : JournalEntry) : Except SnapshotError Reading :=
  if !timestamp e.observedUtc then .error (.noncanonicalTime n)
  else if cutoff < e.observedUtc then .ok r
  else readVisible P cutoff r n e

/-- Take in one line of the file; lines are numbered from one. -/
def readLine (r : Reading) (l : String × ℕ) : Except SnapshotError Reading :=
  if blank l.1 then .ok r
  else
    match P.parseEntry l.1 with
    | none => .error (.invalidRecord (l.2 + 1))
    | some e => readEntry P cutoff r (l.2 + 1) e

/-! ## The snapshot -/

/-- What a contract is evaluated against. -/
structure Snapshot where
  graph : Materialized
  hash : String
  citations : SortedMap String (List Citation)
  edgeCitations : SortedMap String (List Citation)
  /-- The rows that start at a node, and the contradictions that end there, in journal order. -/
  adjacency : SortedMap String (List StoredEdge)

/-- File a row under a node. -/
def fileRow (m : SortedMap String (List StoredEdge)) (id : String) (e : StoredEdge) :
    SortedMap String (List StoredEdge) :=
  m.upsert id [] (· ++ [e])

/-- File a row that is walked under its end points. -/
def addAdjacent (m : SortedMap String (List StoredEdge)) (e : StoredEdge) :
    SortedMap String (List StoredEdge) :=
  if e.retracted then m
  else if e.edge.name = "DEPENDS_ON" then fileRow m e.from e
  else if e.edge.name = "CONTRADICTS" then
    if e.from ≠ e.to then fileRow (fileRow m e.from e) e.to e else fileRow m e.from e
  else m

/-- The snapshot of what was read. -/
def Reading.snapshot (r : Reading) (hash : String) : Snapshot :=
  let graph := materialize r.values (some cutoff) "" false
  ⟨graph, hash, r.citations, r.edgeCitations, graph.edges.foldl addAdjacent ∅⟩

/-- `snapshot`. -/
def snapshot (raw : ByteArray) : Except SnapshotError Snapshot :=
  match String.fromUTF8? raw with
  | none => .error .notUtf8
  | some text => do
    let r ← (lines text).zipIdx.foldlM (readLine P cutoff) ⟨[], ∅, ∅⟩
    .ok (r.snapshot cutoff (P.sha256Hex raw))

end Innen.EvidenceClosure
