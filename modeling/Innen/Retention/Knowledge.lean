import Innen.Graph.Materialize
import Innen.Retention.Model

/-!
# The journal of retention

What retention proves and does is recorded in the journal of the knowledge base, as nodes and edges. The journal is
only appended to.
-/

namespace Innen.Retention

open Innen.Common Innen.Conversation

/-- A line of the journal. -/
structure Entry where
  op : String
  payload : Value
  observedUtc : String
deriving DecidableEq

/-- An entry as an event of the graph. -/
def Entry.event (e : Entry) : Value :=
  .mkObject [("op", .string e.op), ("payload", e.payload), ("observed_utc", .string e.observedUtc)]

/-- `load_graph`. -/
def loadGraph (now : String) (journal : List Entry) : Graph.Materialized :=
  Graph.materialize (journal.map Entry.event) none now false

/-- A text in the payload of an entry. -/
def Entry.text (e : Entry) (key : String) : Option String := (e.payload.get? key).bind Value.asStr?

/-- An entry that records a node of a type. -/
def Entry.isNode (e : Entry) (type : String) : Prop := e.op = "node.upsert" ∧ e.text "type" = some type

instance (e : Entry) (type : String) : Decidable (e.isNode type) := inferInstanceAs (Decidable (_ ∧ _))

/-- A node as it is recorded. -/
def nodeEntry (now : String) (fields : Fields) : Entry := ⟨"node.upsert", .mkObject fields, now⟩

/-- The schema of the nodes of retention. -/
def schema : String := "innen.session-retention.v1"

/-- The name of a session across all tools. -/
def Candidate.key (c : Candidate) : String := c.source.asStr ++ ":" ++ c.id.1

/-- The id of the node of a session. -/
def conversationId (c : Candidate) : String := "conversation:" ++ c.key

/-! ## Attempts and their ends -/

/-- The id of an attempt; the nonce is the clock in nanoseconds. -/
def attemptId (c : Candidate) (nonce : ℕ) : String := "session-purge-attempt:" ++ c.key ++ ":" ++ toString nonce

/-- The node of `record_purge_attempt`. -/
def attemptEntry (c : Candidate) (retentionDays nonce : ℕ) (now : String) : Entry :=
  nodeEntry now [("id", .string (attemptId c nonce)), ("type", .string "SessionPurgeAttempt"),
    ("label", .string ("purge attempt " ++ c.key)), ("provenance", .string "innen retention purge --execute"),
    ("schema", .string schema), ("session_id", .string c.id.1), ("source", .string c.source.asStr),
    ("retention_days", .nat retentionDays), ("status", .string "started"), ("observed_utc", .string now)]

/-- The node of `record_purge_failure`. -/
def failureEntry (c : Candidate) (attempt reason now : String) : Entry :=
  nodeEntry now [("id", .string (attempt ++ ":failure")), ("type", .string "SessionPurgeFailure"),
    ("label", .string ("purge failed " ++ c.key)), ("provenance", .string "innen retention purge --execute"),
    ("schema", .string schema), ("attempt_id", .string attempt), ("session_id", .string c.id.1),
    ("source", .string c.source.asStr), ("status", .string "failed"), ("reason", .string reason),
    ("observed_utc", .string now)]

/-- The node that says what was deleted. -/
def receiptEntry (c : Candidate) (attempt sha256 : String) (deleted : List Path) (now : String) : Entry :=
  nodeEntry now [("id", .string ("session-purge:" ++ c.key ++ ":" ++ takeChars 16 sha256)),
    ("type", .string "SessionPurgeReceipt"), ("label", .string ("purged " ++ c.key)),
    ("provenance", .string "innen retention purge --execute"), ("schema", .string schema),
    ("session_id", .string c.id.1), ("source", .string c.source.asStr), ("source_sha256", .string sha256),
    ("attempt_id", .string attempt), ("deleted_targets", .strings (deleted.map displayPath)),
    ("observed_utc", .string now)]

/-- The type of a node that is recorded. -/
theorem nodeEntry_isNode_iff {now type type' : String} {fields : Fields}
    (h : Assoc.get? "type" fields.reverse = some (.string type')) : (nodeEntry now fields).isNode type ↔ type' = type := by
  rw [Entry.isNode, Entry.text, nodeEntry, Value.get?_mkObject, h]
  simp [Value.asStr?]

end Innen.Retention
