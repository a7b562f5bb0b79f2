import Innen.Json.Text

/-!
# The journal file

One JSON object per line, `{"id","observed_utc","op","payload"}`, appended with a newline behind it.
Opening the journal moves lines that are no objects with a string `id` and `op` to the quarantine and
rewrites the file without them; reading it back skips lines that are no entries.

Parsing JSON text, printing an `f64` and hashing are left to a `Platform`. What the results rely on is
collected in `Platform.Lawful`.
-/

namespace Innen.Journal

open Innen.Common

/-! ## Entries and the platform -/

/-- One validated journal line. -/
structure JournalEntry where
  id : String
  observedUtc : String
  op : String
  payload : Json
deriving DecidableEq

/-- The entry as a struct in declaration order, which is also the stored line order. -/
def JournalEntry.fields (entry : JournalEntry) : Fields :=
  [("id", .string entry.id), ("observed_utc", .string entry.observedUtc), ("op", .string entry.op),
    ("payload", entry.payload.val)]

/-- The library functions the journal calls. -/
structure Platform where
  /-- The shortest decimal text of a finite `f64`. -/
  floatText : UInt64 → String
  /-- `serde_json::from_str::<Value>`. -/
  parseValue : String → Option Json
  /-- `serde_json::from_str::<JournalEntry>`, which accepts other lines than objects with all fields. -/
  parseEntry : String → Option JournalEntry
  /-- `sha256_hex`. -/
  sha256Hex : ByteArray → String

/-- White space between the tokens of JSON text. -/
def isJsonSpace (c : Char) : Bool := c = ' ' ∨ c = '\t' ∨ c = '\n' ∨ c = '\r'

/-- Text of JSON white space only. -/
def JsonSpace (s : String) : Prop := ∀ c ∈ s.toList, isJsonSpace c = true

instance (s : String) : Decidable (JsonSpace s) :=
  List.decidableBAll (fun c => isJsonSpace c = true) s.toList

/-- What is used of the library functions. -/
structure Platform.Lawful (P : Platform) : Prop where
  /-- Numbers are printed on one line. -/
  float_oneLine : ∀ bits, OneLine (P.floatText bits)
  /-- White space alone is no JSON value. -/
  value_blank : ∀ l, blank l = true → P.parseValue l = none
  /-- JSON white space around the text does not matter. -/
  value_padded : ∀ u l w, JsonSpace u → JsonSpace w → P.parseValue (u ++ l ++ w) = P.parseValue l
  /-- Nor does it matter to an entry. -/
  entry_padded : ∀ u l w, JsonSpace u → JsonSpace w → P.parseEntry (u ++ l ++ w) = P.parseEntry l
  /-- Behind a complete value no other one may follow. -/
  value_trailing : ∀ l w, (P.parseValue l).isSome → P.parseValue (l ++ "\x7b" ++ w) = none

/-- Why a journal operation fails. -/
inductive JournalError where
  | unknownOp (op : String)
  | schemaViolation (message : String)
  | io (message : String)
deriving DecidableEq

/-- The text of an error (`Display`). -/
def JournalError.text : JournalError → String
  | .unknownOp op => "unknown op: " ++ op
  | .schemaViolation message => "schema violation: " ++ message
  | .io message => "io: " ++ message

/-! ## Event ids -/

mutual

/-- Sort the fields of every object (`canonical_value`). -/
def canonicalValue : Value → Value
  | .array items => .array (canonicalItems items)
  | .object fields => .object (Assoc.insertAll (canonicalFields fields) [])
  | other => other

/-- All items made canonical. -/
def canonicalItems : List Value → List Value
  | [] => []
  | v :: rest => canonicalValue v :: canonicalItems rest

/-- All field values made canonical. -/
def canonicalFields : Fields → Fields
  | [] => []
  | (k, v) :: rest => (k, canonicalValue v) :: canonicalFields rest

end

/-- `SCHEMA_VERSION`. -/
def schemaVersion : String := "innen/v1"

/-- `VOLATILE_NODE_EDGE`: payload fields that do not enter the event id. -/
def volatileNodeEdge : List String := ["observed_utc"]

variable (P : Platform)

/-- The text that is hashed, with its three fields in this order. -/
def canonicalText (op : String) (payload : Value) (volatileKeys : List String) : String :=
  let clean := volatileKeys.foldl Value.remove (canonicalValue payload)
  structText P.floatText [("v", .string schemaVersion), ("op", .string op), ("payload", clean)]

/-- The convergent id of an event. -/
def eventId (op : String) (payload : Value) : String :=
  P.sha256Hex (canonicalText P op payload volatileNodeEdge).toUTF8

/-! ## Appending -/

/-- `ALLOWED_OPS`. -/
def allowedOps : List String := ["node.upsert", "edge.assert", "edge.retract", "config.set"]

/-- The string fields each operation needs. -/
def neededKeys (op : String) : List String :=
  if op = "node.upsert" then ["id"]
  else if op = "edge.assert" ∨ op = "edge.retract" then ["from", "to", "type"]
  else ["key"]

/-- Minimal shape check of an operation's payload. -/
def validate (op : String) (payload : Value) : Except JournalError Unit :=
  if op ∉ allowedOps then .error (.unknownOp op)
  else
    match payload.asObject? with
    | none => .error (.schemaViolation (op ++ ": payload must be a JSON object"))
    | some fields =>
      match (neededKeys op).find? fun key => ((Assoc.get? key fields).bind Value.asStr?).isNone with
      | some key => .error (.schemaViolation (op ++ ": requires string field " ++ "\x60" ++ key ++ "\x60"))
      | none => .ok ()

/-- The entry an append stores; `now` is the clock reading. -/
def newEntry (op : String) (payload : Json) (now : String) : JournalEntry :=
  ⟨eventId P op payload.val, now, op, payload⟩

/-- The text of an entry, without the newline behind it. -/
def entryText (entry : JournalEntry) : String := structText P.floatText entry.fields

/-- The bytes of a text. -/
def textBytes (s : String) : ByteArray := s.toUTF8

/-- `Journal::append` on the content of the file: the new content and the event id. -/
def append (content : ByteArray) (op : String) (payload : Json) (now : String) :
    Except JournalError (ByteArray × String) := do
  validate op payload.val
  let entry := newEntry P op payload now
  .ok (content ++ textBytes (entryText P entry ++ "\n"), entry.id)

/-! ## Opening and reading -/

/-- Quarantine predicate: keep lines that are objects with a string `id` and a string `op`. -/
def keepLine (line : String) : Bool :=
  match P.parseValue line with
  | none => false
  | some v => ((v.val.get? "id").bind Value.asStr?).isSome && ((v.val.get? "op").bind Value.asStr?).isSome

/-- The lines kept by a scan. -/
def goodLines (content : String) : List String :=
  (lines content).filter fun l => l ≠ "" && keepLine P l

/-- The lines moved to the quarantine by a scan. -/
def badLines (content : String) : List String :=
  (lines content).filter fun l => l ≠ "" && !keepLine P l

/-- `fs::read_to_string` on existing bytes. -/
def readToString (bytes : ByteArray) : Except JournalError String :=
  match String.fromUTF8? bytes with
  | some content => .ok content
  | none => .error (.io "stream did not contain valid UTF-8")

/-- `Journal::open` on the file: its new content and the lines moved to the quarantine. A missing file
stays missing and a clean file is left untouched. -/
def openFile (file : Option ByteArray) : Except JournalError (Option ByteArray × List String) :=
  match file with
  | none => .ok (none, [])
  | some bytes => do
    let content ← readToString bytes
    if badLines P content = [] then .ok (some bytes, [])
    else .ok (some (textBytes (joinLines (goodLines P content))), badLines P content)

/-- The entries of a text: blank lines and lines that are no entries are skipped. -/
def entriesOf (content : String) : List JournalEntry :=
  (lines content).filterMap fun l => if blank l then none else P.parseEntry l

/-- `Journal::read_all`. -/
def readAll (file : Option ByteArray) : Except JournalError (List JournalEntry) :=
  match file with
  | none => .ok []
  | some bytes => do
    let content ← readToString bytes
    .ok (entriesOf P content)

/-- The text of a file, empty when there is none. -/
def contentOf (file : Option ByteArray) : Except JournalError String :=
  match file with
  | none => .ok ""
  | some bytes => readToString bytes

end Innen.Journal
