import Innen.Common.Utf8
import Innen.Credentials
import Innen.Journal.Model

/-!
# Harvesting the inbox

`harvest` appends one event for every Markdown file of the inbox that its cursor does not name. A file with a
credential is reported and not appended. The cursor then names what was handled, so that it need not count. `check` is
the dry run.
-/

namespace Innen.Harvest

open Innen.Common Innen.Credentials Innen.Journal

/-! ## The inbox -/

/-- What an entry of the inbox is: no file, or a file with its bytes if they can be read. -/
inductive EntryKind where
  | other
  | file (bytes : Option ByteArray)

/-- An entry of the inbox. Its name may be no text. -/
structure InboxEntry where
  name : ByteArray
  kind : EntryKind

/-- The directory `00-inbox/harvest`; one that is missing has no entries. -/
structure Inbox where
  entries : List InboxEntry
  nodup : (entries.map InboxEntry.name).Nodup

/-- Whether the extension of a name is `md`. -/
def isMarkdown (name : ByteArray) : Bool := ".md".toUTF8.data.toList.isSuffixOf name.data.toList ∧ 3 < name.size

/-- Whether an entry is a file. -/
def InboxEntry.isFile (e : InboxEntry) : Bool :=
  match e.kind with
  | .other => false
  | .file _ => true

/-- `list_inbox_files`. -/
def listInboxFiles (inbox : Inbox) : List String :=
  ((inbox.entries.filter fun e => e.isFile && isMarkdown e.name).map fun e => fromUtf8Lossy e.name).mergeSort
    fun a b => decide (a ≤ b)

/-- `fs::read` of a name in the inbox. -/
def Inbox.read (inbox : Inbox) (rel : String) : Option ByteArray :=
  match inbox.entries.find? fun e => e.name = rel.toUTF8 with
  | some ⟨_, .file bytes⟩ => bytes
  | _ => none

/-! ## The cursor -/

/-- `WATERMARK_SCHEMA`. -/
def watermarkSchema : String := "innen.tap.watermark.v2"

/-- `StoredCursor`. -/
structure StoredCursor where
  schema : String
  consumed : SortedSet String

/-- What the cursor file said. -/
inductive CursorState where
  | missing
  | legacyCount (n : ℕ)
  | current (consumed : SortedSet String)
  | unreadable

/-- `CursorState::known`. -/
def CursorState.known : CursorState → Option (SortedSet String)
  | .current consumed => some consumed
  | _ => none

/-- `CursorState::label`. -/
def CursorState.label : CursorState → String
  | .missing => "missing"
  | .legacyCount _ => "legacy_count_rebuilt"
  | .current _ => "current"
  | .unreadable => "unreadable_rebuilt"

/-- The names that a state counts as consumed. -/
def CursorState.consumed (state : CursorState) : SortedSet String := state.known.getD ∅

/-- The cursor file: it is not there, it cannot be read, or it has bytes. -/
inductive CursorFile where
  | absent
  | broken
  | bytes (b : ByteArray)

/-- The library functions that harvesting calls. -/
structure Tools extends Platform where
  /-- `serde_json::from_str::<StoredCursor>`. -/
  parseCursor : String → Option StoredCursor

variable (T : Tools)

/-- The value of decimal digits. -/
def digitsValue (digits : List Char) : ℕ := digits.foldl (fun n c => 10 * n + (c.toNat - '0'.toNat)) 0

/-- `str::parse::<u64>`: digits, with a plus sign in front or not. -/
def parseU64 (s : String) : Option ℕ :=
  let digits := if s.toList.head? = some '+' then s.toList.tail else s.toList
  if digits ≠ [] ∧ digits.all Char.isDigit ∧ digitsValue digits < 2 ^ 64 then some (digitsValue digits) else none

/-- `load_cursor`. -/
def loadCursor (file : CursorFile) : CursorState :=
  match file with
  | .absent => .missing
  | .broken => .unreadable
  | .bytes b =>
    match String.fromUTF8? b with
    | none => .unreadable
    | some text =>
      match parseU64 (trim text) with
      | some n => .legacyCount n
      | none =>
        match T.parseCursor (trim text) with
        | some stored => if stored.schema = watermarkSchema then .current stored.consumed else .unreadable
        | none => .unreadable

/-- The text of a cursor. -/
def storedText (stored : StoredCursor) : String :=
  structText T.floatText [("schema", .string stored.schema), ("consumed", .array (stored.consumed.elems.map .string))]

/-- `store_cursor`, when it succeeds: the new file takes the place of the old one. -/
def storeCursor (consumed : SortedSet String) : CursorFile := .bytes (storedText T ⟨watermarkSchema, consumed⟩).toUTF8

/-- What is used of the library: it reads back what it printed. -/
def Tools.Lawful : Prop := ∀ stored, T.parseCursor (storedText T stored) = some stored

/-! ## Selecting -/

/-- `unconsumed`: the files that are listed and not consumed, and the state of the cursor. -/
def unconsumed (inbox : Inbox) (file : CursorFile) : List String × CursorState :=
  let state := loadCursor T file
  ((listInboxFiles inbox).filter fun name => name ∉ state.consumed, state)

/-- `advance`. -/
def advance (state : CursorState) (handled : List String) : SortedSet String := handled.foldl SortedSet.insert state.consumed

/-! ## Events -/

/-- `sha8`. -/
def sha8 (rel : String) : String := takeChars 8 (T.sha256Hex rel.toUTF8)

/-- `source_id`. -/
def sourceId (rel : String) : String := "source:" ++ sha8 T rel

/-- The provenance of a file; `now` is the reading of the clock. -/
def provenance (rel : String) (bytes : ByteArray) (now : String) : Fields :=
  [("bytes", .number (.posInt bytes.size)), ("observed_utc", .string now), ("path", .string rel),
    ("sha256", .string (T.sha256Hex bytes))]

/-- The payload of `event_for_file`. -/
def filePayload (rel : String) (bytes : ByteArray) (text now : String) : Fields :=
  [("body", .string text), ("id", .string (sourceId T rel)), ("label", .string rel),
    ("provenance", .object (provenance T rel bytes now)), ("type", .string "Artifact")]

theorem wf_filePayload (rel : String) (bytes : ByteArray) (text now : String) :
    (Value.object (filePayload T rel bytes text now)).WF := by
  have hinner : (Value.object (provenance T rel bytes now)).WF := Value.wf_object.mpr
    ⟨Assoc.ascending_of_keys (by decide : ["bytes", "observed_utc", "path", "sha256"].Pairwise (· < ·)),
      by simp [provenance]⟩
  refine Value.wf_object.mpr
    ⟨Assoc.ascending_of_keys (by decide : ["body", "id", "label", "provenance", "type"].Pairwise (· < ·)), ?_⟩
  simp only [filePayload, List.forall_mem_cons, Value.wf_string, hinner, List.not_mem_nil, false_implies, implies_true,
    and_self]

/-- An event to append. -/
structure Event where
  op : String
  payload : Json
  idempotencyKey : String

/-- `event_for_file`. -/
def eventForFile (rel : String) (bytes : ByteArray) (text now : String) : Event :=
  ⟨"node.upsert", ⟨.object (filePayload T rel bytes text now), wf_filePayload T rel bytes text now⟩, T.sha256Hex bytes⟩

/-! ## Checking -/

/-- What the dry run reports. -/
structure TapReport where
  id : String
  newFiles : List String
  skipped : List String
  cursor : String

/-- `TAP_ID`. -/
def tapId : String := "harvest-dir"

/-- The text that the dry run scans: nothing where it cannot read text. -/
def checkedText (inbox : Inbox) (rel : String) : String := ((inbox.read rel).bind String.fromUTF8?).getD ""

/-- `check`. -/
def check (inbox : Inbox) (file : CursorFile) : TapReport :=
  let pending := (unconsumed T inbox file).1
  let clean := fun rel => decide (scanCredentials (checkedText inbox rel).toList = [])
  ⟨tapId, pending.filter clean, pending.filter fun rel => !clean rel, (unconsumed T inbox file).2.label⟩

/-! ## Running -/

/-- A file that was skipped for a credential. -/
structure Skipped where
  path : String
  pattern : String
  preview : String

/-- What a run reports. -/
structure IngestReport where
  added : ℕ
  skipped : List Skipped

/-- What is outside of a run: whether the journal opens, which appends succeed, whether the cursor is stored, and the
readings of the clock for each file. -/
structure World where
  opens : Bool
  appends : ℕ → Bool
  stores : Bool
  observed : ℕ → String
  appended : ℕ → String

/-- What the loop over the files carries. -/
structure Progress where
  journal : List JournalEntry
  added : ℕ
  skipped : List Skipped
  processed : List String

/-- The entry that a file gets in the journal. -/
def fileEntry (rel : String) (bytes : ByteArray) (observed appended : String) : JournalEntry :=
  let event := eventForFile T rel bytes (fromUtf8Lossy bytes) observed
  newEntry T.toPlatform event.op event.payload appended

/-- The loop over the files; `i` counts them. -/
def ingestFrom (W : World) (inbox : Inbox) : ℕ → List String → Progress → Progress
  | _, [], p => p
  | i, rel :: rest, p =>
    match inbox.read rel with
    | none => ingestFrom W inbox (i + 1) rest p
    | some bytes =>
      match (scanCredentials (fromUtf8Lossy bytes).toList).head? with
      | some pattern => ingestFrom W inbox (i + 1) rest
          { p with
            skipped := p.skipped ++ [⟨rel, pattern, credentialPreview (fromUtf8Lossy bytes) pattern⟩]
            processed := p.processed ++ [rel] }
      | none =>
        if W.appends i then ingestFrom W inbox (i + 1) rest
          { p with
            journal := p.journal ++ [fileEntry T rel bytes (W.observed i) (W.appended i)]
            added := p.added + 1
            processed := p.processed ++ [rel] }
        else p

/-- What a run works on. -/
structure Store where
  inbox : Inbox
  cursorFile : CursorFile
  journal : List JournalEntry

/-- `run`. -/
def run (W : World) (s : Store) : Store × IngestReport :=
  let selected := unconsumed T s.inbox s.cursorFile
  if selected.1 = [] ∨ W.opens = false then (s, ⟨0, []⟩)
  else
    let p := ingestFrom T W s.inbox 0 selected.1 ⟨s.journal, 0, [], []⟩
    let cursorFile :=
      if p.processed ≠ [] ∧ W.stores = true then storeCursor T (advance selected.2 p.processed) else s.cursorFile
    ({ s with cursorFile := cursorFile, journal := p.journal }, ⟨p.added, p.skipped⟩)

end Innen.Harvest
