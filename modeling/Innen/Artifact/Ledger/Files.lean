import Innen.Artifact.Ledger.Timeline
import Innen.Common.Interrupted
import Innen.Common.Utf8

/-!
# The files of a ledger

A manifest, an event log with one JSON object per line, and two projections of them, the index and the timeline. The
projections are written to a temporary file that is then renamed. An operation is given by the writes it performs
and by how it ends (`Course`); a crash leaves the first writes done and one of them in part (`stopped`).
-/

namespace Innen.Ledger

open Innen.Common

/-! ## Entries of the event log -/

/-- `MAGIC`. -/
def magic : String := "innen-project-ledger-v1"

/-- An entry of the event log. -/
structure FileEvent where
  magic : String
  receipt : Option Receipt
  event : Option EventRecord
deriving DecidableEq

/-- The entry of a receipt. -/
def Receipt.entry (r : Receipt) : FileEvent := ⟨Ledger.magic, some r, none⟩

/-- The entry of an event. -/
def EventRecord.entry (e : EventRecord) : FileEvent := ⟨Ledger.magic, none, some e⟩

/-- A text that may be missing. -/
def optional (s : Option String) : Value := s.elim .null .string

/-- A receipt as a struct in declaration order. -/
def Receipt.fields (r : Receipt) : Fields :=
  [("id", .string r.id), ("document_id", optional r.documentId), ("path", .string r.path),
    ("sha256", .string r.sha256), ("bytes", .number (.posInt r.bytes)), ("source_kind", .string r.sourceKind.asStr),
    ("role", .string r.role), ("stage", .string r.stage.asStr), ("owner_project", .string r.ownerProject),
    ("relation", .string r.relation), ("observed_utc", .string r.observedUtc),
    ("document_date", optional r.documentDate), ("authority", optional r.authority),
    ("evidence_status", optional r.evidenceStatus), ("provenance", optional r.provenance),
    ("approval_valid_from", optional r.approvalValidFrom), ("approval_valid_until", optional r.approvalValidUntil)]

/-- An event as a struct in declaration order. -/
def EventRecord.fields (e : EventRecord) : Fields :=
  [("sequence", .number (.posInt e.sequence)), ("kind", .string e.kind), ("receipt_id", .string e.receiptId),
    ("observed_utc", .string e.observedUtc), ("event_date", optional e.eventDate),
    ("supersedes", optional e.supersedes), ("new_path", optional e.newPath),
    ("expected_sha256", optional e.expectedSha256), ("note", optional e.note),
    ("new_owner_project", optional e.newOwnerProject), ("new_relation", optional e.newRelation),
    ("provenance", optional e.provenance)]

/-- An entry as a struct in declaration order. -/
def FileEvent.fields (x : FileEvent) : Fields :=
  [("magic", .string x.magic), ("receipt", (x.receipt.map fun r => Value.object r.fields).getD .null),
    ("event", (x.event.map fun e => Value.object e.fields).getD .null)]

/-- The line of an entry. No number in it has a decimal point. -/
def eventText (x : FileEvent) : String := structText (fun _ => "") x.fields

/-! ## The manifest -/

/-- What is read of a manifest. The receipts and events that it could hold are replaced by those of the log. -/
structure Projection where
  magic : String
  identity : Identity
deriving DecidableEq

/-- What stands in front of an item that is not the first. -/
def itemStart : String := ",\n    "

/-- A list of texts, printed over several lines. -/
def prettyTexts : List String → String
  | [] => "[]"
  | c :: cs => "[\n    " ++ quote c ++ String.join (cs.map fun c => itemStart ++ quote c) ++ "\n  ]"

/-- The text of a new manifest. -/
def manifestText (i : Identity) : String :=
  "\x7b\n  \"magic\": " ++ quote magic ++ ",\n  \"project_id\": " ++ quote i.projectId ++ ",\n  \"title\": " ++
    quote i.title ++ ",\n  \"categories\": " ++ prettyTexts i.categories ++
    ",\n  \"receipts\": [],\n  \"events\": []\n\x7d"

/-- The library functions that the ledger calls, and the texts of the errors of the file system. -/
structure Codec where
  /-- `serde_json::from_slice::<Projection>`. -/
  parseManifest : ByteArray → Except String Projection
  /-- `serde_json::from_str::<FileEvent>`. -/
  parseEvent : String → Except String FileEvent
  /-- `serde_json::to_vec_pretty` of a projection, which nothing reads. -/
  indexBytes : State → ByteArray
  notFound : String
  alreadyExists : String
  notText : String

/-! ## Files and writes -/

/-- The files of a ledger: `.innen-ledger/manifest.json`, `.innen-ledger/events.jsonl`, `.index.json`,
`檔案索引.json`, `專案時間線.md`, and the temporary file `.<name>.tmp-<pid>` of one of them. -/
inductive LedgerFile where
  | manifest | events | index | legacyIndex | timeline
  | temp (file : LedgerFile) (pid : ℕ)
deriving DecidableEq

/-- The bytes of each file that is there. -/
abbrev Files := LedgerFile → Option ByteArray

/-- A directory without a ledger. -/
def noFiles : Files := fun _ => none

/-- One write to the directory. -/
inductive Write where
  | create (file : LedgerFile) (bytes : ByteArray)
  | append (file : LedgerFile) (bytes : ByteArray)
  | rename (file target : LedgerFile)

/-- The effect of a write. -/
def Write.perform (w : Write) (d : Files) : Files :=
  match w with
  | .create file bytes => Function.update d file (some bytes)
  | .append file bytes => Function.update d file (some ((d file).getD .empty ++ bytes))
  | .rename file target => Function.update (Function.update d target (d file)) file none

/-- The effect of a write that stops: none of it at `0`, and at `n + 1` what `n` bytes do. A rename is done at once. -/
def Write.part (w : Write) (n : ℕ) (d : Files) : Files :=
  match n, w with
  | 0, _ => d
  | n + 1, .create file bytes => (Write.create file (bytes.extract 0 n)).perform d
  | n + 1, .append file bytes => (Write.append file (bytes.extract 0 n)).perform d
  | _ + 1, .rename file target => (Write.rename file target).perform d

/-- What a crash leaves: the writes before the `k`-th are done, and the `k`-th stops at `n`. -/
def stopped (d : Files) (ws : List Write) (k n : ℕ) : Files :=
  match ws, k with
  | [], _ => d
  | w :: _, 0 => w.part n d
  | w :: rest, k + 1 => stopped (w.perform d) rest k n

/-- An operation that nothing stops. -/
abbrev LedgerCourse := Course Write LedgerError

/-! ## Reading -/

variable (C : Codec)

/-- The entries of the event log. -/
def readEvents (content : String) : Except LedgerError (List FileEvent) :=
  ((lines content).filter fun l => !blank l).mapM fun l => (C.parseEvent l).mapError .invalid

/-- `read_state`. -/
def readState (d : Files) : Except LedgerError State := do
  let manifest ← okOr (d .manifest) (.io C.notFound)
  let p ← (C.parseManifest manifest).mapError .invalid
  let events ← okOr (d .events) (.io C.notFound)
  let content ← okOr (String.fromUTF8? events) (.io C.notText)
  let xs ← readEvents C content
  .ok ⟨p.identity, xs.filterMap FileEvent.receipt, xs.filterMap FileEvent.event⟩

/-! ## Writing -/

/-- `atomic`: the temporary file must not be there yet. -/
def atomic (d : Files) (pid : ℕ) (file : LedgerFile) (bytes : ByteArray) : LedgerCourse :=
  if (d (.temp file pid)).isSome then .plain (.error (.io C.alreadyExists))
  else ⟨[.create (.temp file pid) bytes, .rename (.temp file pid) file], .ok ()⟩

/-- `project`: the index and the timeline, from what is read of the manifest and the log. -/
def project (d : Files) (pid : ℕ) (target : LedgerFile) : LedgerCourse :=
  match readState C d with
  | .error e => .plain (.error e)
  | .ok s => (atomic C d pid target (C.indexBytes s)).andThen Write.perform d fun d' =>
      atomic C d' pid .timeline (projectTimeline s (d' .timeline))

/-- `append_locked`. -/
def appendLocked (d : Files) (pid : ℕ) (target : LedgerFile) (x : FileEvent) : LedgerCourse :=
  match d .events with
  | none => .plain (.error (.io C.notFound))
  | some _ => (⟨[.append .events (eventText x ++ "\n").toByteArray], .ok ()⟩ : LedgerCourse).andThen Write.perform d fun d' =>
      (project C d' pid target).mapError fun e => .projectionAfterAppend e.text

/-! ## Operations -/

/-- Where the index is. -/
def indexFile (d : Files) : LedgerFile :=
  if (d .index).isSome then .index else if (d .legacyIndex).isSome then .legacyIndex else .index

/-- `Ledger::init` on a directory with a manifest. -/
def openManifest (manifest : ByteArray) (o : InitOptions) : Except LedgerError Unit := do
  let p ← (C.parseManifest manifest).mapError .invalid
  failIf (p.magic ≠ magic) (.invalid "ledger manifest magic mismatch")
  failIf (p.identity.projectId ≠ o.projectId ∨ p.identity.title ≠ o.title)
    (.conflict "existing ledger identity differs")

/-- `Ledger::init` on a directory without a manifest. -/
def createLedger (d : Files) (pid : ℕ) (o : InitOptions) : LedgerCourse :=
  if (d .timeline).isSome ∨ (d .index).isSome ∨ (d .legacyIndex).isSome ∨ (d .events).isSome then
    .plain (.error (.conflict "preexisting timeline/index is unrelated"))
  else (⟨[.create .manifest (manifestText ⟨o.projectId, o.title, o.categories⟩).toByteArray, .create .events .empty],
      .ok ()⟩ : LedgerCourse).andThen Write.perform d fun d' => project C d' pid .index

/-- The checks of `Ledger::add` before it reads the ledger. -/
def checkAdd (o : AddOptions) (file : FileAnswer) : Except LedgerError Unit := do
  failIf (o.relation = "belongs_to" ∧ blank o.ownerProject = true) (.invalid "belongs_to owner is required")
  failIf (blank o.role = true ∨ blank (o.provenance.getD "") = true) (.invalid "role and provenance are required")
  failIf (o.relation ∉ relations) (.invalid "relation must be belongs_to or reference")
  let path ← file.path
  let inDownloads ← file.inDownloads
  failIf (inDownloads = true ∧ o.stage ≠ .intake) (.downloads path)

/-- `Ledger::event` reads back the event it appended. -/
def readBack (d : Files) : Except LedgerError Unit := do
  let s ← readState C d
  let _ ← okOr s.events.getLast? (.invalid "event append produced no event")
  .ok ()

/-- What an operation does in a directory. -/
def course (sha256Hex : String → String) (d : Files) (pid : ℕ) : Request → LedgerCourse
  | .init o => match checkInit o with
    | .error e => .plain (.error e)
    | .ok _ => match d .manifest with
      | some manifest => .plain (openManifest C manifest o)
      | none => createLedger C d pid o
  | .add o file now => match (do checkAdd o file; newReceipt sha256Hex (← readState C d) o file now) with
    | .error e => .plain (.error e)
    | .ok r => appendLocked C d pid (indexFile d) r.entry
  | .event x now => match (do newEvent (← readState C d) x now) with
    | .error e => .plain (.error e)
    | .ok e => (appendLocked C d pid (indexFile d) e.entry).andThen Write.perform d fun d' => .plain (readBack C d')

end Innen.Ledger
