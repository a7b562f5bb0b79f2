import Innen.Common.Except
import Innen.Json.Text

/-!
# The archive ledger

A ledger keeps receipts of the files of one project. Receipts and the events about them are only ever appended:
notes, relocations, reclassifications and supersessions. What the file system answers about a path is an argument
of the operations, and so is the clock.
-/

namespace Innen.Ledger

open Innen.Common

/-! ## Records -/

/-- Why a ledger operation fails. -/
inductive LedgerError where
  | io (message : String)
  | invalid (message : String)
  | conflict (message : String)
  | downloads (path : String)
  | hashMismatch (expected actual : String)
  | projectionAfterAppend (message : String)
deriving DecidableEq

/-- The text of an error (`Display`). -/
def LedgerError.text : LedgerError → String
  | .io message => "io: " ++ message
  | .invalid message => "invalid ledger: " ++ message
  | .conflict message => "conflict: " ++ message
  | .downloads path => "downloads is intake-only: " ++ path
  | .hashMismatch expected actual => "hash mismatch: expected " ++ expected ++ ", got " ++ actual
  | .projectionAfterAppend message => "ledger event appended but projection failed: " ++ message

/-- How far a file has come. -/
inductive LifecycleStage where
  | intake | authoring | verification | delivery
deriving DecidableEq

/-- The text of a stage in JSON. -/
def LifecycleStage.asStr : LifecycleStage → String
  | .intake => "intake"
  | .authoring => "authoring"
  | .verification => "verification"
  | .delivery => "delivery"

/-- The `Debug` text of a stage. -/
def LifecycleStage.debugText : LifecycleStage → String
  | .intake => "Intake"
  | .authoring => "Authoring"
  | .verification => "Verification"
  | .delivery => "Delivery"

/-- What a file is. -/
inductive SourceKind where
  | document | event | dataset | other
deriving DecidableEq

/-- The text of a kind in JSON. -/
def SourceKind.asStr : SourceKind → String
  | .document => "document"
  | .event => "event"
  | .dataset => "dataset"
  | .other => "other"

/-- The receipt of a file. -/
structure Receipt where
  id : String
  documentId : Option String
  path : String
  sha256 : String
  bytes : ℕ
  sourceKind : SourceKind
  role : String
  stage : LifecycleStage
  ownerProject : String
  relation : String
  observedUtc : String
  documentDate : Option String
  authority : Option String
  evidenceStatus : Option String
  provenance : Option String
  approvalValidFrom : Option String
  approvalValidUntil : Option String
deriving DecidableEq

/-- An event about a receipt. -/
structure EventRecord where
  sequence : ℕ
  kind : String
  receiptId : String
  observedUtc : String
  eventDate : Option String
  supersedes : Option String
  newPath : Option String
  expectedSha256 : Option String
  note : Option String
  newOwnerProject : Option String
  newRelation : Option String
  provenance : Option String
deriving DecidableEq

/-- What a ledger is about. -/
structure Identity where
  projectId : String
  title : String
  categories : List String
deriving DecidableEq

/-- What is read of a ledger: its manifest, the receipts and the events. -/
structure State where
  identity : Identity
  receipts : List Receipt
  events : List EventRecord
deriving DecidableEq

/-! ## Effective receipts -/

/-- The receipt of an id. -/
def require (rs : List Receipt) (id : String) : Except LedgerError Receipt :=
  okOr (rs.find? fun r => r.id = id) (.invalid ("unknown receipt " ++ id))

/-- A receipt after one event. -/
def applyEvent (r : Receipt) (e : EventRecord) : Receipt :=
  if e.kind = "relocate" then { r with path := e.newPath.getD r.path }
  else if e.kind = "reclassify" then
    { r with
      ownerProject := e.newOwnerProject.getD r.ownerProject
      relation := e.newRelation.getD r.relation
      provenance := e.provenance.or r.provenance }
  else r

/-- `effective`: a receipt after the events about it. -/
def effective (r : Receipt) (es : List EventRecord) : Receipt :=
  (es.filter fun e => e.receiptId = r.id).foldl applyEvent r

/-- `current`: where the file of a receipt is. -/
def current (r : Receipt) (es : List EventRecord) : String :=
  ((es.filter fun e => e.kind = "relocate" ∧ e.receiptId = r.id).getLast?.bind EventRecord.newPath).getD r.path

/-- `Ledger::receipt`. -/
def State.receipt (s : State) (id : String) : Except LedgerError Receipt := do
  let r ← require s.receipts id
  .ok (effective r s.events)

/-! ## Adding receipts -/

/-- What is asked for when a file is added. -/
structure AddOptions where
  documentId : Option String
  sourceKind : SourceKind
  role : String
  stage : LifecycleStage
  ownerProject : String
  relation : String
  documentDate : Option String
  authority : Option String
  evidenceStatus : Option String
  provenance : Option String
  approvalValidFrom : Option String
  approvalValidUntil : Option String
deriving DecidableEq

/-- What the file system answers about a path: `absolute`, whether that is `under` the downloads, and
`hash_file`. -/
structure FileAnswer where
  path : Except LedgerError String
  inDownloads : Except LedgerError Bool
  hash : Except String (String × ℕ)

/-- The relations that a receipt may have to a project. -/
def relations : List String := ["belongs_to", "reference"]

/-- The id of a receipt: the archive, the file and the number of the receipt. -/
def receiptId (sha256Hex : String → String) (identity : Identity) (sha : String) (number : ℕ) : String :=
  "receipt:" ++ takeChars 16 (sha256Hex (identity.projectId ++ "\x00" ++ identity.title)) ++ ":" ++ sha ++ ":" ++
    toString number

/-- `Ledger::add` up to the append. -/
def newReceipt (sha256Hex : String → String) (s : State) (o : AddOptions) (file : FileAnswer) (now : String) :
    Except LedgerError Receipt := do
  failIf (o.relation = "belongs_to" ∧ blank o.ownerProject = true) (.invalid "belongs_to owner is required")
  failIf (blank o.role = true ∨ blank (o.provenance.getD "") = true) (.invalid "role and provenance are required")
  failIf (o.relation ∉ relations) (.invalid "relation must be belongs_to or reference")
  let path ← file.path
  let inDownloads ← file.inDownloads
  failIf (inDownloads = true ∧ o.stage ≠ .intake) (.downloads path)
  failIf (o.relation = "belongs_to" ∧ o.ownerProject ≠ s.identity.projectId)
    (.invalid "belongs_to owner must match archive project")
  let hash ← file.hash.mapError .io
  .ok {
    id := receiptId sha256Hex s.identity hash.1 (s.receipts.length + 1)
    documentId := o.documentId
    path := path
    sha256 := hash.1
    bytes := hash.2
    sourceKind := o.sourceKind
    role := o.role
    stage := o.stage
    ownerProject := o.ownerProject
    relation := o.relation
    observedUtc := now
    documentDate := o.documentDate
    authority := o.authority
    evidenceStatus := o.evidenceStatus
    provenance := o.provenance
    approvalValidFrom := o.approvalValidFrom
    approvalValidUntil := o.approvalValidUntil }

/-! ## Events -/

/-- An event that is asked for. -/
inductive LedgerEvent where
  | note (receiptId note : String) (eventDate : Option String)
  | supersede (receiptId supersededReceiptId : String) (eventDate : Option String)
  | relocate (receiptId expectedSha256 : String) (file : FileAnswer) (eventDate : Option String)
  | reclassify (receiptId : String) (newOwnerProject : Option String) (newRelation provenance : String)
      (eventDate : Option String)

/-- An event without details. -/
def plainEvent (kind receiptId now : String) (eventDate : Option String) (sequence : ℕ) : EventRecord where
  sequence := sequence
  kind := kind
  receiptId := receiptId
  observedUtc := now
  eventDate := eventDate
  supersedes := none
  newPath := none
  expectedSha256 := none
  note := none
  newOwnerProject := none
  newRelation := none
  provenance := none

/-- `Ledger::event` up to the append. -/
def newEvent (s : State) (x : LedgerEvent) (now : String) : Except LedgerError EventRecord :=
  let plain kind id date := plainEvent kind id now date (s.events.length + 1)
  match x with
  | .note id note date => do
    let _ ← require s.receipts id
    .ok { plain "note" id date with note := some note }
  | .supersede id superseded date => do
    let a ← require s.receipts id
    let b ← require s.receipts superseded
    -- The owners are those of the receipts as they were added.
    failIf (id = superseded ∨ a.ownerProject ≠ b.ownerProject ∨ a.ownerProject ≠ s.identity.projectId)
      (.invalid "invalid self or cross-owner supersession")
    .ok { plain "supersede" id date with supersedes := some superseded }
  | .relocate id expected file date => do
    let r ← require s.receipts id
    let path ← file.path
    let inDownloads ← file.inDownloads
    failIf (inDownloads = true ∧ r.stage ≠ .intake) (.downloads path)
    let hash ← file.hash.mapError .io
    failIf (hash.1 ≠ expected ∨ hash.1 ≠ r.sha256) (.hashMismatch expected hash.1)
    .ok { plain "relocate" id date with newPath := some path, expectedSha256 := some hash.1 }
  | .reclassify id owner relation provenance date => do
    let _ ← require s.receipts id
    failIf (blank provenance = true ∨ relation ∉ relations)
      (.invalid "reclassification requires provenance and a valid relation")
    failIf (relation = "belongs_to" ∧ blank (owner.getD "") = true)
      (.invalid "belongs_to reclassification requires owner")
    failIf (relation = "belongs_to" ∧ owner ≠ some s.identity.projectId)
      (.invalid "belongs_to reclassification owner must match archive project")
    .ok { plain "reclassify" id date with
      newOwnerProject := owner, newRelation := some relation, provenance := some provenance }

/-! ## Requests -/

/-- What `init` is asked for, and what the file system answers about the root: `absolute`, the last part of it, and
whether it is under the downloads. -/
structure InitOptions where
  title : String
  projectId : String
  categories : List String
  root : Except LedgerError String
  basename : Option String
  inDownloads : Except LedgerError Bool

/-- The checks of `Ledger::init` before it opens anything. -/
def checkInit (o : InitOptions) : Except LedgerError Unit := do
  failIf (o.title = "" ∨ o.projectId = "") (.invalid "title and project_id are required")
  let root ← o.root
  failIf (o.basename ≠ some o.title) (.invalid "archive basename must equal exact title")
  let inDownloads ← o.inDownloads
  failIf (inDownloads = true) (.downloads root)

/-- A new ledger. -/
def fresh (o : InitOptions) : State := ⟨⟨o.projectId, o.title, o.categories⟩, [], []⟩

/-- `Ledger::init` on a ledger that exists. -/
def State.reopen (s : State) (o : InitOptions) : Except LedgerError Unit := do
  checkInit o
  failIf (s.identity.projectId ≠ o.projectId ∨ s.identity.title ≠ o.title)
    (.conflict "existing ledger identity differs")

/-- An operation on a ledger. -/
inductive Request where
  | init (o : InitOptions)
  | add (o : AddOptions) (file : FileAnswer) (now : String)
  | event (x : LedgerEvent) (now : String)

/-- A ledger after an operation. -/
def State.perform (sha256Hex : String → String) (s : State) : Request → Except LedgerError State
  | .init o => do
    s.reopen o
    .ok s
  | .add o file now => do
    let r ← newReceipt sha256Hex s o file now
    .ok { s with receipts := s.receipts ++ [r] }
  | .event x now => do
    let e ← newEvent s x now
    .ok { s with events := s.events ++ [e] }

/-- A ledger after an operation that may be refused. -/
def State.after (sha256Hex : String → String) (s : State) (q : Request) : State :=
  match s.perform sha256Hex q with
  | .ok s' => s'
  | .error _ => s

/-! ## The integrity check -/

/-- What the integrity check reports. -/
structure CheckReport where
  active : ℕ
  missing : List String
  changed : List String
  superseded : List String
deriving DecidableEq

/-- Whether a receipt is superseded. -/
def isSuperseded (es : List EventRecord) (id : String) : Bool :=
  es.any fun e => e.kind = "supersede" ∧ e.supersedes = some id

/-- One receipt of the integrity check. A file that is not there has no hash. -/
def checkReceipt (hashAt : String → Except String (Option String)) (es : List EventRecord) (out : CheckReport)
    (r : Receipt) : Except LedgerError CheckReport :=
  if isSuperseded es r.id then .ok { out with superseded := out.superseded ++ [r.id] }
  else do
    let out := { out with active := out.active + 1 }
    match ← (hashAt (current r es)).mapError .io with
    | some sha => .ok (if sha ≠ r.sha256 then { out with changed := out.changed ++ [r.id] } else out)
    | none => .ok { out with missing := out.missing ++ [r.id] }

/-- `Ledger::check`. -/
def State.check (hashAt : String → Except String (Option String)) (s : State) : Except LedgerError CheckReport :=
  s.receipts.foldlM (checkReceipt hashAt s.events) ⟨0, [], [], []⟩

end Innen.Ledger
