import Innen.Common.Interrupted
import Innen.Common.Utf8
import Innen.Middleware.History.Guard

/-!
# The store of decision histories

Each task has a directory of its own: immutable snapshots named by the hash of what they hold, an index
that names one snapshot a line, and a lock file. A save appends to the index; the last line of the index
is the current history.

What a save does is computed as a list of writes on the directory of the task, since it may stop between
or within them. The lock makes a save one step for all other processes.
-/

namespace Innen.Middleware.History.Store

open Innen.Common

/-- `MAX_STORE_FILE_BYTES`. -/
def maxStoreFileBytes : ℕ := 16 * 1024 * 1024

/-- The library functions the store calls, besides those of the middleware. -/
structure Platform extends Middleware.Platform where
  /-- `serde_json::from_slice::<Request>`, with its message. -/
  parseRequest : ByteArray → Except String Request
  /-- `serde_json::from_str::<IndexEntry>`: the hash in the line. -/
  parseIndexEntry : String → Except String String
  /-- The message of `std::str::from_utf8` on bytes that are no text. -/
  utf8Error : ByteArray → String

/-- An error of the file system. -/
inductive IoError where
  | notFound
  | other (message : String)
deriving DecidableEq

/-- The text of an error of the file system. -/
def IoError.text : IoError → String
  | .notFound => "No such file or directory (os error 2)"
  | .other message => message

/-- Why a save or a load fails. -/
inductive Error where
  | history (error : History.Error)
  | corrupt (message : String)
  | io (error : IoError)
  | crossTaskEvent (project taskId : String)
  | snapshotConflict (hash : String)
  | decisionRemoved (id : String)
  | decisionRewritten (id : String)
  | tooLarge (kind : String) (max : ℕ)
deriving DecidableEq

/-- The text of an error (`Display`). -/
def Error.text : Error → String
  | .history error => error.text
  | .corrupt message => "history store is corrupt: " ++ message
  | .io error => "history store I/O: " ++ error.text
  | .crossTaskEvent project taskId =>
    "history save contains an event outside project " ++ ticked project ++ " and task " ++ ticked taskId
  | .snapshotConflict hash =>
    "history snapshot " ++ ticked hash ++ " already exists with different bytes"
  | .decisionRemoved id => "history save removes prior immutable decision " ++ ticked id
  | .decisionRewritten id => "history save rewrites prior immutable decision " ++ ticked id
  | .tooLarge kind max =>
    "history " ++ kind ++ " exceeds the " ++ toString max ++ " byte admission bound"

/-- What a save returns. -/
structure SaveReceipt where
  resolution : String
  historySourceSha256 : String
deriving DecidableEq

/-! ## Files -/

/-- The directory of one task. -/
structure TaskDir where
  /-- The files in `snapshots`, by the hash in their names. -/
  snapshots : SortedMap String ByteArray
  /-- `index.jsonl`. -/
  index : Option ByteArray
  /-- Whether `index.lock` is there. -/
  lock : Bool

/-- The directory before the first save. -/
def TaskDir.empty : TaskDir := ⟨∅, none, false⟩

variable (P : Platform)

/-- The path of the index, in messages; `dir` is the path of the directory of the task. -/
def indexPath (dir : String) : String := dir ++ "/index.jsonl"

/-- `snapshot_path`. -/
def snapshotPath (dir hash : String) : String := dir ++ "/snapshots/" ++ hash ++ ".json"

/-- `read_bounded`. -/
def readBounded (path : String) (file : Option ByteArray) : Except Error ByteArray :=
  match file with
  | none => .error (.io .notFound)
  | some bytes =>
    if maxStoreFileBytes < bytes.size then
      .error (.corrupt (path ++ " exceeds " ++ toString maxStoreFileBytes ++ " bytes"))
    else .ok bytes

/-! ## Reading -/

/-- The text of a request, which is what a snapshot holds and what its hash is taken of. -/
def requestText (request : Request) : String :=
  structText P.floatText [("stable_prefix", request.stablePrefix),
    ("task", .object request.task.fields), ("budget_tokens", .nat request.budgetTokens),
    ("events", .array (request.events.map fun d => .object (d.fields .object)))]

/-- The bytes of a snapshot. -/
def requestBytes (request : Request) : ByteArray := (requestText P request).toUTF8

/-- The text of a decision. -/
def decisionText (d : Decision) : String := structText P.floatText (d.fields .object)

/-- `validate_scope`. -/
def validateScope (request : Request) : Except Error Unit := do
  let _ ← (validate request).mapError Error.history
  failIf (request.events.any fun e => e.project ≠ request.task.project ∨ e.taskId ≠ request.task.id)
    (.crossTaskEvent request.task.project request.task.id)

/-- `read_snapshot`. -/
def readSnapshot (dir : String) (files : TaskDir) (expectedHash : String) : Except Error Request := do
  let path := snapshotPath dir expectedHash
  let bytes ← readBounded path (files.snapshots.get? expectedHash)
  let request ← (P.parseRequest bytes).mapError fun e => .corrupt (path ++ ": " ++ e)
  (validateScope request).mapError fun e => .corrupt e.text
  let actual := sourceSha256 P.toPlatform request
  failIf (actual ≠ expectedHash)
    (.corrupt (path ++ " hash is " ++ actual ++ ", expected " ++ expectedHash))
  .ok request

/-- A hash as the index holds it. -/
def hashShape (hash : String) : Bool := hash.utf8ByteSize == 64 && hash.toList.all isHexDigit

/-- One line of the index; lines are counted from 0. -/
def readIndexLine (path : String) (entries : List String) (e : String × ℕ) : Except Error (List String) := do
  failIf (blank e.1 = true) (.corrupt (path ++ " has blank line " ++ toString (e.2 + 1)))
  let hash ← (P.parseIndexEntry e.1).mapError fun m =>
    .corrupt (path ++ " line " ++ toString (e.2 + 1) ++ ": " ++ m)
  failIf (hashShape hash = false)
    (.corrupt (path ++ " line " ++ toString (e.2 + 1) ++ " has invalid hash"))
  .ok (entries ++ [hash])

/-- `read_index`: the hashes in the index, in order. -/
def readIndex (path : String) (file : Option ByteArray) : Except Error (List String) := do
  let bytes ← readBounded path file
  failIf (bytes.data.back? ≠ some 10) (.corrupt (path ++ " is incomplete"))
  match String.fromUTF8? bytes with
  | none => .error (.corrupt (path ++ ": " ++ P.utf8Error bytes))
  | some text =>
    let entries ← (lines text).zipIdx.foldlM (readIndexLine P path) []
    failIf (entries = []) (.corrupt (path ++ " is empty"))
    .ok entries

/-- `load_with_snapshot`. -/
def loadWithSnapshot (dir : String) (files : TaskDir) (project taskId : String) :
    Except Error (Request × String) := do
  failIf (blank project = true ∨ blank taskId = true) (.corrupt "project and task must be nonempty")
  failIf (files.lock = false) (.io .notFound)
  let entries ← readIndex P (indexPath dir) files.index
  let latest := entries.getLastD ""
  let request ← readSnapshot P dir files latest
  failIf (request.task.project ≠ project ∨ request.task.id ≠ taskId)
    (.corrupt "index resolves to another task")
  .ok (request, snapshotPath dir latest)

/-- `load`. -/
def load (dir : String) (files : TaskDir) (project taskId : String) : Except Error Request :=
  (loadWithSnapshot P dir files project taskId).map Prod.fst

/-! ## Saving -/

/-- An event of an earlier snapshot, taken into the events known so far. -/
def recordPrior (prior : SortedMap String String) (e : Decision) :
    Except Error (SortedMap String String) :=
  match prior.get? e.id with
  | some previous =>
    if previous ≠ decisionText P e then
      .error (.corrupt ("prior snapshots rewrite decision " ++ ticked e.id))
    else .ok prior
  | none => .ok (prior.insert e.id (decisionText P e))

/-- The events of all earlier snapshots. -/
def priorEvents (dir : String) (files : TaskDir) (entries : List String) :
    Except Error (SortedMap String String) :=
  entries.foldlM (fun prior hash => do
    let older ← readSnapshot P dir files hash
    older.events.foldlM (recordPrior P) prior) ∅

/-- An earlier event against the incoming ones. -/
def checkKept (incoming : SortedMap String String) (e : String × String) : Except Error Unit :=
  match incoming.get? e.1 with
  | none => .error (.decisionRemoved e.1)
  | some text => if text ≠ e.2 then .error (.decisionRewritten e.1) else .ok ()

/-- `reject_immutable_changes`. -/
def rejectImmutableChanges (dir : String) (files : TaskDir) (entries : List String) (request : Request) :
    Except Error Unit := do
  let incoming := (∅ : SortedMap String String).insertAll
    (request.events.map fun e => (e.id, decisionText P e))
  let prior ← priorEvents P dir files entries
  prior.entries.foldlM (fun _ e => checkKept incoming e) ()

/-- One change of the directory. -/
inductive Write where
  | createLock
  | createSnapshot (hash : String)
  | snapshotBytes (hash : String) (bytes : ByteArray)
  | openIndex
  | indexBytes (bytes : ByteArray)

/-- The directory after a change. -/
def Write.perform : Write → TaskDir → TaskDir
  | .createLock, files => { files with lock := true }
  | .createSnapshot hash, files => { files with snapshots := files.snapshots.insert hash .empty }
  | .snapshotBytes hash bytes, files =>
    { files with
      snapshots := files.snapshots.insert hash ((files.snapshots.get? hash).getD .empty ++ bytes) }
  | .openIndex, files => { files with index := some (files.index.getD .empty) }
  | .indexBytes bytes, files => { files with index := some (files.index.getD .empty ++ bytes) }

/-- The directory after a change that stopped: bytes are written up to some place, files are created or
not. -/
def Write.Part (w : Write) (files files' : TaskDir) : Prop :=
  match w with
  | .snapshotBytes hash bytes => ∃ cut, files' = (Write.snapshotBytes hash (bytes.extract 0 cut)).perform files
  | .indexBytes bytes => ∃ cut, files' = (Write.indexBytes (bytes.extract 0 cut)).perform files
  | w => files' = files ∨ files' = w.perform files

/-- The line of the index for a hash, without its newline. -/
def indexLine (hash : String) : String := structText P.floatText [("history_source_sha256", .string hash)]

/-- What the snapshot of a save needs: nothing, when it is there already. -/
def snapshotWrites (dir : String) (files : TaskDir) (hash : String) (bytes : ByteArray) :
    Except Error (List Write) :=
  match readBounded (snapshotPath dir hash) (files.snapshots.get? hash) with
  | .ok existing => if existing ≠ bytes then .error (.snapshotConflict hash) else .ok []
  | .error (.io .notFound) => .ok [.createSnapshot hash, .snapshotBytes hash bytes]
  | .error e => .error e

/-- The entries before a save: none without an index. -/
def priorEntries (dir : String) (files : TaskDir) : Except Error (List String) :=
  if files.index.isSome then readIndex P (indexPath dir) files.index else .ok []

/-- The part of a save that runs under the lock: the changes it makes. -/
def lockedWrites (dir : String) (files : TaskDir) (request : Request) : Except Error (List Write) := do
  let hash := sourceSha256 P.toPlatform request
  let entries ← priorEntries P dir files
  rejectImmutableChanges P dir files entries request
  let line := indexLine P hash
  failIf (maxStoreFileBytes < (files.index.elim 0 ByteArray.size) + line.utf8ByteSize + 1)
    (.tooLarge "index" maxStoreFileBytes)
  let snapshot ← snapshotWrites dir files hash (requestBytes P request)
  .ok (snapshot ++ [.openIndex, .indexBytes line.toUTF8, .indexBytes "\n".toUTF8])

/-- The checks of a save before it takes the lock. -/
def precheck (request : Request) : Except Error Unit := do
  validateScope request
  failIf (maxStoreFileBytes < (requestBytes P request).size) (.tooLarge "snapshot" maxStoreFileBytes)

/-- The changes a save makes, and the error it ends with if it refuses the history. -/
def saveWrites (dir : String) (files : TaskDir) (request : Request) : List Write × Option Error :=
  match precheck P request with
  | .error e => ([], some e)
  | .ok () =>
    match lockedWrites P dir files request with
    | .error e => ([.createLock], some e)
    | .ok ws => (.createLock :: ws, none)

/-- `save`, when the file system does not fail. -/
def save (dir : String) (files : TaskDir) (request : Request) : TaskDir × Except Error SaveReceipt :=
  let (ws, refusal) := saveWrites P dir files request
  (performAll Write.perform files ws,
    match refusal with
    | some e => .error e
    | none => .ok ⟨"saved", sourceSha256 P.toPlatform request⟩)

/-- The directories that a save leaves when it stops within its writes, because the process crashes or a
call of the file system fails. -/
def StoppedSave (dir : String) (files : TaskDir) (request : Request) (files' : TaskDir) : Prop :=
  Interrupted Write.perform Write.Part files (saveWrites P dir files request).1 files'

end Innen.Middleware.History.Store
