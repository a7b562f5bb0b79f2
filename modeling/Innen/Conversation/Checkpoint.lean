import Innen.Common.ByteLines
import Innen.Common.Except
import Innen.Conversation.Page

/-!
# Checkpoints

A checkpoint is recorded as one JSON line in `checkpoints.jsonl`. The reader is strict: one line that is
no checkpoint makes it fail.
-/

namespace Innen.Conversation

open Innen.Common

/-- The state of the work at a checkpoint. -/
inductive CheckpointStatus where
  | active | blocked | completed | superseded
deriving DecidableEq

/-- `CheckpointStatus::as_str`, also its text in JSON. -/
def CheckpointStatus.asStr : CheckpointStatus → String
  | .active => "active"
  | .blocked => "blocked"
  | .completed => "completed"
  | .superseded => "superseded"

/-- A checkpoint; `project` is a path whose name is text. -/
structure Checkpoint where
  session : String
  source : Source
  project : String
  status : CheckpointStatus
  objective : String
  completedWork : List String
  currentEvidence : List String
  blockers : List String
  nextAction : String
  verification : String
  updatedAt : String
deriving DecidableEq

/-- A checkpoint as a struct, in declaration order. -/
def Checkpoint.fields (c : Checkpoint) : Fields :=
  [("session", .string c.session), ("source", .string c.source.asStr), ("project", .string c.project),
    ("status", .string c.status.asStr), ("objective", .string c.objective),
    ("completed_work", .array (c.completedWork.map .string)),
    ("current_evidence", .array (c.currentEvidence.map .string)),
    ("blockers", .array (c.blockers.map .string)), ("next_action", .string c.nextAction),
    ("verification", .string c.verification), ("updated_at", .string c.updatedAt)]

/-- The JSON text of a checkpoint, which holds no floats. -/
def checkpointText (c : Checkpoint) : String := structText (fun _ => "") c.fields

section Load

-- `serde_json::from_str::<Checkpoint>`, with its message
variable (parseCheckpoint : String → Except String Checkpoint)

/-- One line of the file; lines are counted from 0. -/
def loadLine (path : String) (records : List Checkpoint) (e : Option String × ℕ) :
    Except ReadError (List Checkpoint) :=
  match e.1 with
  | none => .error ⟨"error reading " ++ path ++ ":" ++ toString (e.2 + 1) ++
      ": stream did not contain valid UTF-8"⟩
  | some line =>
    if trim line = "" then .ok records
    else match parseCheckpoint (trim line) with
      | .error m => .error ⟨"invalid checkpoint JSON in " ++ path ++ ":" ++ toString (e.2 + 1) ++ ": " ++ m⟩
      | .ok c => .ok (records ++ [c])

/-- `load_checkpoints`; `path` is the path of the file. -/
def loadCheckpoints (path : String) (file : Option ByteArray) : Except ReadError (List Checkpoint) :=
  match file with
  | none => .ok []
  | some bytes => (bufLines bytes).zipIdx.foldlM (loadLine parseCheckpoint path) []

end Load

/-! ## The text of a checkpoint -/

theorem oneLine_checkpointText (c : Checkpoint) : OneLine (checkpointText c) := by
  have hempty : OneLine "" := by decide
  exact oneLine_structText (fun _ => hempty) c.fields

theorem trim_checkpointText (c : Checkpoint) : trim (checkpointText c) = checkpointText c := by
  have hchars : (checkpointText c).toList =
      '\x7b' :: ((Value.fieldsText (fun _ => "") c.fields).toList ++ ['\x7d']) := by
    simp [checkpointText, structText, String.toList_append]
  exact trim_of_ends hchars (by decide) (by decide)

theorem checkpointText_ne_empty (c : Checkpoint) : checkpointText c ≠ "" := by
  intro h
  have hchars := congrArg String.toList h
  simp [checkpointText, structText, String.toList_append] at hchars

variable {parseCheckpoint : String → Except String Checkpoint}

/-- A file of whole lines is read back, one checkpoint a line. -/
theorem foldlM_loadLine {cs : List Checkpoint} (hparse : ∀ c ∈ cs, parseCheckpoint (checkpointText c) = .ok c)
    (path : String) (n : ℕ) (records : List Checkpoint) :
    ((cs.map fun c => some (checkpointText c)).zipIdx n).foldlM (loadLine parseCheckpoint path) records =
      .ok (records ++ cs) := by
  induction cs generalizing n records with
  | nil => simp; rfl
  | cons c rest ih =>
    have hone : loadLine parseCheckpoint path records (some (checkpointText c), n) = .ok (records ++ [c]) := by
      simp [loadLine, trim_checkpointText, checkpointText_ne_empty, hparse c List.mem_cons_self]
    rw [List.map_cons, List.zipIdx_cons, List.foldlM_cons, hone]
    simp only [bind, Except.bind]
    rw [ih (fun c' hc' => hparse c' (List.mem_cons_of_mem c hc')), List.append_assoc]
    rfl

/-- Reading whole lines gives their checkpoints. -/
theorem loadCheckpoints_of_lines {cs : List Checkpoint}
    (hparse : ∀ c ∈ cs, parseCheckpoint (checkpointText c) = .ok c) (path : String) {text : String}
    (hlines : lines text = cs.map checkpointText) :
    loadCheckpoints parseCheckpoint path (some text.toByteArray) = .ok cs := by
  rw [loadCheckpoints, bufLines_toByteArray, hlines, List.map_map]
  exact (foldlM_loadLine hparse path 0 []).trans (by rw [List.nil_append])

theorem lines_checkpointTexts (cs : List Checkpoint) :
    lines (joinLines (cs.map checkpointText)) = cs.map checkpointText := by
  have hone : ∀ l ∈ cs.map checkpointText, OneLine l := by
    intro l hl
    obtain ⟨c, -, rfl⟩ := List.mem_map.mp hl
    exact oneLine_checkpointText c
  have hstrip : ∀ l ∈ cs.map checkpointText, stripCr l = id l :=
    fun l hl => stripCr_of_getLast? (hone l hl).getLast?_ne
  rw [lines_joinLines fun l hl => (hone l hl).newline_not_mem, List.map_congr_left hstrip, List.map_id]

/-- The last line may lack its newline. -/
theorem lines_checkpointTexts_concat (cs : List Checkpoint) (c : Checkpoint) :
    lines (joinLines (cs.map checkpointText) ++ checkpointText c) = (cs ++ [c]).map checkpointText := by
  rw [lines_append (terminated_joinLines _), lines_checkpointTexts,
    lines_of_not_mem (oneLine_checkpointText c).newline_not_mem (checkpointText_ne_empty c), List.map_append]
  rfl

/-- A missing log is an empty one. -/
theorem loadCheckpoints_getD (path : String) (file : Option ByteArray) :
    loadCheckpoints parseCheckpoint path file = loadCheckpoints parseCheckpoint path (some (file.getD .empty)) := by
  cases file <;> rfl

end Innen.Conversation
