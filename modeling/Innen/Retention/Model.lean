import Innen.Common.Except
import Innen.Common.FileTree
import Innen.Conversation.Page
import Mathlib.Data.List.Sort

/-!
# Retention of native sessions

A session of another tool may be deleted once what was learned from it is recorded. A candidate is such a session; its
targets are the files and directories that hold its native bytes.
-/

namespace Innen.Retention

open Innen.Common Innen.Conversation

/-! ## Errors and candidates -/

/-- Why retention refuses something. -/
inductive RetentionError where
  | conversation (message : String)
  | journal (message : String)
  | io (path message : String)
  | proof (message : String)
  | purge (message : String)
deriving DecidableEq

/-- The text of an error (`Display`). -/
def RetentionError.text : RetentionError → String
  | .conversation message => "conversation: " ++ message
  | .journal message => "journal: " ++ message
  | .io path message => "io " ++ path ++ ": " ++ message
  | .proof message => "retention proof rejected: " ++ message
  | .purge message => "purge failed: " ++ message

/-- A native session. Its id has passed `validate_id`, so it can be the name of a file. -/
structure Candidate where
  id : Name
  source : Source
  modified : Option String
  path : Path
  project : Option String
  parentId : Option String
deriving DecidableEq

/-- A fingerprint of the native bytes of a session. -/
structure Bundle where
  sha256 : String
  bytes : ℕ
  targets : List Path
deriving DecidableEq

/-- What is found out about a candidate. -/
structure Assessment where
  sessionId : String
  source : String
  modified : Option String
  cutoffUtc : String
  sourceBytes : ℕ
  sourceSha256 : String
  eligible : Bool
  blockers : List String
  blockerCodes : List String
  targets : List Path
deriving DecidableEq

/-! ## Paths -/

/-- The error of a path. -/
def ioError (p : Path) (message : String) : RetentionError := .io (displayPath p) message

/-- `Path::parent`. -/
def parent? (p : Path) : Option Path := if p = [] then none else some p.dropLast

/-- `Path::file_name`. -/
def fileName? (p : Path) : Option Name := p.getLast?

/-- `Path::ancestors`: the path, then what is above it, up to the root. -/
def ancestors (p : Path) : List Path := p.inits.reverse

/-- `Path::file_stem`: a name without what follows its last dot, unless the name starts there. -/
def fileStem (name : String) : String :=
  let stem := name.toList.rdropWhile (· ≠ '.')
  if stem.length ≤ 1 then name else String.ofList stem.dropLast

/-- The name of the database of an Antigravity conversation. -/
def databaseName (id : Name) : Name :=
  ⟨id.1 ++ ".db", by
    obtain ⟨hne, hslash, hnul⟩ := id.2
    have htail : '/' ∉ ".db".toList ∧ '\x00' ∉ ".db".toList := by decide
    refine ⟨fun h => hne ?_, ?_, ?_⟩
    · have hlist := congrArg String.toList h
      rw [String.toList_append] at hlist
      exact String.toList_inj.mp (List.append_eq_nil_iff.mp hlist).1
    · rw [String.toList_append, List.mem_append]
      exact fun h => h.elim hslash htail.1
    · rw [String.toList_append, List.mem_append]
      exact fun h => h.elim hnul htail.2⟩

/-- The directory of transcripts in an Antigravity store. -/
def brainName : Name := ⟨"brain", by decide⟩

/-- The directory of databases in an Antigravity store. -/
def conversationsName : Name := ⟨"conversations", by decide⟩

/-! ## Targets -/

/-- The directory of an Antigravity session in the brain, and the path itself if it is the database of one. -/
def brainSession (t : FileTree) (path : Path) (id : Name) : Option Path × List Path :=
  match (ancestors path).find? fun p => fileName? p = some id with
  | some session => (some session, [])
  | none =>
    if (fileName? path).map (fileStem ·.1) = some id.1 ∧ (parent? path).bind fileName? = some conversationsName then
      (((parent? path).bind parent?).map (· ++ [brainName, id]), if t.pathExists path then [path] else [])
    else (none, [])

/-- The database next to the brain that holds a session. -/
def siblingDatabase (session : Path) (id : Name) : Option Path := do
  let brain ← parent? session
  if fileName? brain = some brainName then
    let store ← parent? brain
    some (store ++ [conversationsName, databaseName id])
  else none

/-- `antigravity_targets`: what exists of a session, sorted, each path once. -/
def antigravityTargets (t : FileTree) (path : Path) (id : Name) : List Path :=
  let found := brainSession t path id
  let inBrain := match found.1 with
    | some session => [session] ++ (siblingDatabase session id).toList
    | none => []
  ((found.2 ++ inBrain.filter t.pathExists).insertionSort (· ≤ ·)).dedup

/-- `candidate_targets`. -/
def candidateTargets (t : FileTree) (c : Candidate) : List Path :=
  if c.source = .antigravity then antigravityTargets t c.path c.id else [c.path]

end Innen.Retention
