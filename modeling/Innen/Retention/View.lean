import Innen.Retention.Fingerprint

/-!
# What the machine answers

Everything that is asked of the machine at one moment: the tree of files, who holds what open, and what the databases
and commands of other tools return.
-/

namespace Innen.Retention

open Innen.Common Innen.Conversation

/-- The machine at one moment. -/
structure View where
  tree : FileTree
  /-- The device and the inode of a path. -/
  identity : Path → ℕ × ℕ
  /-- What the processes that can be looked at hold open, if `/proc` can be listed. -/
  openPaths : Except String (List Path)
  /-- The rows of an OpenCode session, as they are serialised. -/
  sessionRows : Except RetentionError (List UInt8)
  /-- The children of an OpenCode session. -/
  childSessions : Except RetentionError (List String)
  /-- The state of an Antigravity session in the summary database. -/
  summaryRows : Except RetentionError (List Value)
  /-- The tables of an index database. -/
  tables : Path → List String
  /-- `run_sqlite_mutation`, which changes no row here that is asked for again. -/
  mutate : Path → String → Except RetentionError Unit
  /-- The tree after the delete command of a tool. -/
  runDelete : List String → Except RetentionError FileTree

/-! ## Bundles -/

/-- `fs::read` of a path, through a link. -/
def readFile (t : FileTree) (p : Path) : Except RetentionError (List UInt8) :=
  match t.canonicalize? p with
  | none => .error (ioError p "No such file or directory (os error 2)")
  | some q => okOr (t.bytesAt q) (ioError p "Is a directory (os error 21)")

/-- `bundle`. -/
def bundle (sha256 : List UInt8 → String) (v : View) (c : Candidate) : Except RetentionError Bundle :=
  match c.source with
  | .opencode => v.sessionRows.map fun rows => ⟨sha256 rows, rows.length, [c.path]⟩
  | .antigravity => hashTargets sha256 v.tree (antigravityTargets v.tree c.path c.id)
  | _ => (readFile v.tree c.path).map fun bytes => ⟨sha256 bytes, bytes.length, [c.path]⟩

/-- The files that a bundle is read from. -/
def hashedPaths (t : FileTree) (c : Candidate) : Except RetentionError (List Path) :=
  match c.source with
  | .opencode => .ok []
  | .antigravity => (bundlePaths t (antigravityTargets t c.path c.id)).map (·.map Prod.snd)
  | _ => .ok [c.path]

/-! ## Open handles -/

/-- Whether a session is in use. -/
inductive Activity where
  | idle
  | active
  | unknown (detail : String)
deriving DecidableEq

/-- `session_activity`: an open file at or below a target. -/
def sessionActivity (v : View) (targets : List Path) : Activity :=
  if targets = [] then .idle
  else match v.openPaths with
    | .error message => .unknown ("cannot inspect /proc: " ++ message)
    | .ok paths =>
      if paths.any fun p => (targets.filterMap v.tree.canonicalize?).any fun target => decide (target <+: p) then .active
      else .idle

/-- `liveness_targets`: the targets that only this session uses. -/
def livenessTargets (source : Source) (targets : List Path) : List Path :=
  if source = .opencode then [] else targets

/-! ## Identities -/

/-- `snapshot_target_identities`. -/
def snapshotIdentities (v : View) (targets : List Path) : Except RetentionError (List (Path × ℕ × ℕ)) :=
  targets.mapM fun p =>
    match v.tree.get? p with
    | none => .error (ioError p "No such file or directory (os error 2)")
    | some node =>
      if node.isLink then .error (.purge ("purge target is a symlink: " ++ displayPath p)) else .ok (p, v.identity p)

/-- `verify_target_identities`. -/
def verifyIdentities (v : View) (expected : List (Path × ℕ × ℕ)) : Except RetentionError Unit :=
  expected.foldlM (fun _ e =>
    match v.tree.get? e.1 with
    | none => .error (ioError e.1 "No such file or directory (os error 2)")
    | some node => failIf (node.isLink = true ∨ v.identity e.1 ≠ e.2)
        (.purge ("purge target identity changed: " ++ displayPath e.1))) ()

end Innen.Retention
