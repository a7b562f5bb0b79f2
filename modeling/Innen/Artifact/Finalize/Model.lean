import Innen.Common.Except
import Innen.Common.FileTree
import Innen.Common.Interrupted
import Innen.Json.Text

/-!
# Finalizing a collection

A plan lists final files and drafts with their hashes. `finalize` checks all of them, copies the final files to a
staging directory, renames that to the collection, and only then removes what the plan lists. Last, it records the
collection in the journal.
-/

namespace Innen.Finalize

open Innen.Common

/-- Why finalizing fails. -/
inductive ArtifactError where
  | io (message : String)
  | journal (message : String)
deriving DecidableEq

/-! ## Plans -/

/-- `PLAN_FORMAT`. -/
def planFormat : String := "innen.final-collection.v1"

/-- A file of a plan: its path as written, where that leads if it is absolute, and the hash of its bytes. -/
structure PlannedFile where
  text : String
  path : Option Path
  sha256 : String

/-- A plan. -/
structure FinalizePlan where
  format : String
  collection : String
  finalFiles : List PlannedFile
  removeFiles : List PlannedFile

/-- The name of the directory of a collection; the checks let only names through. -/
def FinalizePlan.name (plan : FinalizePlan) : Name := plainName plan.collection

/-- Whether a character may stand in the name of a collection. -/
def isSlugChar (c : Char) : Bool := c.isLower || c.isDigit || c == '-'

/-- `valid_collection`. -/
def validCollection (value : String) : Bool :=
  value ≠ "" ∧ value.utf8ByteSize ≤ 64 ∧ value.toList.all isSlugChar ∧ value.toList.head? ≠ some '-' ∧
    value.toList.getLast? ≠ some '-'

/-! ## Where things are -/

/-- What a path leads to, if a link is there. -/
def follow (t : FileTree) (p : Path) : Path :=
  match t.get? p with
  | some (.link resolved) => resolved
  | _ => p

/-- The path of `artifacts` below the output. -/
def artifactsPath (out : Path) : Path := out ++ [plainName "artifacts"]

/-- The path of the collections below the output, as it is written. -/
def collectionsPath (out : Path) : Path := artifactsPath out ++ [plainName "collections"]

/-- Where the collections are. -/
def parentPath (t : FileTree) (out : Path) : Path :=
  follow t (follow t (artifactsPath out) ++ [plainName "collections"])

/-- Where a collection is. -/
def collectionPath (t : FileTree) (out : Path) (collection : Name) : Path := parentPath t out ++ [collection]

/-- The name of the staging directory of a process. -/
def stageName (collection : Name) (pid : ℕ) : Name :=
  ⟨"." ++ collection.1 ++ ".staging-" ++ toString pid, by
    have hdigits : ∀ c ∈ (toString pid).toList, c ≠ '/' ∧ c ≠ '\x00' := by
      intro c hc
      rw [Nat.toString_eq_ofList_toDigits, String.toList_ofList] at hc
      have hdigit := Nat.isDigit_of_mem_toDigits (by decide) (by decide) hc
      constructor <;> rintro rfl <;> exact absurd hdigit (by decide)
    obtain ⟨-, hslash, hnul⟩ := collection.2
    have hfixed : '/' ∉ ".staging-".toList ∧ '\x00' ∉ ".staging-".toList := by decide
    have hdot : '/' ∉ ".".toList ∧ '\x00' ∉ ".".toList := by decide
    refine ⟨?_, ?_, ?_⟩
    · intro h
      have hchars := congrArg String.toList h
      simp [String.toList_append] at hchars
    · simp only [String.toList_append, List.mem_append, not_or]
      exact ⟨⟨⟨hdot.1, hslash⟩, hfixed.1⟩, fun h => (hdigits _ h).1 rfl⟩
    · simp only [String.toList_append, List.mem_append, not_or]
      exact ⟨⟨⟨hdot.2, hnul⟩, hfixed.2⟩, fun h => (hdigits _ h).2 rfl⟩⟩

/-- The staging directory of a process. -/
def stagePath (t : FileTree) (out : Path) (collection : Name) (pid : ℕ) : Path :=
  parentPath t out ++ [stageName collection pid]

/-! ## Checks -/

variable (sha256Hex : List UInt8 → String)

/-- `file_sha256`. -/
def fileSha256 (t : FileTree) (p : Path) : Except ArtifactError (String × ℕ) := do
  let bytes ← okOr (t.bytesAt p) (.io ("open " ++ displayPath p ++ ": No such file or directory (os error 2)"))
  .ok (sha256Hex bytes, bytes.length)

/-- Whether a text can be a hash. -/
def validSha256 (s : String) : Bool :=
  s.utf8ByteSize = 64 ∧ s.toList.all fun c => c.isDigit || ('a' ≤ c && c ≤ 'f') || ('A' ≤ c && c ≤ 'F')

/-- `verified_path`. -/
def verifiedPath (t : FileTree) (out : Path) (entry : PlannedFile) (allowExistingCollection : Bool) :
    Except ArtifactError (Path × ℕ) := do
  let p ← okOr entry.path (.io ("path must be absolute: " ++ entry.text))
  failIf (validSha256 entry.sha256 = false) (.io ("invalid sha256 for " ++ entry.text))
  let node ← okOr (t.get? p) (.io ("metadata " ++ entry.text ++ ": No such file or directory (os error 2)"))
  failIf (node = .dir ∨ node.isLink = true) (.io ("regular file required: " ++ entry.text))
  failIf (¬out <+: p ∨ (allowExistingCollection = false ∧ collectionsPath out <+: p))
    (.io ("file must be in wiki output outside collections: " ++ displayPath p))
  let hash ← fileSha256 sha256Hex t p
  failIf (hash.1 ≠ asciiLower entry.sha256) (.io ("sha256 mismatch: " ++ displayPath p))
  .ok (p, hash.2)

/-- A final file that was checked. -/
structure Final where
  path : Path
  name : Name
  sha256 : String
  bytes : ℕ

/-- A draft that was checked. -/
structure Removal where
  path : Path
  sha256 : String

/-- The name of the manifest in a collection. -/
def manifestName : Name := ⟨"manifest.json", by decide⟩

/-- One final file of the plan. -/
def checkFinal (t : FileTree) (out : Path) (finals : List Final) (entry : PlannedFile) :
    Except ArtifactError (List Final) := do
  let checked ← verifiedPath sha256Hex t out entry false
  let name ← okOr checked.1.getLast? (.io "final file has no name")
  failIf (name = manifestName ∨ name ∈ finals.map Final.name ∨ checked.1 ∈ finals.map Final.path)
    (.io ("duplicate or reserved final file: " ++ displayPath checked.1))
  .ok (finals ++ [⟨checked.1, name, asciiLower entry.sha256, checked.2⟩])

/-- One draft of the plan. -/
def checkRemoval (t : FileTree) (out : Path) (finals : List Final) (removals : List Removal) (entry : PlannedFile) :
    Except ArtifactError (List Removal) := do
  let checked ← verifiedPath sha256Hex t out entry true
  failIf (checked.1 ∈ finals.map Final.path ∨ checked.1 ∈ removals.map Removal.path)
    (.io ("final/removal paths overlap or repeat: " ++ displayPath checked.1))
  .ok (removals ++ [⟨checked.1, asciiLower entry.sha256⟩])

/-- The checks of `finalize` before it writes anything. -/
def check (t : FileTree) (out : Path) (plan : FinalizePlan) : Except ArtifactError (List Final × List Removal) := do
  failIf (plan.format ≠ planFormat ∨ validCollection plan.collection = false ∨ plan.finalFiles = [])
    (.io "plan needs the exact format, a lowercase collection slug and at least one final file")
  failIf (t.pathExists (collectionPath t out plan.name) = true)
    (.io ("collection already exists: " ++ displayPath (collectionsPath out ++ [plan.name])))
  let finals ← plan.finalFiles.foldlM (checkFinal sha256Hex t out) []
  let removals ← plan.removeFiles.foldlM (checkRemoval sha256Hex t out finals) []
  .ok (finals, removals)

/-! ## Writes -/

/-- The files and the nodes that the journal was given. -/
structure Work where
  tree : FileTree
  records : List Fields

/-- One write of `finalize`. -/
inductive Write where
  | mkdir (p : Path)
  | file (p : Path) (bytes : List UInt8)
  | rename (src dst : Path)
  | remove (p : Path)
  | rmdir (p : Path)
  | record (node : Fields)
deriving DecidableEq

/-- The effect of a write. -/
def Write.perform (w : Write) (s : Work) : Work :=
  match w with
  | .mkdir p => { s with tree := s.tree.mkdir p }
  | .file p bytes => { s with tree := s.tree.put p (.file bytes) }
  | .rename src dst => { s with tree := s.tree.rename src dst }
  | .remove p => { s with tree := s.tree.removeAll p }
  | .rmdir p => { s with tree := s.tree.rmdir p }
  | .record node => { s with records := s.records ++ [node] }

/-- What a write leaves that stops: nothing, all of it, or of a file the first bytes. -/
inductive Write.Part : Write → Work → Work → Prop
  | before {w : Write} {s : Work} : w.Part s s
  | whole {w : Write} {s : Work} : w.Part s (w.perform s)
  | file {p : Path} {bytes : List UInt8} {s : Work} (n : ℕ) :
      (Write.file p bytes).Part s ((Write.file p (bytes.take n)).perform s)

/-- A part of `finalize` that nothing stops. -/
abbrev Task := Course Write ArtifactError

/-! ## Publishing -/

/-- The error of a write that the file system refuses. -/
def refused (what : String) (p : Path) (why : String) : ArtifactError := .io (what ++ " " ++ displayPath p ++ ": " ++ why)

/-- One level of `create_dir_all`. -/
def enterDir (p : Path) (s : Work) : Task :=
  match s.tree.get? p with
  | none =>
    if s.tree.get? p.dropLast = some .dir then ⟨[.mkdir p], .ok ()⟩
    else .plain (.error (refused "create_dir" p "Not a directory (os error 20)"))
  | some .dir => .plain (.ok ())
  | some (.link resolved) =>
    if s.tree.get? resolved = some .dir then .plain (.ok ())
    else .plain (.error (refused "create_dir" p "File exists (os error 17)"))
  | some (.file _) => .plain (.error (refused "create_dir" p "Not a directory (os error 20)"))

/-- `create_dir_all` of the directory of the collections; the output is there. -/
def createParent (out : Path) (s : Work) : Task :=
  (enterDir (artifactsPath out) s).andThen Write.perform s fun s' =>
    enterDir (follow s'.tree (artifactsPath out) ++ [plainName "collections"]) s'

/-- `create_dir`. -/
def createDir (p : Path) (s : Work) : Task :=
  if (s.tree.get? p).isSome then .plain (.error (refused "create_dir" p "File exists (os error 17)"))
  else ⟨[.mkdir p], .ok ()⟩

/-- One final file is copied, and the copy is hashed. -/
def copyFinal (stage : Path) (f : Final) (s : Work) : Task :=
  match s.tree.bytesAt f.path with
  | none => .plain (.error (refused "copy" f.path "No such file or directory (os error 2)"))
  | some bytes => (⟨[.file (stage ++ [f.name]) bytes], .ok ()⟩ : Task).andThen Write.perform s fun s' =>
      .plain do
        let hash ← fileSha256 sha256Hex s'.tree (stage ++ [f.name])
        failIf (hash.1 ≠ f.sha256) (.io ("copied bytes differ: " ++ displayPath (stage ++ [f.name])))

/-- The bytes of a text. -/
def textBytes (s : String) : List UInt8 := s.toUTF8.data.toList

/-- One file of the manifest. -/
def manifestFile (f : Final) : String :=
  "    \x7b\n      \"name\": " ++ quote f.name.1 ++ ",\n      \"sha256\": " ++ quote f.sha256 ++
    ",\n      \"bytes\": " ++ toString f.bytes ++ "\n    \x7d"

/-- The manifest of a collection. -/
def manifestText (plan : FinalizePlan) (finals : List Final) : String :=
  "\x7b\n  \"format\": " ++ quote planFormat ++ ",\n  \"collection\": " ++ quote plan.collection ++
    ",\n  \"files\": [\n" ++ ",\n".intercalate (finals.map manifestFile) ++ "\n  ]\n\x7d"

/-- `rename` of the staging directory: only to a path where nothing is. -/
def publishStage (stage collection : Path) (s : Work) : Task :=
  if (s.tree.get? collection).isSome then
    .plain (.error (refused ("publish " ++ displayPath stage ++ " ->") collection "Not a directory (os error 20)"))
  else ⟨[.rename stage collection], .ok ()⟩

/-- What stands in the staging directory is filled in and published. -/
def fillStage (plan : FinalizePlan) (finals : List Final) (stage collection : Path) (s : Work) : Task :=
  (Course.forEach Write.perform (copyFinal sha256Hex stage) finals s).andThen Write.perform s fun s' =>
    (⟨[.file (stage ++ [manifestName]) (textBytes (manifestText plan finals))], .ok ()⟩ : Task).andThen Write.perform s'
      (publishStage stage collection)

/-! ## Removing -/

/-- The directories above a file that may be removed with it, the nearest first. -/
def prunable (out p : Path) : List Path := p.inits.reverse.tail.takeWhile fun d => d ≠ out ∧ out <+: d

/-- `prune_empty_parents`, which stops at a directory that the file system does not remove. -/
def pruneWrites (stuck : Path → Bool) (t : FileTree) : List Path → List Write
  | [] => []
  | d :: rest => if t.isEmptyDir d && !stuck d then .rmdir d :: pruneWrites stuck (t.rmdir d) rest else []

/-- A listed file is removed if it still has its hash, and the directories that are empty then. -/
def removeListed (stuck : Path → Bool) (out : Path) (changed : String) (r : Removal) (s : Work) : Task :=
  match fileSha256 sha256Hex s.tree r.path with
  | .error e => .plain (.error e)
  | .ok hash =>
    if hash.1 ≠ r.sha256 then .plain (.error (.io (changed ++ displayPath r.path)))
    else ⟨.remove r.path :: pruneWrites stuck (s.tree.removeAll r.path) (prunable out r.path), .ok ()⟩

/-- The node of a collection. -/
def collectionNode (plan : FinalizePlan) (collection : Path) : Fields :=
  [("id", .string ("collection:" ++ plan.collection)), ("label", .string plan.collection),
    ("path", .string (displayPath collection)), ("provenance", .string "final-only artifact collection"),
    ("type", .string "artifact_collection")]

/-- What follows the publication: the listed files are removed, and the journal is given the node. -/
def afterPublish (stuck : Path → Bool) (out : Path) (plan : FinalizePlan) (finals : List Final) (removals : List Removal)
    (collection : Path) (s : Work) : Task :=
  (Course.forEach Write.perform (removeListed sha256Hex stuck out "source changed after publish: ")
      (finals.map fun f => ⟨f.path, f.sha256⟩) s).andThen Write.perform s fun s' =>
    (Course.forEach Write.perform (removeListed sha256Hex stuck out "draft changed after publish: ") removals s').andThen
      Write.perform s' fun _ => ⟨[.record (collectionNode plan collection)], .ok ()⟩

/-! ## Finalizing -/

/-- The staging directory is made. -/
def openStage (out : Path) (plan : FinalizePlan) (pid : ℕ) (s : Work) : Task :=
  (createParent out s).andThen Write.perform s (createDir (stagePath s.tree out plan.name pid))

/-- `finalize` in apply mode; the directories that are `stuck` cannot be removed. -/
def finalize (stuck : Path → Bool) (out : Path) (plan : FinalizePlan) (pid : ℕ) (s : Work) : Task :=
  match check sha256Hex s.tree out plan with
  | .error e => .plain (.error e)
  | .ok checked =>
    let collection := collectionPath s.tree out plan.name
    (openStage out plan pid s).andThen Write.perform s fun s₁ =>
      (fillStage sha256Hex plan checked.1 (stagePath s.tree out plan.name pid) collection s₁).andThen Write.perform s₁
        (afterPublish sha256Hex stuck out plan checked.1 checked.2 collection)

end Innen.Finalize
