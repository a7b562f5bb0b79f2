import Innen.Common.Segments
import Innen.Common.SortedMap
import Innen.Common.Text

/-!
# Deliverables of a handoff

A handoff lists the files that a conversation wrote, claimed or attached, by directory. Spellings of one path are
merged, a relative path moves to the one absolute directory that ends like it, and the directory that all absolute
ones share is stated once.
-/

namespace Innen.Conversation.Handoff

open Innen.Common Innen.Common.Segments

/-- What is known of a file, one bit each. -/
abbrev Flags := BitVec 8

/-- Written. -/
def W : Flags := 1
/-- Claimed. -/
def C : Flags := 2
/-- Attached. -/
def A : Flags := 4

/-- `MAX_FILES`. -/
def maxFiles : ℕ := 60

/-- `//a/b` and `/a//b` are the same path. -/
def tidy (path : String) : String :=
  let out := ((path.toList.splitOn '/').filter fun part => part ≠ [] ∧ part ≠ ['.']).flatMap ('/' :: ·)
  if startsWith path "/" then String.ofList out else String.ofList (out.dropWhile (· = '/'))

/-- `split_path`: the directory and the name. -/
def splitPath (path : String) : String × String :=
  (String.ofList (before '/' path.toList), String.ofList (after '/' path.toList))

/-- `common_root`: the longest directory that all share, if it has at least two components. -/
def commonRoot (dirs : List String) : String :=
  let pieces := dirs.map fun dir => dir.toList.splitOn '/'
  let parts := pieces.foldl common (pieces.head?.getD [])
  if parts.length < 3 then "" else String.ofList (['/'].intercalate parts)

/-- Files under new names, where those of one name are merged. -/
def mergeBy (name : String → String) (files : SortedMap String Flags) : SortedMap String Flags :=
  files.entries.foldl (fun acc e => acc.upsert (name e.1) 0 (· ||| e.2)) ∅

/-- The directories of the absolute paths. -/
def absoluteDirs (files : SortedMap String Flags) : List String :=
  (files.keys.filter fun path => startsWith path "/").map fun path => (splitPath path).1

/-- The path a file is merged under: a relative one whose directory is the tail of exactly one absolute directory
moves there. -/
def keyOf (absoluteDirs : List String) (path : String) : String :=
  let (dir, name) := splitPath path
  if startsWith path "/" = false ∧ dir ≠ "" then
    match absoluteDirs.filter fun d => (stripEnd d ("/" ++ dir)).isSome with
    | abs :: hits => if hits.all fun d => d = abs then abs ++ "/" ++ name else path
    | [] => path
  else path

/-- The table that is printed, before it is cut. -/
def merged (files : SortedMap String Flags) : SortedMap String Flags :=
  let files := mergeBy tidy files
  mergeBy (keyOf (absoluteDirs files)) files

/-- The directory shown for a path. -/
def shownDir (root path : String) : String :=
  let dir := (splitPath path).1
  let shown := match stripStart dir root with
    | some rest => if root ≠ "" then String.ofList (rest.toList.dropWhile (· = '/')) else dir
    | none => dir
  if shown = "" ∧ root ≠ "" ∧ startsWith path "/" then "." else shown

/-- The letters of the flags. -/
def tagOf (flags : Flags) : List Char :=
  ([(W, 'W'), (C, 'C'), (A, 'A')].filter fun e => flags &&& e.1 ≠ 0).map Prod.snd

/-- A file in its group. -/
def fileLine (path : String) (flags : Flags) : String :=
  (splitPath path).2 ++ "[" ++ String.ofList (tagOf flags) ++ "]"

structure Grouped where
  root : String
  groups : List (String × List String)
  warnings : List String
deriving DecidableEq

/-- `overflow`, for files. -/
def overflowWarnings (total : ℕ) : List String :=
  if total > maxFiles then
    ["files: showing " ++ toString maxFiles ++ " of " ++ toString total ++ "; expand with --view events"]
  else []

/-- `group_files`. -/
def groupFiles (files : SortedMap String Flags) : Grouped :=
  let merged := merged files
  let kept := merged.entries.take maxFiles
  let root := commonRoot ((kept.filter fun e => startsWith e.1 "/").map fun e => (splitPath e.1).1)
  let grouped := SortedMap.groupBy (fun e => shownDir root e.1) (fun e => fileLine e.1 e.2) kept
  ⟨root, grouped.entries, overflowWarnings merged.entries.length⟩

end Innen.Conversation.Handoff
