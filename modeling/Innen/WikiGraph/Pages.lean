import Innen.Common.SortedMap
import Innen.Json.Value
import Mathlib.Data.Prod.Lex

/-!
# Wiki pages and their references

A page names its sources and its related pages by text: the id of a node, the path or the base name of another page, a
conversation, a URL or a file. What is here reads such a text; the graph is only needed for ids.
-/

namespace Innen.WikiGraph

open Common

/-! ## Pages -/

/-- What the frontmatter and the body of a page say, once it could be parsed. -/
structure PageText where
  title : String
  tags : List String
  sources : List String
  related : List String
  explicitId : Option String
  body : String
  sha256 : String

/-- A Markdown file below `02-wiki`: its relative path as text, and what could be parsed. -/
structure PageFile where
  relative : String
  text : Option PageText

/-- `WikiPage`. -/
structure WikiPage where
  path : String
  wikiPath : String
  title : String
  tags : List String
  sources : List String
  related : List String
  explicitId : Option String
  body : String
  sha256 : String
  id : String

/-! ## File paths -/

/-- A path without links: whether it starts at the root, and its components. -/
structure FilePath where
  absolute : Bool
  parts : List String
deriving DecidableEq

/-- `Path::components` without `.`. -/
def FilePath.parse (text : String) : FilePath :=
  ⟨startsWith text "/", ((text.toList.splitOn '/').map String.ofList).filter fun part => part ≠ "" ∧ part ≠ "."⟩

/-- `Path::join`. -/
def FilePath.join (base rel : FilePath) : FilePath :=
  if rel.absolute then rel else ⟨base.absolute, base.parts ++ rel.parts⟩

/-- `lexical_normalize`: a `..` takes the component before it away. -/
def FilePath.normalize (path : FilePath) : FilePath :=
  ⟨path.absolute, path.parts.foldl (fun out part => if part = ".." then out.dropLast else out ++ [part]) []⟩

/-- `to_string_lossy`. -/
def FilePath.text (path : FilePath) : String :=
  (if path.absolute then "/" else "") ++ "/".intercalate path.parts

/-- `Path::starts_with`. -/
def FilePath.startsWith (path base : FilePath) : Bool :=
  path.absolute = base.absolute && base.parts.isPrefixOf path.parts

/-- Where the pages are and what `~` is. -/
structure Place where
  root : FilePath
  home : Option String

/-- `parse_page`, for a file whose text could be parsed. -/
def parsePage (place : Place) (relative : String) (text : PageText) : WikiPage where
  path := (place.root.join ⟨false, ["02-wiki"]⟩).text ++ "/" ++ relative
  wikiPath := replaceText relative "\\" "/"
  title := text.title
  tags := text.tags
  sources := text.sources
  related := text.related
  explicitId := text.explicitId
  body := text.body
  sha256 := text.sha256
  id := ""

/-! ## References to pages -/

/-- `trim_start_matches` with a text, at most so many times. -/
def trimStartMatches (start : String) : ℕ → String → String
  | 0, s => s
  | n + 1, s =>
    match stripStart s start with
    | some rest => trimStartMatches start n rest
    | none => s

/-- The text before the first occurrence of a character. -/
def beforeChar (c : Char) (s : String) : String := String.ofList (s.toList.takeWhile (· ≠ c))

/-- A reference without its brackets, its title and its anchor. -/
def unwrappedRef (reference : String) : String :=
  let value := trim reference
  let inner := ((stripStart value "[[").bind (stripEnd · "]]")).getD value
  replaceText (trim (beforeChar '#' (beforeChar '|' inner))) "\\" "/"

/-- `wiki_ref_key`. -/
def wikiRefKey (reference : String) : String :=
  let value := unwrappedRef reference
  let local' := trimStartMatches "./" value.length value
  let inside := trimStartMatches "02-wiki/" local'.length local'
  (stripEnd inside ".md").getD inside

/-- What a reference to a page resolves to. -/
inductive Resolution where
  | one (id : String)
  | missing
  | ambiguous (ids : List String)
deriving DecidableEq

/-- `unique`. -/
def unique (ids : List String) : Resolution :=
  match (SortedSet.ofList ids).elems with
  | [] => .missing
  | [id] => .one id
  | ids => .ambiguous ids

/-- The path of a page without its extension. -/
def WikiPage.stem (page : WikiPage) : String := (stripEnd page.wikiPath ".md").getD page.wikiPath

/-- The last component of the stem. -/
def WikiPage.base (page : WikiPage) : String :=
  String.ofList ((page.stem.toList.splitOn '/').getLast?.getD [])

/-- `WikiResolver`, with a list of ids for each path and for each base name. -/
structure WikiResolver where
  byPath : SortedMap String (List String)
  byBasename : SortedMap String (List String)

/-- `WikiResolver::new`. -/
def WikiResolver.new (pages : List WikiPage) : WikiResolver :=
  ⟨.groupBy WikiPage.stem WikiPage.id pages, .groupBy WikiPage.base WikiPage.id pages⟩

/-- `WikiResolver::resolve`. -/
def WikiResolver.resolve (resolver : WikiResolver) (reference : String) : Resolution :=
  let key := wikiRefKey reference
  match resolver.byPath.get? key with
  | some ids => unique ids
  | none =>
    match resolver.byBasename.get? key with
    | some ids => unique ids
    | none => .missing

/-! ## Other sources -/

/-- `conversation_ref`. -/
def conversationRef (value : String) : Option (String × String) :=
  match splitOnce value ":" with
  | none => none
  | some (kind, rest) =>
    if kind ≠ "conversation" then none
    else
      match splitOnce rest ":" with
      | none => none
      | some (source, sessionId) => if source ≠ "" ∧ sessionId ≠ "" then some (source, sessionId) else none

/-- `absolute_local_path`. -/
def absoluteLocalPath (place : Place) (reference : String) : Option FilePath :=
  match stripStart reference "~/" with
  | some relative => place.home.map fun home => ((FilePath.parse home).join (.parse relative)).normalize
  | none =>
    let path := FilePath.parse reference
    if path.absolute then some path.normalize
    else
      let joined := (place.root.join path).normalize
      if joined.startsWith place.root then some joined else none

/-- What a source node says about where its source is. -/
inductive Locator where
  | conversation (source sessionId : String)
  | url (url : String)
  | file (path : String)

/-- The fields of a locator. -/
def Locator.fields : Locator → Fields
  | .conversation source sessionId =>
    [("kind", .string "conversation"), ("session_id", .string sessionId), ("source", .string source)]
  | .url address => [("kind", .string "url"), ("url", .string address)]
  | .file path => [("kind", .string "file"), ("path", .string path)]

/-- The locator of a source that is no page; a path that leaves the root has none. -/
def locatorOf (place : Place) (raw : String) : Option Locator :=
  match conversationRef raw with
  | some (source, sessionId) => some (.conversation source sessionId)
  | none =>
    if startsWith raw "http://" ∨ startsWith raw "https://" then some (.url raw)
    else (absoluteLocalPath place (unwrappedRef raw)).map fun path => .file path.text

theorem Locator.wf (locator : Locator) : (Value.object locator.fields).WF := by
  cases locator with
  | conversation source sessionId =>
    exact Value.wf_object.mpr
      ⟨Assoc.ascending_of_keys (by decide : ["kind", "session_id", "source"].Pairwise (· < ·)), by simp [fields]⟩
  | url address =>
    exact Value.wf_object.mpr ⟨Assoc.ascending_of_keys (by decide : ["kind", "url"].Pairwise (· < ·)), by simp [fields]⟩
  | file path =>
    exact Value.wf_object.mpr
      ⟨Assoc.ascending_of_keys (by decide : ["kind", "path"].Pairwise (· < ·)), by simp [fields]⟩

end Innen.WikiGraph
