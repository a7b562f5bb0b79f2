import Innen.Graph.Adjacency
import Innen.Json.Value
import Innen.Trace.Lexical
import Innen.WikiGraph.Sync

/-!
# Routes to sources

From the nodes that match a query the best ones are seeds. A walk visits nodes best score first, along links that are
valid now and in a direction that is permitted for their kind. What it visits may be or name a source. The walk stops
when nothing is pending or when enough nodes are visited, and says when a budget cut it short.
-/

namespace Innen.Trace

open Common Graph

/-! ## The graph -/

/-- `Locator`: where a source is. -/
inductive Locator where
  | file (path : String)
  | conversation (source sessionId : String) (sourceRoot : Option String)
  | url (url : String)
deriving DecidableEq

/-- Whether a source is not on this machine. -/
def Locator.remote : Locator → Bool
  | .url _ => true
  | _ => false

/-- `Link`. -/
structure Link where
  «from» : String
  «to» : String
  kind : String
  provenance : Option String
  validFrom : String
  validUntil : Option String

/-- `GraphCache`: the nodes and live links of a journal, and the documents of the nodes that may be found. -/
structure GraphCache where
  nodes : SortedMap String Value
  links : List Link
  docs : List LexDoc

/-- `kind`. -/
def kindOf (T : Tables) (node : Value) : String := T.lower (((node.get? "type").bind Value.asStr?).getD "")

/-! ## Locators of nodes -/

/-- A locator that was written as JSON. -/
def locatorOfJson (value : Value) : Option Locator := do
  match ← (value.get? "kind").bind Value.asStr? with
  | "file" => return .file (← (value.get? "path").bind Value.asStr?)
  | "conversation" =>
    let source ← (value.get? "source").bind Value.asStr?
    let sessionId ← (value.get? "session_id").bind Value.asStr?
    match value.get? "source_root" with
    | none | some .null => return .conversation source sessionId none
    | some (.string root) => return .conversation source sessionId (some root)
    | some _ => none
  | "url" => return .url (← (value.get? "url").bind Value.asStr?)
  | _ => none

/-- The names that `Source::parse` knows. -/
def knownSources : List String :=
  ["agy", "antigravity", "codex", "claude", "gemini", "mcode", "minimax", "opencode", "grok", "copilot", "cursor",
    "vscode", "qwen"]

/-- The locator of a conversation node by its id; `some none` if it has to have none. -/
def conversationLocator (node : Value) : Option (Option Locator) :=
  match (node.get? "id").bind Value.asStr? with
  | none => some none
  | some id =>
    match splitOnce id ":" with
    | none => if id = "conversation" then some none else none
    | some (first, rest) =>
      if first ≠ "conversation" then none
      else
        match splitOnce rest ":" with
        | none => if rest ∈ knownSources then some none else none
        | some (source, sessionId) =>
          if source ∈ knownSources then some (some (.conversation source sessionId none)) else none

/-- `Path::join`, for a relative path. -/
def joinText (root rel : String) : String :=
  if root = "" ∨ "/".toList.isSuffixOf root.toList then root ++ rel else root ++ "/" ++ rel

/-- Whether a path is one ordinary component. -/
def isOrdinaryName (raw : String) : Bool :=
  let parts := (raw.toList.splitOn '/').map String.ofList
  decide (parts.head? ≠ some ".") &&
    match parts.filter fun part => part ≠ "" ∧ part ≠ "." with
    | [name] => name ≠ ".." && !startsWith raw "/"
    | _ => false

/-- `inferred_bare_file_locator`. -/
def inferredBareFileLocator (isFile : String → Bool) (root raw : String) : Option Locator :=
  if isOrdinaryName raw then
    ([joinText root raw, joinText (joinText root "00-inbox/harvest") raw].find? isFile).map .file
  else none

/-- The text in which a node names its source. -/
def sourceText (node : Value) : Option String :=
  (((node.get? "path").bind Value.asStr?).or
    (((node.get? "provenance").bind (·.get? "path")).bind Value.asStr?)).or ((node.get? "provenance").bind Value.asStr?)

/-- The locator of a text. -/
def textLocator (isFile : String → Bool) (root path : String) : Option Locator :=
  if startsWith path "http://" ∨ startsWith path "https://" then some (.url path)
  else if startsWith path "/" then some (.file path)
  else if ["00-inbox/", "01-raw/", "02-wiki/", "03-output/", "04-index/"].any (startsWith path) then
    some (.file (joinText root path))
  else inferredBareFileLocator isFile root path

/-- `locator`. -/
def locator (T : Tables) (isFile : String → Bool) (node : Value) (root : String) : Option Locator :=
  match (node.get? "locator").bind locatorOfJson with
  | some loc => some loc
  | none =>
    match if kindOf T node = "conversation" then conversationLocator node else none with
    | some found => found
    | none =>
      if kindOf T node = "wiki" then none
      else (sourceText node).bind (textLocator isFile root)

/-- The locator of a node, or of an id that is a path or an address itself. -/
def targetLocator (T : Tables) (isFile : String → Bool) (graph : GraphCache) (root id : String) : Option Locator :=
  match graph.nodes.get? id with
  | some node => locator T isFile node root
  | none =>
    if startsWith id "/" then some (.file id)
    else if startsWith id "https://" ∨ startsWith id "http://" then some (.url id)
    else none

/-! ## Links -/

/-- `weight`, in hundredths, of a kind of link in a direction. -/
def weight (kind : String) (reverse : Bool) : Option ℕ :=
  if kind ∈ ["DERIVED_FROM", "DISCUSSED_IN", "DECIDED_IN", "LOCATED_AT", "ORIGINATED_AT"] ∧ reverse = false then some 90
  else if kind = "DELIVERED" ∧ reverse = true then some 90
  else if kind = "SUPERSEDES" ∨ kind = "FOLLOWS_UP" then some 65
  else if kind = "RELATED_TO" then some 35
  else if kind = "DESCRIBES" then some 80
  else if kind = "BELONGS_TO" then some 12
  else none

/-- The kind of a node of the graph. -/
def nodeTypeOf (node : Value) : NodeType := .parse (((node.get? "type").bind Value.asStr?).getD "Custom")

/-- `valid_link_at`. -/
def validLinkAt (graph : GraphCache) (link : Link) (now : String) : Bool :=
  if now < link.validFrom ∨ link.validUntil.any (fun last => decide (last < now)) then false
  else
    match graph.nodes.get? link.from with
    | none => false
    | some start =>
      let endpoint := match graph.nodes.get? link.to with
        | some target => some (Endpoint.node (nodeTypeOf target))
        | none => if isUriShape link.to then some (.uri link.to) else none
      let provenance := link.provenance.or ((start.get? "provenance").bind Value.asStr?)
      endpoint.any fun endpoint =>
        (validate (nodeTypeOf start) (.parse link.kind) endpoint provenance).isOk

/-- `Hop`. -/
structure Hop where
  «from» : String
  edge : String
  «to» : String
  direction : String
  provenance : Option String

/-- `Step`: where a link leads to. -/
structure Step where
  target : String
  weight : ℕ
  hop : Hop

/-- What a link adds in a direction: where it starts, and the step. -/
def stepOf (link : Link) (reverse : Bool) : Option (String × Step) :=
  (weight link.kind reverse).map fun w =>
    (if reverse then link.to else link.from,
      ⟨if reverse then link.from else link.to, w,
        ⟨link.from, link.kind, link.to, if reverse then "reverse" else "forward", link.provenance⟩⟩)

/-- The greater weight first, and then by target. -/
def StepBefore (a b : Step) : Prop := b.weight < a.weight ∨ (a.weight = b.weight ∧ a.target ≤ b.target)

instance : DecidableRel StepBefore := fun a b => by
  unfold StepBefore
  infer_instance

/-- `adjacency`: the steps from a node. -/
def stepsFrom (graph : GraphCache) (now id : String) : List Step :=
  (((graph.links.filter fun link => validLinkAt graph link now).flatMap fun link =>
    [false, true].filterMap (stepOf link)).filterMap fun e => if e.1 = id then some e.2 else none).insertionSort StepBefore

/-! ## The walk -/

/-- `Frontier`. -/
structure Frontier (σ : Type) where
  node : String
  seed : String
  score : σ
  path : List Hop

/-- `Candidate`: a source that was found. -/
structure Candidate (σ : Type) where
  node : String
  seed : String
  score : σ
  path : List Hop
  locator : Locator

/-- `Options`. -/
structure Options where
  q : String
  limit : ℕ
  maxSources : ℕ
  maxBytes : ℕ
  maxRecords : ℕ
  maxNodes : ℕ
  maxDepth : ℕ
  seed : Option String
  role : Option String
  sourceRoot : Option String
  refresh : Bool

/-- `MAX_FRONTIER`. -/
def maxFrontier : ℕ := 4096

variable {σ : Type} [LinearOrder σ] (T : Tables) (S : Scores σ)

/-- Whether a node that was found may be a seed: not a source of the wiki that no valid link points to. -/
def mayBeSeed (graph : GraphCache) (now id : String) : Bool :=
  let node := (graph.nodes.get? id).getD .null
  node.get? "managed_by" ≠ some (.string WikiGraph.managedBy) || node.get? "type" ≠ some (.string "Source") ||
    graph.links.any fun link => link.to = id && link.kind = "DERIVED_FROM" && validLinkAt graph link now

/-- The id of a document. -/
def docId (graph : GraphCache) (i : ℕ) : String := ((graph.docs[i]?).map LexDoc.id).getD ""

/-- How many of the nodes that were found are seeds. -/
def seedLimit : ℕ := 12

/-- The nodes that match a query and may be seeds, best first. -/
def eligible (graph : GraphCache) (now : String) (query : List String) : List (ℕ × σ) :=
  (bm25 S graph.docs query).filter fun e => mayBeSeed graph now (docId graph e.1)

/-- `seeds`. -/
def seeds (graph : GraphCache) (now : String) (opts : Options) (query : List String) : Except String (List (Frontier σ)) :=
  match opts.seed with
  | some seed =>
    if (graph.nodes.get? seed).isNone then .error ("unknown explicit seed " ++ seed)
    else .ok [⟨seed, seed, S.one, []⟩]
  | none =>
    let maximum := ((bm25 S graph.docs query).head?.map Prod.snd).getD S.one
    .ok (((eligible S graph now query).take seedLimit).map fun e =>
      ⟨docId graph e.1, docId graph e.1, S.share e.2 maximum, []⟩)

/-- What is known during the walk. -/
structure Walk (σ : Type) where
  pending : List (Frontier σ)
  visited : SortedSet String
  found : List (Candidate σ)
  limited : Bool

/-- `advance`: push the targets that were not visited, as long as there is room. -/
def advance (steps : List Step) (current : Frontier σ) (visited : SortedSet String) :
    List Step → List (Frontier σ) → List (Frontier σ) × Bool
  | [], pending => (pending, false)
  | step :: rest, pending =>
    if step.target ∈ visited then advance steps current visited rest pending
    else if maxFrontier ≤ pending.length then (pending, true)
    else
      let hub := if step.hop.edge = "BELONGS_TO" then some steps.length else none
      advance steps current visited rest
        (pending ++ [⟨step.target, current.seed, S.along current.score step.weight hub, current.path ++ [step.hop]⟩])

/-- Visit a node that was not visited yet. -/
def visit (isFile : String → Bool) (graph : GraphCache) (root now : String) (opts : Options) (w : Walk σ)
    (current : Frontier σ) (rest : List (Frontier σ)) : Walk σ :=
  let visited := w.visited.insert current.node
  let found := match targetLocator T isFile graph root current.node with
    | some loc => w.found ++ [⟨current.node, current.seed, current.score, current.path, loc⟩]
    | none => w.found
  let steps := stepsFrom graph now current.node
  if opts.maxDepth ≤ current.path.length then
    ⟨rest, visited, found, w.limited || steps.any fun step => decide (step.target ∉ visited)⟩
  else
    let pushed := advance S steps current visited steps rest
    ⟨pushed.1, visited, found, w.limited || pushed.2⟩

/-- The next pending node, and the others. -/
def popBest (pending : List (Frontier σ)) : Option (Frontier σ × List (Frontier σ)) :=
  match pending.insertionSort (BestFirst Frontier.score Frontier.node) with
  | [] => none
  | current :: rest => some (current, rest)

theorem popBest_perm {pending : List (Frontier σ)} {current : Frontier σ} {rest : List (Frontier σ)}
    (h : popBest pending = some (current, rest)) : pending.Perm (current :: rest) := by
  unfold popBest at h
  have hperm := List.perm_insertionSort (BestFirst Frontier.score Frontier.node) pending
  split at h
  · cases h
  · rename_i c r hsort
    obtain ⟨rfl, rfl⟩ := Prod.mk.inj (Option.some.inj h)
    rw [hsort] at hperm
    exact hperm.symm

theorem popBest_none {pending : List (Frontier σ)} (h : popBest pending = none) : pending = [] := by
  unfold popBest at h
  have hperm := List.perm_insertionSort (BestFirst Frontier.score Frontier.node) pending
  split at h
  · rename_i hsort
    rw [hsort] at hperm
    exact List.nil_perm.mp hperm
  · cases h

omit [LinearOrder σ] in
theorem visit_visited (isFile : String → Bool) (graph : GraphCache) (root now : String) (opts : Options) (w : Walk σ)
    (current : Frontier σ) (rest : List (Frontier σ)) :
    (visit T S isFile graph root now opts w current rest).visited = w.visited.insert current.node := by
  unfold visit
  dsimp only
  split_ifs <;> rfl

/-- A new element makes a set greater. -/
theorem card_lt_insert {s : SortedSet String} {a : String} (h : a ∉ s) : s.card < (s.insert a).card := by
  have hinsert : (s.insert a).toFinset = insert a s.toFinset := by
    ext b
    rw [Finset.mem_insert, SortedSet.mem_toFinset, SortedSet.mem_toFinset, SortedSet.mem_insert]
  rw [← SortedSet.card_toFinset, ← SortedSet.card_toFinset, hinsert, Finset.card_insert_of_notMem h]
  exact Nat.lt_succ_self _

/-- The walk of `candidates`. -/
def walk (isFile : String → Bool) (graph : GraphCache) (root now : String) (opts : Options) (w : Walk σ) : Walk σ :=
  if w.visited.card < opts.maxNodes then
    match _hbest : popBest w.pending with
    | none => w
    | some (current, rest) =>
      if current.node ∈ w.visited then walk isFile graph root now opts { w with pending := rest }
      else walk isFile graph root now opts (visit T S isFile graph root now opts w current rest)
  else w
termination_by (opts.maxNodes - w.visited.card, w.pending.length)
decreasing_by
  · have hlength := (popBest_perm _hbest).length_eq
    rw [List.length_cons] at hlength
    exact Prod.Lex.right _ (by simp only [hlength]; omega)
  · rename_i hlt hnew
    have hcard := card_lt_insert hnew
    refine Prod.Lex.left _ _ ?_
    rw [visit_visited]
    omega

/-- Of the candidates with one locator the first stays. -/
def retainFirst : List Locator → List (Candidate σ) → List (Candidate σ)
  | _, [] => []
  | seen, c :: rest =>
    if c.locator ∈ seen then retainFirst seen rest else c :: retainFirst (c.locator :: seen) rest

/-- The walk from the seeds. -/
def walkFrom (isFile : String → Bool) (graph : GraphCache) (root now : String) (opts : Options)
    (start : List (Frontier σ)) : Walk σ := walk T S isFile graph root now opts ⟨start, ∅, [], false⟩

/-- `candidates`: the sources, how many nodes were visited, and whether a budget was met. -/
def candidates (isFile : String → Bool) (graph : GraphCache) (root seedNow now : String) (opts : Options)
    (query : List String) : Except String (List (Candidate σ) × ℕ × Bool) := do
  let start ← seeds S graph seedNow opts query
  let w := walkFrom T S isFile graph root now opts start
  return (retainFirst [] (w.found.insertionSort (BestFirst Candidate.score Candidate.node)), w.visited.card,
    w.limited || !w.pending.isEmpty)

end Innen.Trace
