import Innen.Graph.Replay
import Innen.Journal.Model
import Innen.WikiGraph.Pages

/-!
# Projecting the wiki into the graph

`sync` reads all pages, replays the journal, and appends what makes the graph agree with the pages: nodes first, then
retractions, then assertions. It owns the nodes with its mark and the edge rows with its provenance, and compares only
these. A page that cannot be read counts as present.
-/

namespace Innen.WikiGraph

open Common Graph Journal

/-! ## Ownership -/

/-- `MANAGED_BY`. -/
def managedBy : String := "innen:wiki-sync"

/-- `EDGE_PROVENANCE_PREFIX`. -/
def edgeProvenanceStart : String := "innen:wiki-sync:edge:"

/-- Whether a node is one of the projection's. -/
def isManaged (node : Value) : Bool := (node.get? "managed_by").bind Value.asStr? = some managedBy

/-- Whether a node says that it is a wiki page. -/
def isWiki (node : Value) : Bool := (node.get? "type").bind Value.asStr? = some "Wiki"

/-- The path a node is registered for. -/
def wikiPathOf (node : Value) : Option String := (node.get? "wiki_path").bind Value.asStr?

/-- The path of a managed wiki node. -/
def registeredPath (node : Value) : Option String :=
  if isManaged node && isWiki node then wikiPathOf node else none

/-- Why a sync fails. -/
inductive SyncError where
  | multipleIds (wikiPath previous id : String)
  | claimedTwice (id previousPath wikiPath : String)
  | unmanaged (id : String)
  | otherType (id : String)
  | journal
deriving DecidableEq

/-! ## Ids -/

/-- The nodes of a graph in the order in which its hash map is visited. -/
structure Visit where
  order : SortedMap String Value → List (String × Value)
  perm : ∀ nodes, (order nodes).Perm nodes.entries

variable (P : Platform)

/-- Register the path of a node. -/
def registerNode (registered : SortedMap String String) (e : String × Value) :
    Except SyncError (SortedMap String String) :=
  match registeredPath e.2 with
  | none => .ok registered
  | some path =>
    match registered.get? path with
    | some previous =>
      if previous ≠ e.1 then .error (.multipleIds path previous e.1) else .ok (registered.insert path e.1)
    | none => .ok (registered.insert path e.1)

/-- The id of a page: the one its path is registered for, its own, or the digest of its path. -/
def idFor (registered : SortedMap String String) (page : WikiPage) : String :=
  ((registered.get? page.wikiPath).or page.explicitId).getD ("wiki:" ++ P.sha256Hex page.wikiPath.toUTF8)

/-- Give each page its id, unless one is claimed twice. -/
def claimIds (registered : SortedMap String String) :
    SortedMap String String → List WikiPage → Except SyncError (List WikiPage)
  | _, [] => .ok []
  | claimed, page :: rest =>
    let id := idFor P registered page
    match claimed.get? id with
    | some previous => .error (.claimedTwice id previous page.wikiPath)
    | none => (claimIds registered (claimed.insert id page.wikiPath) rest).map ({ page with id := id } :: ·)

/-- `assign_ids`. -/
def assignIds (V : Visit) (pages : List WikiPage) (graph : Materialized) : Except SyncError (List WikiPage) := do
  let registered ← (V.order graph.nodes).foldlM registerNode ∅
  claimIds P registered ∅ pages

/-! ## Nodes -/

/-- The fields of `wiki_node`. -/
def wikiNodeFields (page : WikiPage) : Fields :=
  [("body", .string page.body), ("id", .string page.id), ("label", .string page.title),
    ("managed_by", .string managedBy), ("missing", .bool false), ("path", .string page.path),
    ("provenance", .string ("wiki:" ++ page.path ++ "#sha256=" ++ page.sha256)), ("sha256", .string page.sha256),
    ("tags", .strings page.tags), ("title", .string page.title), ("type", .string "Wiki"),
    ("wiki_path", .string page.wikiPath)]

theorem wf_wikiNode (page : WikiPage) : (Value.object (wikiNodeFields page)).WF := by
  have htags : (Value.strings page.tags).WF := by simp [Value.strings]
  refine Value.wf_object.mpr
    ⟨Assoc.ascending_of_keys (by decide : ["body", "id", "label", "managed_by", "missing", "path", "provenance",
      "sha256", "tags", "title", "type", "wiki_path"].Pairwise (· < ·)), ?_⟩
  simp only [wikiNodeFields, List.forall_mem_cons, Value.wf_string, Value.wf_bool, htags, List.not_mem_nil,
    false_implies, implies_true, and_self]

/-- `wiki_node`. -/
def wikiNode (page : WikiPage) : Json := ⟨.object (wikiNodeFields page), wf_wikiNode page⟩

/-- The id of the node of a source. -/
def sourceNodeId (sourceRef : String) : String := "source:" ++ P.sha256Hex sourceRef.toUTF8

/-- The fields of `source_node`. -/
def sourceNodeFields (sourceRef : String) (locator : Locator) : Fields :=
  [("id", .string (sourceNodeId P sourceRef)), ("label", .string sourceRef), ("locator", .object locator.fields),
    ("managed_by", .string managedBy),
    ("provenance", .string ("source-ref:sha256=" ++ P.sha256Hex sourceRef.toUTF8)), ("source_ref", .string sourceRef),
    ("type", .string "Source")]

theorem wf_sourceNode (sourceRef : String) (locator : Locator) :
    (Value.object (sourceNodeFields P sourceRef locator)).WF := by
  refine Value.wf_object.mpr
    ⟨Assoc.ascending_of_keys (by decide : ["id", "label", "locator", "managed_by", "provenance", "source_ref",
      "type"].Pairwise (· < ·)), ?_⟩
  simp only [sourceNodeFields, List.forall_mem_cons, Value.wf_string, locator.wf, List.not_mem_nil, false_implies,
    implies_true, and_self]

/-- `source_node`. -/
def sourceNode (sourceRef : String) (locator : Locator) : Json :=
  ⟨.object (sourceNodeFields P sourceRef locator), wf_sourceNode P sourceRef locator⟩

/-- Whether a field of a node is to be written: always its id, else what differs. -/
def changes (current : Option Fields) (e : String × Value) : Bool :=
  e.1 = "id" || (current.bind (Assoc.get? e.1)) ≠ some e.2

/-- The fields that are to be written. -/
def changedObject (current : Option Value) (desired : Fields) : Fields :=
  desired.filter (changes (current.bind Value.asObject?))

theorem wf_filter {fields : Fields} (h : (Value.object fields).WF) (keep : String × Value → Bool) :
    (Value.object (fields.filter keep)).WF := by
  obtain ⟨hasc, hfields⟩ := Value.wf_object.mp h
  exact Value.wf_object.mpr ⟨List.Pairwise.sublist List.filter_sublist hasc,
    fun e he => hfields e (List.mem_of_mem_filter he)⟩

/-- `changed_fields`: nothing if the node is there and no field differs. -/
def changedFields (current : Option Value) (desired : Json) : Option Json :=
  match desired with
  | ⟨.object fields, h⟩ =>
    if 1 < (changedObject current fields).length ∨ current.isNone then
      some ⟨.object (changedObject current fields), wf_filter h _⟩
    else none
  | _ => none

/-! ## Edges -/

/-- `EdgeKey`: where an edge starts, its kind and where it ends, compared in this order. -/
abbrev EdgeKey := String ×ₗ String ×ₗ String

/-- The key with these fields. -/
def EdgeKey.of (start kind target : String) : EdgeKey := toLex (start, toLex (kind, target))

/-- Where the edge of a key starts. -/
def EdgeKey.start (key : EdgeKey) : String := (ofLex key).1

/-- The kind of the edge of a key. -/
def EdgeKey.kind (key : EdgeKey) : String := (ofLex (ofLex key).2).1

/-- Where the edge of a key ends. -/
def EdgeKey.target (key : EdgeKey) : String := (ofLex (ofLex key).2).2

/-- What the pages ask for: nodes by id, and edges by key, each with its provenance. -/
structure Desired where
  nodes : SortedMap String Json
  edges : SortedMap EdgeKey String

/-- The provenance of an edge. -/
def edgeProvenance (start field reference : String) : String :=
  edgeProvenanceStart ++ start ++ ":" ++ field ++ ":" ++ P.sha256Hex reference.toUTF8

/-- `insert_edge`: the first provenance for a key stays. -/
def insertEdge (edges : SortedMap EdgeKey String) (start kind target field reference : String) :
    SortedMap EdgeKey String :=
  match edges.get? (.of start kind target) with
  | some _ => edges
  | none => edges.insert (.of start kind target) (edgeProvenance P start field reference)

/-- Whether a node says that its page is gone. -/
def isMissing (node : Value) : Bool :=
  (node.get? "missing").bind Value.asBool? = some true || (node.get? "wiki_missing").bind Value.asBool? = some true

/-- A node of the graph, or else one that is asked for. -/
def lookupNode (graph : Materialized) (nodes : SortedMap String Json) (id : String) : Option Value :=
  (graph.nodes.get? id).or ((nodes.get? id).map Subtype.val)

/-- `resolve_source`: the target, and the nodes that are asked for then. -/
def resolveSource (place : Place) (graph : Materialized) (resolver : WikiResolver) (nodes : SortedMap String Json)
    (sourceRef : String) : Option String × SortedMap String Json :=
  let raw := trim sourceRef
  match stripStart raw "graph:" with
  | some id => (if (lookupNode graph nodes id).isSome then some id else none, nodes)
  | none =>
    match lookupNode graph nodes raw with
    | some node => (if isMissing node then none else some raw, nodes)
    | none =>
      match resolver.resolve raw with
      | .one id => (some id, nodes)
      | .ambiguous _ => (none, nodes)
      | .missing =>
        match locatorOf place raw with
        | none => (none, nodes)
        | some locator =>
          (some (sourceNodeId P raw),
            match nodes.get? (sourceNodeId P raw) with
            | some _ => nodes
            | none => nodes.insert (sourceNodeId P raw) (sourceNode P raw locator))

/-- Ask for what a source of a page needs. -/
def addSource (place : Place) (graph : Materialized) (resolver : WikiResolver) (page : WikiPage) (desired : Desired)
    (sourceRef : String) : Desired :=
  let resolved := resolveSource P place graph resolver desired.nodes sourceRef
  match resolved.1 with
  | some target =>
    ⟨resolved.2, insertEdge P desired.edges page.id "DERIVED_FROM" target "sources" sourceRef⟩
  | none => { desired with nodes := resolved.2 }

/-- Ask for the edge to a related page. -/
def addRelated (resolver : WikiResolver) (page : WikiPage) (desired : Desired) (relatedRef : String) : Desired :=
  match resolver.resolve relatedRef with
  | .one target =>
    { desired with edges := insertEdge P desired.edges page.id "RELATED_TO" target "related" relatedRef }
  | _ => desired

/-- Ask for what the references of a page need. -/
def addPage (place : Place) (graph : Materialized) (resolver : WikiResolver) (desired : Desired) (page : WikiPage) :
    Desired :=
  page.related.foldl (addRelated P resolver page) (page.sources.foldl (addSource P place graph resolver page) desired)

/-- The nodes of the pages. -/
def pageNodes (pages : List WikiPage) : SortedMap String Json :=
  pages.foldl (fun nodes page => nodes.insert page.id (wikiNode page)) ∅

/-- All that the pages ask for. -/
def desiredOf (place : Place) (graph : Materialized) (pages : List WikiPage) : Desired :=
  pages.foldl (addPage P place graph (.new pages)) ⟨pageNodes pages, ∅⟩

/-- The key of a row. -/
def rowKey (row : StoredEdge) : EdgeKey := .of row.from row.edge.name row.to

/-- Whether a row has the provenance of the projection. -/
def isOwned (row : StoredEdge) : Bool := row.provenance.any fun provenance => startsWith provenance edgeProvenanceStart

/-- `live_owned_edges`. -/
def liveOwnedEdges (graph : Materialized) : SortedMap EdgeKey (List String) :=
  .groupBy rowKey (fun row => row.provenance.getD "") (graph.edges.filter fun row => !row.retracted && isOwned row)

/-- `live_foreign_keys`. -/
def liveForeignKeys (graph : Materialized) : List EdgeKey :=
  (graph.edges.filter fun row => !row.retracted && !isOwned row).map rowKey

/-! ## The plan -/

/-- The pages that were read and the paths of those that could not be. -/
structure Preflight where
  pages : List WikiPage
  skippedPaths : SortedSet String

/-- Parse a file. -/
def preflightFile (place : Place) (done : Preflight) (file : PageFile) : Preflight :=
  match file.text with
  | some text =>
    let page := parsePage place file.relative text
    ⟨done.pages ++ [page], ⟨done.skippedPaths.elems.filter (· ≠ page.wikiPath),
      done.skippedPaths.ascending.sublist List.filter_sublist⟩⟩
  | none => { done with skippedPaths := done.skippedPaths.insert file.relative }

/-- Parse all files, in order. -/
def preflight (place : Place) (files : List PageFile) : Preflight := files.foldl (preflightFile place) ⟨[], ∅⟩

/-- The managed nodes whose page could not be read. -/
def skippedNodes (graph : Materialized) (skippedPaths : SortedSet String) : List (String × Value) :=
  graph.nodes.entries.filter fun e => isManaged e.2 && (wikiPathOf e.2).any (· ∈ skippedPaths)

/-- What `sync` is about to append. -/
structure Plan where
  nodes : List Json
  retracts : List EdgeKey
  asserts : List (EdgeKey × String)

/-- The event for a node that is asked for, if one is needed. -/
def planNode (graph : Materialized) (e : String × Json) : Except SyncError (Option Json) :=
  match graph.nodes.get? e.1 with
  | none => .ok (changedFields none e.2)
  | some existing =>
    if isManaged existing = false then .error (.unmanaged e.1)
    else if existing.get? "type" ≠ e.2.val.get? "type" then .error (.otherType e.1)
    else .ok (changedFields (some existing) e.2)

/-- The event that marks a page as gone. -/
def missingNode (id : String) : Json :=
  ⟨.object [("id", .string id), ("missing", .bool true)],
    Value.wf_object.mpr ⟨Assoc.ascending_of_keys (by decide : ["id", "missing"].Pairwise (· < ·)), by simp⟩⟩

/-- Whether the page of a node is gone and the node does not say so. -/
def vanished (presentPaths : List String) (node : Value) : Bool :=
  (registeredPath node).any fun path => path ∉ presentPaths && node.get? "missing" ≠ some (.bool true)

/-- Whether an owned key is to be retracted: it is not asked for, or not with just the provenances it has, and nobody
else asserts it. -/
def retracted (desired : Desired) (foreign : List EdgeKey) (skippedIds : List String)
    (e : EdgeKey × List String) : Bool :=
  e.1.start ∉ skippedIds && e.1 ∉ foreign &&
    match desired.edges.get? e.1 with
    | none => true
    | some provenance => provenance ∉ e.2 || e.2.any (· ≠ provenance)

/-- Whether an edge that is asked for is to be asserted. -/
def asserted (owned : SortedMap EdgeKey (List String)) (retracts : List EdgeKey) (e : EdgeKey × String) : Bool :=
  !((owned.get? e.1).any (e.2 ∈ ·)) || e.1 ∈ retracts

/-- What `sync` finds out before it appends. -/
def plan (V : Visit) (place : Place) (files : List PageFile) (graph : Materialized) : Except SyncError Plan := do
  let read := preflight place files
  let pages ← assignIds P V read.pages graph
  let desired := desiredOf P place graph pages
  let skipped := skippedNodes graph read.skippedPaths
  let presentPaths := pages.map WikiPage.wikiPath ++ skipped.filterMap fun e => wikiPathOf e.2
  let changed ← desired.nodes.entries.mapM (planNode graph)
  let gone := (V.order graph.nodes).filter fun e => vanished presentPaths e.2
  let owned := liveOwnedEdges graph
  let retracts := (owned.entries.filter (retracted desired (liveForeignKeys graph) (skipped.map Prod.fst))).map Prod.fst
  .ok ⟨changed.reduceOption ++ gone.map fun e => missingNode e.1, retracts,
    desired.edges.entries.filter (asserted owned retracts)⟩

/-! ## Appending -/

/-- The event of a node. -/
def nodeEvent (payload : Json) : String × Json := ("node.upsert", payload)

/-- The event that retracts a key. -/
def retractEvent (key : EdgeKey) : String × Json :=
  ("edge.retract", ⟨.object [("from", .string key.start), ("to", .string key.target), ("type", .string key.kind)],
    Value.wf_object.mpr ⟨Assoc.ascending_of_keys (by decide : ["from", "to", "type"].Pairwise (· < ·)), by simp⟩⟩)

/-- The event that asserts an edge. -/
def assertEvent (e : EdgeKey × String) : String × Json :=
  ("edge.assert", ⟨.object [("from", .string e.1.start), ("managed_by", .string managedBy), ("provenance", .string e.2),
      ("to", .string e.1.target), ("type", .string e.1.kind)],
    Value.wf_object.mpr ⟨Assoc.ascending_of_keys
      (by decide : ["from", "managed_by", "provenance", "to", "type"].Pairwise (· < ·)), by simp⟩⟩)

/-- The events of a plan, in the order in which they are appended. -/
def Plan.events (plan : Plan) : List (String × Json) :=
  plan.nodes.map nodeEvent ++ plan.retracts.map retractEvent ++ plan.asserts.map assertEvent

/-- What is outside of a sync: the order of the hash map, which appends succeed and the readings of the clock. -/
structure World where
  visit : Visit
  appends : ℕ → Bool
  now : ℕ → String

/-- Append events, until an append fails. -/
def appendEvents (W : World) : ℕ → List (String × Json) → List JournalEntry → List JournalEntry × Except SyncError Unit
  | _, [], journal => (journal, .ok ())
  | i, (op, payload) :: rest, journal =>
    if W.appends i then appendEvents W (i + 1) rest (journal ++ [newEntry P op payload (W.now i)])
    else (journal, .error .journal)

/-- A journal entry as an event to replay. -/
def entryEvent (entry : JournalEntry) : Value :=
  .object [("observed_utc", .string entry.observedUtc), ("op", .string entry.op), ("payload", entry.payload.val)]

/-- The graph of a journal, with expired rows. -/
def graphOf (journal : List JournalEntry) : Materialized := materialize (journal.map entryEvent) none "" true

/-- `sync`: the journal afterwards, and whether it succeeded. -/
def sync (W : World) (place : Place) (files : List PageFile) (journal : List JournalEntry) :
    List JournalEntry × Except SyncError Unit :=
  match plan P W.visit place files (graphOf journal) with
  | .error e => (journal, .error e)
  | .ok plan => appendEvents P W 0 plan.events journal

end Innen.WikiGraph
