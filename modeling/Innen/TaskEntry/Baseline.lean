import Innen.Common.Representatives
import Innen.Journal.Model
import Innen.TaskEntry.Candidates
import Mathlib.Data.Prod.Lex

/-!
# The baseline of a request

Candidates that are one document in several formats are folded into one row before baselines and projects are looked
for. A candidate that is folded away is not seen there: if it is an approved baseline too, or belongs to another
project, the request is answered as if there was no choice.
-/

namespace Innen.TaskEntry

open Common Graph Journal

variable {σ : Type}

/-! ## Folding documents -/

/-- `split_ext`. -/
def splitExt (label : String) : String × Option String :=
  match (label.toList.splitOn '.').reverse with
  | ext :: stem :: rest =>
    let head := String.ofList (['.'].intercalate (stem :: rest).reverse)
    let tail := String.ofList ext
    if head ≠ "" ∧ 1 ≤ tail.utf8ByteSize ∧ tail.utf8ByteSize ≤ 5 ∧ asciiWord tail then (head, some tail)
    else (label, none)
  | _ => (label, none)

/-- An item of a list of nodes: its id, its kind and its label. -/
structure Item where
  id : String
  kind : String
  label : String

/-- The kind and the stem of a document. Items with one key are one document. -/
def Item.key (item : Item) : Option (String ×ₗ String) :=
  (splitExt item.label).2.map fun _ => toLex (item.kind, (splitExt item.label).1)

/-- `Folded`: a row that stands for all nodes with the same document. -/
structure Folded where
  id : String
  label : String
  also : List String

/-- `folded_label`. -/
def foldedLabel (stem : String) (exts : List String) (count : ℕ) : String :=
  match exts with
  | [ext] => stem ++ "." ++ ext ++ " ×" ++ toString count
  | _ => stem ++ ".\x7b" ++ ",".intercalate exts ++ "\x7d"

/-- A group of documents: the place of its row, its extensions, and how many there are. -/
structure Group where
  place : ℕ
  exts : List String
  count : ℕ

/-- Rows, with the groups that were met. -/
structure Folding where
  rows : List Folded
  groups : SortedMap (String ×ₗ String) Group

/-- Fold one item. -/
def foldItem (done : Folding) (item : Item) : Folding :=
  let stem := (splitExt item.label).1
  let key := toLex (item.kind, stem)
  match (splitExt item.label).2 with
  | none => { done with rows := done.rows ++ [⟨item.id, item.label, []⟩] }
  | some ext =>
    match done.groups.get? key with
    | some group =>
      let exts := if ext ∈ group.exts then group.exts else group.exts ++ [ext]
      ⟨done.rows.modify group.place fun row =>
          ⟨row.id, foldedLabel stem exts (group.count + 1), row.also ++ [item.id]⟩,
        done.groups.insert key ⟨group.place, exts, group.count + 1⟩⟩
    | none => ⟨done.rows ++ [⟨item.id, item.label, []⟩], done.groups.insert key ⟨done.rows.length, [ext], 1⟩⟩

/-- `fold_documents`. -/
def foldDocuments (items : List Item) : List Folded := (items.foldl foldItem ⟨[], ∅⟩).rows

/-- The node of an id. Candidates are nodes, so that there is one. -/
def nodeOf (nodes : SortedMap String Value) (id : String) : Value := (nodes.get? id).getD .null

/-- A candidate as an item. -/
def itemOf (nodes : SortedMap String Value) (c : Candidate σ) : Item :=
  ⟨c.id, nodeKind (nodeOf nodes c.id), nodeText (nodeOf nodes c.id) "label"⟩

/-- `fold_ranked`: the candidates that are left, and the ids that were folded into each. -/
def foldRanked (ranked : List (Candidate σ)) (nodes : SortedMap String Value) :
    List (Candidate σ) × SortedMap String (List String) :=
  let folded := foldDocuments (ranked.map (itemOf nodes))
  (folded.filterMap fun row => ranked.find? fun c => c.id = row.id,
    (folded.filter fun row => row.also ≠ []).foldl (fun ids row => ids.insert row.id row.also) ∅)

/-! ## Baselines and projects -/

/-- `is_editable_format`. -/
def isEditableFormat (E : Engine σ) (label path : String) : Bool :=
  [".svg", ".ai", ".eps", ".typ", ".fig", ".sketch"].any (endsWith (E.lower (if label ≠ "" then label else path)))

/-- The status that is shown; none is unknown. -/
def displayStatus (node : Value) : String :=
  if trim (nodeText node "status") = "" then "unknown" else nodeText node "status"

/-- Whether the location of a node is verified. -/
def locationVerified (node : Value) : Bool :=
  ((node.get? "location_verified").bind Value.asBool?).getD false ||
    ((node.get? "location_verified").bind Value.asStr?).any (sameAscii "verified")

/-- Whether a node is an approved, editable and verified baseline. -/
def isBaseline (E : Engine σ) (node : Value) : Bool :=
  sameAscii (displayStatus node) "approved" && isEditableFormat E (nodeText node "label") (nodeText node "path") &&
    locationVerified node

/-- Whether a node is a project. -/
def isProject (node : Value) : Bool := sameAscii (nodeText node "type") "project"

/-- The projects of a node: itself, and those it belongs to. -/
def projectsOf (graph : Materialized) (id : String) : List String :=
  (if isProject (nodeOf graph.nodes id) then [id] else []) ++
    (graph.edges.filter fun row => !row.retracted && decide (row.from = id) && decide (row.edge = .belongsTo) &&
      (graph.nodes.get? row.to).any isProject).map StoredEdge.to

/-- A decision that supports or informs a node. -/
structure Decision where
  id : String
  label : String
  status : String
deriving DecidableEq

/-- The decisions that are next to a node. -/
def decisionsOf (graph : Materialized) (id : String) : List Decision :=
  graph.edges.filterMap fun row =>
    if row.retracted = false ∧ (row.from = id ∨ row.to = id) ∧ (row.edge = .supports ∨ row.edge = .informs) then
      let other := if row.from = id then row.to else row.from
      ((graph.nodes.get? other).filter fun node => sameAscii (nodeText node "type") "decision").map
        fun node => ⟨other, nodeText node "label", nodeText node "status"⟩
    else none

/-- A baseline: its id, its label and its status. -/
structure Baseline where
  id : String
  label : String
  status : String
deriving DecidableEq

/-- What a walk over candidates finds. -/
structure Traversal where
  linkedProjects : SortedSet String
  decisions : List Decision
  statuses : SortedMap String String
  approved : List Baseline

/-- The baseline of a candidate. -/
def baselineOf (nodes : SortedMap String Value) (c : Candidate σ) : Baseline :=
  ⟨c.id, nodeText (nodeOf nodes c.id) "label", displayStatus (nodeOf nodes c.id)⟩

/-- `traverse_candidates`. -/
def traverseCandidates (E : Engine σ) (ranked : List (Candidate σ)) (graph : Materialized) : Traversal where
  linkedProjects := .ofList (ranked.flatMap fun c => projectsOf graph c.id)
  decisions := ranked.flatMap fun c => decisionsOf graph c.id
  statuses := ranked.foldl (fun statuses c => statuses.insert c.id (displayStatus (nodeOf graph.nodes c.id))) ∅
  approved := (ranked.filter fun c => isBaseline E (nodeOf graph.nodes c.id)).map (baselineOf graph.nodes)

/-- The projects of the best candidates (`best_scored_focus`). -/
def focusProjects (E : Engine σ) (ranked : List (Candidate σ)) (graph : Materialized) : SortedSet String :=
  let best := (ranked.head?.map Candidate.score).getD E.zero
  (traverseCandidates E (ranked.filter fun c => E.near best c.score) graph).linkedProjects

/-! ## Answers -/

/-- How a request is answered. -/
inductive Resolution where
  | missing
  | partly
  | ambiguous
  | ready
  | retrieved
deriving DecidableEq

/-- `TaskEntryOptions`, as far as it decides what is found. -/
structure Options where
  q : String
  asOf : Option String
  includeExpired : Bool

/-- The answer to a request. -/
structure Answer (σ : Type) where
  resolution : Resolution
  baseline : Option Baseline
  linkedProjects : SortedSet String
  decisions : List Decision
  statuses : SortedMap String String
  candidates : List (Candidate σ)
  folded : SortedMap String (List String)

/-- A journal entry as an event to replay. -/
def replayEvent (entry : JournalEntry) : Value :=
  .object [("observed_utc", .string entry.observedUtc), ("op", .string entry.op), ("payload", entry.payload.val)]

/-- The graph for a request. -/
def graphFor (journal : List JournalEntry) (now : String) (options : Options) : Materialized :=
  materialize (journal.map replayEvent) (some (options.asOf.getD now)) now options.includeExpired

section

variable [LinearOrder σ] (E : Engine σ)

/-- The answer for a graph. -/
def answerFor (graph : Materialized) (q : String) : Answer σ :=
  let found := admitted E (.of E q) graph.nodes
  let ranked := (foldRanked found.1 graph.nodes).1
  let part := decide (found.2 ≠ []) || ranked.any fun c => startsWith c.why "term_coverage:"
  let walk := traverseCandidates E ranked graph
  let linked := if part then focusProjects E ranked graph else walk.linkedProjects
  let baseline := match walk.approved with
    | [baseline] => some baseline
    | _ => none
  let resolution : Resolution :=
    if ranked = [] then .missing
    else if part then .partly
    else if hasAssetEditIntent E q then
      if 1 < walk.approved.length then .ambiguous
      else if baseline.isNone then .missing
      else if 1 < linked.card then .ambiguous
      else .ready
    else if 1 < linked.card then .ambiguous
    else .retrieved
  ⟨resolution, baseline, linked, walk.decisions, walk.statuses, ranked, (foldRanked found.1 graph.nodes).2⟩

/-- `task_entry`. -/
def taskEntry (journal : List JournalEntry) (now : String) (options : Options) : Answer σ :=
  answerFor E (graphFor journal now options) options.q

end

/-! ## What is left after folding -/

/-- The document of a candidate. -/
def documentKey (nodes : SortedMap String Value) (c : Candidate σ) : Option (String ×ₗ String) := (itemOf nodes c).key

theorem map_modify_of_eq {α β : Type} {f : α → β} {g : α → α} (h : ∀ a, f (g a) = f a) (l : List α) (i : ℕ) :
    (l.modify i g).map f = l.map f := by
  induction l generalizing i with
  | nil => rw [List.modify_nil]
  | cons a rest ih =>
    cases i with
    | zero => rw [List.modify_zero_cons, List.map_cons, List.map_cons, h]
    | succ i => rw [List.modify_succ_cons, List.map_cons, List.map_cons, ih]

theorem foldItems_ids (items : List Item) (done : Folding) (seen : List (String ×ₗ String))
    (hseen : ∀ key, key ∈ seen ↔ (done.groups.get? key).isSome) :
    (items.foldl foldItem done).rows.map Folded.id =
      done.rows.map Folded.id ++ (firstOfKey Item.key seen items).map Item.id := by
  induction items generalizing done seen with
  | nil => exact (List.append_nil _).symm
  | cons item rest ih =>
    rw [List.foldl_cons]
    cases hext : (splitExt item.label).2 with
    | none =>
      have hkey : item.key = none := by rw [Item.key, hext, Option.map_none]
      rw [firstOfKey_cons_none hkey, ih _ seen (by simpa only [foldItem, hext] using hseen)]
      simp [foldItem, hext]
    | some ext =>
      have hkey : item.key = some (toLex (item.kind, (splitExt item.label).1)) := by rw [Item.key, hext, Option.map_some]
      cases hgroup : done.groups.get? (toLex (item.kind, (splitExt item.label).1)) with
      | some group =>
        have hmem := (hseen _).mpr (by rw [hgroup, Option.isSome_some])
        rw [firstOfKey_cons_seen hkey hmem, ih _ seen]
        · congr 1
          simp only [foldItem, hext, hgroup]
          refine map_modify_of_eq ?_ _ _
          exact fun row => rfl
        · intro key
          simp only [foldItem, hext, hgroup, SortedMap.get?_insert]
          by_cases heq : key = toLex (item.kind, (splitExt item.label).1)
          · rw [if_pos heq, heq]
            exact iff_of_true hmem rfl
          · rw [if_neg heq]
            exact hseen key
      | none =>
        have hmem : toLex (item.kind, (splitExt item.label).1) ∉ seen := by
          rw [hseen, hgroup]
          exact fun h => by cases h
        rw [firstOfKey_cons_new hkey hmem, ih _ (toLex (item.kind, (splitExt item.label).1) :: seen)]
        · simp [foldItem, hext, hgroup]
        · intro key
          simp only [foldItem, hext, hgroup, SortedMap.get?_insert, List.mem_cons]
          split_ifs with heq
          · simp [heq]
          · rw [or_iff_right heq]
            exact hseen key

/-- Of the candidates with one document the first stays. -/
theorem foldRanked_eq {ranked : List (Candidate σ)} (hids : (ranked.map Candidate.id).Nodup)
    (nodes : SortedMap String Value) :
    (foldRanked ranked nodes).1 = firstOfKey (documentKey nodes) [] ranked := by
  have hrows := foldItems_ids (ranked.map (itemOf nodes)) ⟨[], ∅⟩ [] (fun key => by simp)
  have hfind : ∀ kept : List (Candidate σ), (∀ c ∈ kept, c ∈ ranked) →
      (kept.map Candidate.id).filterMap (fun id => ranked.find? fun c => c.id = id) = kept := by
    intro kept hkept
    rw [List.filterMap_map]
    refine (List.filterMap_congr fun c hc => ?_).trans List.filterMap_some
    obtain ⟨found, hfound⟩ := Option.isSome_iff_exists.mp
      (List.find?_isSome.mpr ⟨c, hkept c hc, decide_eq_true rfl⟩ : (ranked.find? fun d => d.id = c.id).isSome)
    have hid : found.id = c.id := by simpa using List.find?_some hfound
    have hsame : found = c := List.inj_on_of_nodup_map hids (List.mem_of_find?_eq_some hfound) (hkept c hc) hid
    rw [Function.comp_apply, hfound, hsame]
  rw [firstOfKey_map, List.map_map] at hrows
  have hids' : (foldDocuments (ranked.map (itemOf nodes))).map Folded.id =
      (firstOfKey (documentKey nodes) [] ranked).map Candidate.id := hrows
  rw [foldRanked, ← hfind _ fun c hc => (firstOfKey_sublist _ _ _).subset hc, ← hids', List.filterMap_map]
  rfl

/-! ## Admitted candidates -/

section

variable [LinearOrder σ] (E : Engine σ) (r : Request)

/-- No node is admitted twice. -/
theorem nodup_admitted (nodes : SortedMap String Value) : ((admitted E r nodes).1.map Candidate.id).Nodup := by
  have hsorted : ∀ l : List (Candidate σ), (l.map Candidate.id).Nodup → ((l.insertionSort Before).map Candidate.id).Nodup :=
    fun l hl => ((List.perm_insertionSort Before l).map Candidate.id).nodup_iff.mpr hl
  unfold admitted
  dsimp only
  split_ifs
  · have hterms : ∀ l : List (String × Value), (l.map Prod.fst).Nodup →
        ((l.filterMap (termCandidate E r nodes)).map Candidate.id).Nodup := by
      intro l hl
      have hsub : ((l.filterMap (termCandidate E r nodes)).map Candidate.id).Sublist (l.map Prod.fst) := by
        clear hl
        induction l with
        | nil => exact List.Sublist.refl _
        | cons e rest ih =>
          rw [List.filterMap_cons]
          cases hcandidate : termCandidate E r nodes e with
          | none => exact ih.cons _
          | some c =>
            have hid : c.id = e.1 := by
              unfold termCandidate at hcandidate
              dsimp only at hcandidate
              split_ifs at hcandidate
              rw [← Option.some.inj hcandidate]
            rw [List.map_cons, List.map_cons, hid]
            exact ih.cons_cons _
      exact hl.sublist hsub
    refine List.Nodup.sublist ((List.take_sublist _ _).map Candidate.id) (hsorted _ (hterms _ ?_))
    exact Assoc.nodup_keys nodes.ascending
  · refine hsorted _ ?_
    rw [List.map_map]
    exact Assoc.nodup_keys (SortedMap.ascending _)

end

/-! ## Ready answers -/

section

variable [LinearOrder σ] {E : Engine σ} {graph : Materialized} {q : String}

/-- The candidates of a request before any is folded away. -/
def admittedFor (E : Engine σ) (graph : Materialized) (q : String) : List (Candidate σ) :=
  (admitted E (.of E q) graph.nodes).1

/-- A ready answer has the one baseline of the candidates that are left, which have at most one project. -/
theorem ready_spec (h : (answerFor E graph q).resolution = .ready) :
    ∃ c, ((foldRanked (admittedFor E graph q) graph.nodes).1.filter fun c => isBaseline E (nodeOf graph.nodes c.id)) = [c] ∧
      (answerFor E graph q).baseline = some (baselineOf graph.nodes c) ∧
      ∀ d ∈ (foldRanked (admittedFor E graph q) graph.nodes).1, ∀ d' ∈ (foldRanked (admittedFor E graph q) graph.nodes).1,
        ∀ p ∈ projectsOf graph d.id, ∀ p' ∈ projectsOf graph d'.id, p = p' := by
  unfold answerFor at h ⊢
  dsimp only at h ⊢
  rw [← admittedFor] at h ⊢
  generalize (foldRanked (admittedFor E graph q) graph.nodes).1 = ranked at h ⊢
  split_ifs at h with hempty hpart hintent hmany hnone hprojects
  · have happroved : ∃ baseline, (traverseCandidates E ranked graph).approved = [baseline] := by
      cases hlist : (traverseCandidates E ranked graph).approved with
      | nil =>
        rw [hlist] at hnone
        exact absurd rfl hnone
      | cons first rest =>
        rw [hlist, List.length_cons] at hmany
        have hrest : rest = [] := List.eq_nil_of_length_eq_zero (by omega)
        exact ⟨first, by rw [hrest]⟩
    obtain ⟨baseline, happroved⟩ := happroved
    obtain ⟨c, hc, hof⟩ := List.map_eq_singleton_iff.mp happroved
    refine ⟨c, hc, ?_, fun d hd d' hd' p hp p' hp' => ?_⟩
    · rw [happroved, hof]
    · have hlinked : ∀ c ∈ ranked, ∀ p ∈ projectsOf graph c.id, p ∈ (traverseCandidates E ranked graph).linkedProjects :=
        fun c hc p hp => SortedSet.mem_ofList.mpr (List.mem_flatMap.mpr ⟨c, hc, hp⟩)
      rw [← SortedSet.card_toFinset, not_lt] at hprojects
      exact Finset.card_le_one.mp hprojects p (hlinked d hd p hp) p' (hlinked d' hd' p' hp')

/-- What a ready answer is to mean for all admitted candidates: one is a baseline, this is the one of the answer, and no
two projects are linked. -/
structure OneBaseline (E : Engine σ) (graph : Materialized) (q : String) : Prop where
  baseline : ∃ c, ((admittedFor E graph q).filter fun c => isBaseline E (nodeOf graph.nodes c.id)) = [c] ∧
    (answerFor E graph q).baseline = some (baselineOf graph.nodes c)
  project : ∀ c ∈ admittedFor E graph q, ∀ d ∈ admittedFor E graph q, ∀ p ∈ projectsOf graph c.id,
    ∀ p' ∈ projectsOf graph d.id, p = p'

/-- A candidate whose document is that of a better one. -/
def FoldedAway (E : Engine σ) (graph : Materialized) (q : String) (c : Candidate σ) : Prop :=
  Repeats (documentKey graph.nodes) (admittedFor E graph q) c

/-- Folding hides no baseline and no second project. -/
structure FoldsHarmlessly (E : Engine σ) (graph : Materialized) (q : String) : Prop where
  baseline : ∀ c, FoldedAway E graph q c → isBaseline E (nodeOf graph.nodes c.id) = false
  project : ∀ c, FoldedAway E graph q c → ∀ d ∈ admittedFor E graph q, ∀ p ∈ projectsOf graph c.id,
    ∀ p' ∈ projectsOf graph d.id, p = p'

end

section

variable [LinearOrder σ] {E : Engine σ} {journal : List JournalEntry} {now : String} {options : Options}

/-- A ready answer means one baseline and one project among all admitted candidates if and only if folding hides
none. -/
theorem ready_one_baseline_iff (h : (taskEntry E journal now options).resolution = .ready) :
    OneBaseline E (graphFor journal now options) options.q ↔
      FoldsHarmlessly E (graphFor journal now options) options.q := by
  have hready : (answerFor E (graphFor journal now options) options.q).resolution = .ready := h
  generalize graphFor journal now options = graph at hready ⊢
  obtain ⟨c, hc, hbaseline, hprojects⟩ := ready_spec hready
  have hids : ((admittedFor E graph options.q).map Candidate.id).Nodup := nodup_admitted E _ graph.nodes
  rw [foldRanked_eq hids] at hc hprojects
  constructor
  · intro hone
    refine ⟨fun d hd => ?_, fun d hd => hone.project d ?_⟩
    · obtain ⟨c', hc', -⟩ := hone.baseline
      by_contra hbase
      have hmem : d ∈ (admittedFor E graph options.q).filter fun c => isBaseline E (nodeOf graph.nodes c.id) := by
        obtain ⟨before, later, k, hsplit, -⟩ := hd
        refine List.mem_filter.mpr ⟨?_, Bool.not_eq_false _ |>.mp hbase⟩
        rw [hsplit]
        exact List.mem_append_right _ List.mem_cons_self
      have hkept : c ∈ (admittedFor E graph options.q).filter fun c => isBaseline E (nodeOf graph.nodes c.id) :=
        ((firstOfKey_sublist _ _ _).filter _).subset (hc ▸ List.mem_singleton_self c)
      rw [hc'] at hmem hkept
      -- the candidate that is left would be the one that is folded away
      obtain rfl : c = d := (List.mem_singleton.mp hkept).trans (List.mem_singleton.mp hmem).symm
      refine not_mem_firstOfKey [] (List.Nodup.of_map _ hids) hd ?_
      exact (List.mem_filter.mp (hc ▸ List.mem_singleton_self c)).1
    · obtain ⟨before, later, k, hsplit, -⟩ := hd
      rw [hsplit]
      exact List.mem_append_right _ List.mem_cons_self
  · intro hfold
    refine ⟨⟨c, ?_, hbaseline⟩, fun d hd d' hd' p hp p' hp' => ?_⟩
    · rw [← hc]
      exact (filter_firstOfKey (List.Nodup.of_map _ hids) _ hfold.baseline).symm
    · by_cases hrep : FoldedAway E graph options.q d
      · exact hfold.project d hrep d' hd' p hp p' hp'
      · by_cases hrep' : FoldedAway E graph options.q d'
        · exact (hfold.project d' hrep' d hd p' hp' p hp).symm
        · refine hprojects d (mem_firstOfKey hd (fun _ _ => List.not_mem_nil) hrep) d' ?_ p hp p' hp'
          exact mem_firstOfKey hd' (fun _ _ => List.not_mem_nil) hrep'

end

/-! ## One document in two formats -/

/-- A plain engine for ASCII text: words are what white space separates, and a document is found by a word it contains. -/
def plainEngine : Engine ℕ where
  lower := asciiLower
  words := splitWhitespace
  search docs query := (docs.filter fun doc => (splitWhitespace query).any (containsText doc.2)).map fun doc => (doc.1, 1)
  zero := 0
  one := 1
  coverage hits _ := if hits.all (· = .name) then 1 else 0
  weightShare _ _ := 0
  near best score := decide (best ≤ score)

/-- An approved and verified file. -/
def approvedFile (id label : String) : JournalEntry where
  id := "e-" ++ id
  op := "node.upsert"
  payload := ⟨.object [("id", .string id), ("label", .string label), ("location_verified", .bool true),
    ("status", .string "approved"), ("type", .string "Artifact")],
    Value.wf_object.mpr ⟨Assoc.ascending_of_keys
      (by decide : ["id", "label", "location_verified", "status", "type"].Pairwise (· < ·)), by simp⟩⟩
  observedUtc := "2026-01-01T00:00:00Z"

/-- A request to work on a logo. -/
def logoRequest : Options := ⟨"logo", none, false⟩

/-- Two approved formats of one name are one row, so that the answer is ready. -/
theorem second_format_hidden :
    hasAssetEditIntent plainEngine logoRequest.q = true ∧
      (taskEntry plainEngine [approvedFile "a" "logo.ai", approvedFile "b" "logo.svg"] "2026-02-01T00:00:00Z"
        logoRequest).resolution = .ready ∧
      ¬OneBaseline plainEngine
        (graphFor [approvedFile "a" "logo.ai", approvedFile "b" "logo.svg"] "2026-02-01T00:00:00Z" logoRequest)
        logoRequest.q := by
  refine ⟨by decide +kernel, by decide +kernel, fun h => ?_⟩
  obtain ⟨c, hc, -⟩ := h.baseline
  have hlength := congrArg List.length hc
  rw [List.length_singleton] at hlength
  exact absurd hlength (by decide +kernel)

/-- With one format there is nothing to hide. -/
theorem one_format_ready :
    OneBaseline plainEngine (graphFor [approvedFile "b" "logo.svg"] "2026-02-01T00:00:00Z" logoRequest) logoRequest.q := by
  have hone : (admittedFor plainEngine
      (graphFor [approvedFile "b" "logo.svg"] "2026-02-01T00:00:00Z" logoRequest) logoRequest.q).length = 1 := by
    decide +kernel
  have hnone : ∀ c, ¬FoldedAway plainEngine
      (graphFor [approvedFile "b" "logo.svg"] "2026-02-01T00:00:00Z" logoRequest) logoRequest.q c := by
    rintro c ⟨before, later, k, hsplit, -, b, hb, -⟩
    have hpos := List.length_pos_of_mem hb
    rw [hsplit, List.length_append, List.length_cons] at hone
    omega
  exact (ready_one_baseline_iff (by decide +kernel)).mpr ⟨fun c hc => absurd hc (hnone c), fun c hc => absurd hc (hnone c)⟩

end Innen.TaskEntry
