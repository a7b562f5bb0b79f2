import Innen.Common.Distances
import Innen.TaskEntry.Candidates

/-!
# The query around its seeds

A query seeds a search with the nodes a full-text search finds and those whose id or label contains it, follows the edges
that are neither retracted nor against the vocabulary for three steps, and ranks what it reaches by distance and id. What
the full-text search finds is a seed itself, so nothing of it survives behind the graph's hits.
-/

namespace Innen.Query

open Common Graph TaskEntry

variable {σ : Type}

/-! ## The parts of a query -/

/-- What a query is served with: a full-text search and the arithmetic of scores. -/
structure Engine (σ : Type) where
  /-- The ids that a query finds among documents, best first, with relevance that is normalized to the best one. -/
  search : List (String × String) → String → List (String × σ)
  /-- One divided by one more than a depth. -/
  nearness : ℕ → σ

/-- Input to a query. -/
structure QueryParams where
  q : String
  asOf : Option String
  limit : ℕ
  includeExpired : Bool

/-- One ranked hit. -/
structure Hit (σ : Type) where
  nodeId : String
  kind : String
  label : String
  excerpt : String
  score : σ
  why : String

/-- Ranked output for one query. -/
structure QueryOutput (σ : Type) where
  hits : List (Hit σ)
  warnings : List String

def maxLimit : ℕ := 100

def maxDepth : ℕ := 3

def excerptBodyChars : ℕ := 200

/-- `excerpt_of`: the label, or the label and the beginning of the body. -/
def excerptOf (label body : String) : String :=
  let short := takeChars excerptBodyChars body
  if label = "" then short else if short = "" then label else label ++ " " ++ short

/-- The nodes as documents, in the order of their ids. -/
def documents (nodes : SortedMap String Value) : List (String × String) :=
  nodes.entries.map fun e => (e.1, nodeSearchableText e.2)

/-- What the full-text search finds, nothing for an empty query. -/
def ftsHits (E : Engine σ) (nodes : SortedMap String Value) (q : String) : List (String × σ) :=
  if q = "" then [] else E.search (documents nodes) q

/-- The nodes where the search starts. -/
def seedsOf (E : Engine σ) (nodes : SortedMap String Value) (q : String) : SortedSet String :=
  SortedSet.ofList ((ftsHits E nodes q).map Prod.fst ++
    if q = "" then []
    else (nodes.entries.filter fun e => containsText e.1 q || containsText (nodeText e.2 "label") q).map Prod.fst)

/-- Whether an edge is followed: it is not retracted, both its ends are there, and the vocabulary accepts it. -/
def follows (graph : Materialized) (e : StoredEdge) : Bool :=
  !e.retracted && match graph.nodes.get? e.from, graph.nodes.get? e.to with
    | some source, some target =>
      (validate (NodeType.parse (nodeText source "type")) e.edge (.node (NodeType.parse (nodeText target "type")))
        (e.provenance.or ((source.get? "provenance").bind Value.asStr?))).isOk
    | _, _ => false

/-- The ends of the edges that are followed from a node, each once. -/
def successors (graph : Materialized) (id : String) : List String :=
  (SortedSet.ofList ((graph.edges.filter fun e => follows graph e && decide (e.from = id)).map (·.to))).elems

theorem mem_successors {graph : Materialized} {a b : String} :
    b ∈ successors graph a ↔ ∃ e ∈ graph.edges, follows graph e ∧ e.from = a ∧ e.to = b := by
  rw [successors, ← SortedSet.mem_def, SortedSet.mem_ofList, List.mem_map]
  simp only [List.mem_filter, Bool.and_eq_true, decide_eq_true_eq]
  constructor
  · rintro ⟨e, ⟨he, hfollows, hfrom⟩, rfl⟩
    exact ⟨e, he, hfollows, hfrom, rfl⟩
  · rintro ⟨e, he, hfollows, hfrom, rfl⟩
    exact ⟨e, ⟨he, hfollows, hfrom⟩, rfl⟩

theorem mem_targets_of_mem_successors {graph : Materialized} :
    ∀ a, ∀ b ∈ successors graph a, b ∈ graph.edges.map (·.to) := by
  intro a b hb
  obtain ⟨e, he, -, -, rfl⟩ := mem_successors.mp hb
  exact List.mem_map_of_mem he

/-- The depths that the search gives. -/
def depths (graph : Materialized) (seeds : SortedSet String) : SortedMap String ℕ :=
  Distances.distances (graph.edges.map (·.to)) (successors graph) mem_targets_of_mem_successors maxDepth seeds.elems

/-- The order of the graph's hits: by depth, then by id. -/
def nearer (a b : String × ℕ) : Bool := decide (a.2 < b.2 ∨ a.2 = b.2 ∧ a.1 ≤ b.1)

/-- The hit of a row of the ranking: id, score and why. It is missing where the node is not there. -/
def hitOf (nodes : SortedMap String Value) (row : String × σ × String) : Option (Hit σ) :=
  (nodes.get? row.1).map fun node =>
    { nodeId := row.1
      kind := nodeKind node
      label := nodeText node "label"
      excerpt := excerptOf (nodeText node "label") (nodeText node "body")
      score := row.2.1
      why := row.2.2 }

/-- The answer from a graph. It is missing where the program would look up a node that is not there. -/
def answer (E : Engine σ) (graph : Materialized) (quarantined : Bool) (q : String) (limit : ℕ) : Option (QueryOutput σ) := do
  let effective := if maxLimit < limit then maxLimit else limit
  let depth := depths graph (seedsOf E graph.nodes q)
  let survivors := (ftsHits E graph.nodes q).filter fun e => (depth.get? e.1).isNone
  let ranked := ((depth.entries.mergeSort nearer).map fun e => (e.1, E.nearness e.2, "graph")) ++
    survivors.map fun e => (e.1, e.2, "fts")
  let truncated := decide (maxLimit < limit ∨ limit = 0 ∨ effective < ranked.length)
  let hits ← (ranked.take effective).mapM (hitOf graph.nodes)
  some { hits, warnings := (if truncated then ["truncated"] else []) ++
    (if quarantined then ["quarantined_skipped"] else []) ++ if survivors = [] then [] else ["time_blind_fts"] }

/-- `query`, from the events of the journal and the time of the clock. -/
def query (E : Engine σ) (events : List Value) (now : String) (quarantined : Bool) (params : QueryParams) :
    Option (QueryOutput σ) :=
  answer E (materialize events (some (params.asOf.getD now)) now params.includeExpired) quarantined params.q params.limit

/-! ## Distances in the graph -/

/-- An edge that counts: asserted and not retracted, between nodes that are there and by a pair of kinds that the
vocabulary allows, with the edge's provenance or, without one, that of its source. -/
structure Counts (graph : Materialized) (e : StoredEdge) : Prop where
  mem : e ∈ graph.edges
  current : e.retracted = false
  allowed : ∃ source target, graph.nodes.get? e.from = some source ∧ graph.nodes.get? e.to = some target ∧
    validate (NodeType.parse (nodeText source "type")) e.edge (.node (NodeType.parse (nodeText target "type")))
      (e.provenance.or ((source.get? "provenance").bind Value.asStr?)) = .ok ()

/-- What so many edges lead to from the seeds. -/
inductive Within (graph : Materialized) (seeds : SortedSet String) : ℕ → String → Prop
  | seed {id : String} : id ∈ seeds → Within graph seeds 0 id
  | edge {n : ℕ} {e : StoredEdge} : Within graph seeds n e.from → Counts graph e → Within graph seeds (n + 1) e.to

/-- The least number of edges from a seed. -/
def Distance (graph : Materialized) (seeds : SortedSet String) (d : ℕ) (id : String) : Prop :=
  Within graph seeds d id ∧ ∀ m < d, ¬Within graph seeds m id

theorem counts_iff {graph : Materialized} {e : StoredEdge} : Counts graph e ↔ e ∈ graph.edges ∧ follows graph e = true := by
  unfold follows
  constructor
  · rintro ⟨hmem, hcurrent, source, target, hsource, htarget, hvalid⟩
    rw [hcurrent, hsource, htarget]
    dsimp only
    rw [hvalid]
    exact ⟨hmem, rfl⟩
  · rintro ⟨hmem, hfollows⟩
    obtain ⟨hcurrent, hends⟩ := Bool.and_eq_true_iff.mp hfollows
    refine ⟨hmem, by simpa using hcurrent, ?_⟩
    split at hends
    · rename_i source target hsource htarget
      refine ⟨source, target, hsource, htarget, ?_⟩
      cases hvalid : validate (NodeType.parse (nodeText source "type")) e.edge (.node (NodeType.parse (nodeText target "type")))
        (e.provenance.or ((source.get? "provenance").bind Value.asStr?)) with
      | ok u => rfl
      | error err =>
        rw [hvalid] at hends
        exact absurd hends (by simp [Except.isOk, Except.toBool])
    · exact absurd hends (by simp)

theorem within_iff {graph : Materialized} {seeds : SortedSet String} {n : ℕ} {id : String} :
    Within graph seeds n id ↔ Layers.Hops (successors graph) seeds.elems n id := by
  constructor
  · intro h
    induction h with
    | seed hseed => exact .root hseed
    | edge _ hcounts ih =>
      obtain ⟨hmem, hfollows⟩ := counts_iff.mp hcounts
      exact .step ih (mem_successors.mpr ⟨_, hmem, hfollows, rfl, rfl⟩)
  · intro h
    induction h with
    | root hroot => exact .seed hroot
    | step _ hb ih =>
      obtain ⟨e, hmem, hfollows, rfl, rfl⟩ := mem_successors.mp hb
      exact .edge ih (counts_iff.mpr ⟨hmem, hfollows⟩)

theorem distance_iff {graph : Materialized} {seeds : SortedSet String} {d : ℕ} {id : String} :
    Distance graph seeds d id ↔ Distances.IsDistance (successors graph) seeds.elems d id := by
  unfold Distance Distances.IsDistance
  simp only [within_iff]

/-- The depths of the search are the distances up to three. -/
theorem get?_depths {graph : Materialized} {seeds : SortedSet String} {id : String} {d : ℕ} :
    (depths graph seeds).get? id = some d ↔ d ≤ 3 ∧ Distance graph seeds d id := by
  rw [depths, Distances.get?_distances, distance_iff]
  rfl

/-- More edges between the same nodes only shorten distances. -/
theorem Distance.mono {graph graph' : Materialized} {seeds : SortedSet String} (hnodes : graph'.nodes = graph.nodes)
    (hedges : ∀ e ∈ graph.edges, e ∈ graph'.edges) {d : ℕ} {id : String} (h : Distance graph seeds d id) :
    ∃ d' ≤ d, Distance graph' seeds d' id := by
  have hnext : ∀ a, ∀ b ∈ successors graph a, b ∈ successors graph' a := by
    intro a b hb
    obtain ⟨e, hmem, hfollows, hfrom, hto⟩ := mem_successors.mp hb
    have hsame : follows graph' e = follows graph e := by rw [follows, follows, hnodes]
    exact mem_successors.mpr ⟨e, hedges e hmem, hsame ▸ hfollows, hfrom, hto⟩
  obtain ⟨m, hm, hdist⟩ := (distance_iff.mp h).mono hnext
  exact ⟨m, hm, distance_iff.mpr hdist⟩

/-! ## The hits -/

theorem nearer_trans (a b c : String × ℕ) (hab : nearer a b) (hbc : nearer b c) : nearer a c := by
  simp only [nearer, decide_eq_true_eq] at *
  rcases hab with hab | ⟨hab, hid⟩
  · rcases hbc with hbc | ⟨hbc, -⟩
    · exact .inl (hab.trans hbc)
    · exact .inl (hbc ▸ hab)
  · rcases hbc with hbc | ⟨hbc, hid'⟩
    · exact .inl (hab ▸ hbc)
    · exact .inr ⟨hab.trans hbc, hid.trans hid'⟩

theorem nearer_total (a b : String × ℕ) : nearer a b || nearer b a := by
  simp only [nearer, Bool.or_eq_true, decide_eq_true_eq]
  rcases lt_trichotomy a.2 b.2 with hlt | heq | hgt
  · exact .inl (.inl hlt)
  · exact (le_total a.1 b.1).imp (fun h => .inr ⟨heq, h⟩) fun h => .inr ⟨heq.symm, h⟩
  · exact .inr (.inl hgt)

/-- The seeds are nodes when the full-text search finds nothing else. -/
theorem mem_nodes_of_mem_seeds {E : Engine σ} (hE : ∀ docs q, ∀ e ∈ E.search docs q, e.1 ∈ docs.map Prod.fst)
    {nodes : SortedMap String Value} {q id : String} (h : id ∈ seedsOf E nodes q) : (nodes.get? id).isSome := by
  rw [← SortedMap.mem_keys_iff]
  rw [seedsOf, SortedSet.mem_ofList, List.mem_append] at h
  rcases h with hfound | hscan
  · obtain ⟨e, he, rfl⟩ := List.mem_map.mp hfound
    unfold ftsHits at he
    split_ifs at he
    · exact absurd he List.not_mem_nil
    · obtain ⟨doc, hdoc, hid⟩ := List.mem_map.mp (hE _ _ e he)
      obtain ⟨node, hnode, rfl⟩ := List.mem_map.mp hdoc
      exact hid ▸ List.mem_map_of_mem hnode
  · split_ifs at hscan
    · exact absurd hscan List.not_mem_nil
    · obtain ⟨e, he, rfl⟩ := List.mem_map.mp hscan
      exact List.mem_map_of_mem (List.mem_filter.mp he).1

theorem mem_nodes_of_within {E : Engine σ} (hE : ∀ docs q, ∀ e ∈ E.search docs q, e.1 ∈ docs.map Prod.fst)
    {graph : Materialized} {q id : String} {n : ℕ} (h : Within graph (seedsOf E graph.nodes q) n id) :
    (graph.nodes.get? id).isSome := by
  cases h with
  | seed hseed => exact mem_nodes_of_mem_seeds hE hseed
  | edge _ hcounts =>
    obtain ⟨source, target, -, htarget, -⟩ := hcounts.allowed
    rw [htarget]
    rfl

/-- Everything the full-text search finds is a seed, and so a hit of the graph. -/
theorem survivors_eq_nil {E : Engine σ} {graph : Materialized} {q : String} :
    ((ftsHits E graph.nodes q).filter fun e => ((depths graph (seedsOf E graph.nodes q)).get? e.1).isNone) = [] := by
  refine List.filter_eq_nil_iff.mpr fun e he => ?_
  have hseed : e.1 ∈ seedsOf E graph.nodes q := by
    rw [seedsOf, SortedSet.mem_ofList]
    exact List.mem_append_left _ (List.mem_map_of_mem he)
  have hzero : (depths graph (seedsOf E graph.nodes q)).get? e.1 = some 0 :=
    get?_depths.mpr ⟨Nat.zero_le 3, .seed hseed, fun m hm => absurd hm (Nat.not_lt_zero m)⟩
  rw [hzero]
  simp

/-- Rows about nodes all become hits. -/
theorem exists_hits {nodes : SortedMap String Value} {rows : List (String × σ × String)}
    (h : ∀ row ∈ rows, (nodes.get? row.1).isSome) :
    ∃ hits : List (Hit σ), rows.mapM (hitOf nodes) = some hits ∧
      hits.map (fun hit => (hit.nodeId, hit.score, hit.why)) = rows := by
  induction rows with
  | nil => exact ⟨[], rfl, rfl⟩
  | cons row rest ih =>
    obtain ⟨hits, hhits, hrows⟩ := ih fun r hr => h r (List.mem_cons_of_mem row hr)
    obtain ⟨node, hnode⟩ := Option.isSome_iff_exists.mp (h row List.mem_cons_self)
    obtain ⟨hit, hhit, hrow⟩ : ∃ hit, hitOf nodes row = some hit ∧ (hit.nodeId, hit.score, hit.why) = row := by
      rw [hitOf, hnode]
      exact ⟨_, rfl, rfl⟩
    refine ⟨hit :: hits, ?_, ?_⟩
    · rw [List.mapM_cons, hhit, hhits]
      rfl
    · rw [List.map_cons, hrows, hrow]

/-- The nodes within three edges of the seeds, nearest first. -/
def ranking (graph : Materialized) (seeds : SortedSet String) : List (String × ℕ) :=
  (depths graph seeds).entries.mergeSort nearer

theorem mem_ranking {graph : Materialized} {seeds : SortedSet String} {id : String} {d : ℕ} :
    (id, d) ∈ ranking graph seeds ↔ d ≤ 3 ∧ Distance graph seeds d id := by
  rw [ranking, (List.mergeSort_perm _ _).mem_iff, SortedMap.mem_entries_iff, get?_depths]

theorem nodup_ranking (graph : Materialized) (seeds : SortedSet String) : ((ranking graph seeds).map Prod.fst).Nodup :=
  ((List.mergeSort_perm _ _).map Prod.fst).nodup_iff.mpr (Assoc.nodup_keys (depths graph seeds).ascending)

theorem pairwise_ranking (graph : Materialized) (seeds : SortedSet String) :
    (ranking graph seeds).Pairwise fun a b => a.2 < b.2 ∨ a.2 = b.2 ∧ a.1 < b.1 := by
  have hsorted := List.pairwise_mergeSort nearer_trans nearer_total (depths graph seeds).entries
  have hdistinct := List.pairwise_map.mp (nodup_ranking graph seeds)
  refine (hsorted.and hdistinct).imp fun {a b} hab => ?_
  have hle := of_decide_eq_true hab.1
  exact hle.imp_right (And.imp_right fun hid => lt_of_le_of_ne hid hab.2)

/-- The hits of a query are the nodes within three edges of its seeds, each once with its distance, by distance and id, up
to the limit; and more edges bring no node further away. -/
theorem answer_neighbourhood {E : Engine σ} (hE : ∀ docs q, ∀ e ∈ E.search docs q, e.1 ∈ docs.map Prod.fst)
    (graph : Materialized) (quarantined : Bool) (q : String) (limit : ℕ) :
    (∃ (out : QueryOutput σ) (near : List (String × ℕ)), answer E graph quarantined q limit = some out ∧
        (∀ id d, (id, d) ∈ near ↔ d ≤ 3 ∧ Distance graph (seedsOf E graph.nodes q) d id) ∧ (near.map Prod.fst).Nodup ∧
        (near.Pairwise fun a b => a.2 < b.2 ∨ a.2 = b.2 ∧ a.1 < b.1) ∧
        out.hits.map (fun hit => (hit.nodeId, hit.score, hit.why)) =
          (near.take (min limit 100)).map fun e => (e.1, E.nearness e.2, "graph")) ∧
      ∀ graph' : Materialized, graph'.nodes = graph.nodes → (∀ e ∈ graph.edges, e ∈ graph'.edges) → ∀ id d,
        Distance graph (seedsOf E graph.nodes q) d id → ∃ d' ≤ d, Distance graph' (seedsOf E graph'.nodes q) d' id := by
  refine ⟨?_, fun graph' hnodes hedges id d hdist => ?_⟩
  · have heffective : (if maxLimit < limit then maxLimit else limit) = min limit 100 := by
      unfold maxLimit
      split_ifs <;> omega
    have hknown : ∀ row ∈ ((ranking graph (seedsOf E graph.nodes q)).map fun e => (e.1, E.nearness e.2, "graph")).take
        (min limit 100), (graph.nodes.get? row.1).isSome := by
      intro row hrow
      obtain ⟨e, he, rfl⟩ := List.mem_map.mp (List.mem_of_mem_take hrow)
      exact mem_nodes_of_within hE (mem_ranking.mp he).2.1
    obtain ⟨hits, hhits, hrows⟩ := exists_hits hknown
    obtain ⟨warnings, hanswer⟩ : ∃ warnings, answer E graph quarantined q limit = some ⟨hits, warnings⟩ := by
      unfold answer
      dsimp only
      rw [survivors_eq_nil, List.map_nil, List.append_nil, heffective]
      exact ⟨_, Option.bind_eq_some_iff.mpr ⟨hits, hhits, rfl⟩⟩
    refine ⟨⟨hits, warnings⟩, ranking graph (seedsOf E graph.nodes q), hanswer, fun id d => mem_ranking,
      nodup_ranking _ _, pairwise_ranking _ _, ?_⟩
    rw [hrows, List.map_take]
  · rw [hnodes]
    exact hdist.mono hnodes hedges

/-- A search engine that looks for the words of the query as they stand. -/
def plainEngine : Engine ℕ where
  search docs q := (docs.filter fun doc => containsText doc.2 q).map fun doc => (doc.1, 1)
  nearness d := d

/-- A task that follows up another one. -/
def followUp : Materialized where
  nodes := SortedMap.insert (SortedMap.insert ∅ "t1" (.object [("label", .string "draft"), ("type", .string "Task")])) "t2"
    (.object [("label", .string "review"), ("type", .string "Task")])
  edges := [⟨"t1", .followsUp, "t2", none, "", none, false, "", none⟩]

theorem answer_neighbourhood_followUp :
    (∃ (out : QueryOutput ℕ) (near : List (String × ℕ)), answer plainEngine followUp false "draft" 20 = some out ∧
        (∀ id d, (id, d) ∈ near ↔ d ≤ 3 ∧ Distance followUp (seedsOf plainEngine followUp.nodes "draft") d id) ∧
        (near.map Prod.fst).Nodup ∧ (near.Pairwise fun a b => a.2 < b.2 ∨ a.2 = b.2 ∧ a.1 < b.1) ∧
        out.hits.map (fun hit => (hit.nodeId, hit.score, hit.why)) =
          (near.take (min 20 100)).map fun e => (e.1, plainEngine.nearness e.2, "graph")) ∧
      ∀ graph' : Materialized, graph'.nodes = followUp.nodes → (∀ e ∈ followUp.edges, e ∈ graph'.edges) → ∀ id d,
        Distance followUp (seedsOf plainEngine followUp.nodes "draft") d id →
          ∃ d' ≤ d, Distance graph' (seedsOf plainEngine graph'.nodes "draft") d' id := by
  refine answer_neighbourhood (E := plainEngine) (fun docs q e he => ?_) followUp false "draft" 20
  obtain ⟨doc, hdoc, rfl⟩ := List.mem_map.mp he
  exact List.mem_map_of_mem (List.mem_filter.mp hdoc).1

end Innen.Query
