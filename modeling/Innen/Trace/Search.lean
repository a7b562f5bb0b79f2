import Innen.Common.Best
import Innen.Credentials
import Innen.Trace.Sources
import Mathlib.Data.Prod.Lex
import Mathlib.Order.Lattice

/-!
# The search

The sources that the walk found are read best first, and the sessions that a source names are put to the pending ones.
Matching passages that hold no credential are ranked, and the best ones are the hits. The result says whether anything
is known to be left out.
-/

namespace Innen.Trace

open Common Graph Journal Credentials

variable {σ : Type} [LinearOrder σ] (P : Platform) (T : Tables) (S : Scores σ) (E : Surroundings)

/-! ## Hits -/

/-- `RankedHit`: a hit and what is shown of it. -/
structure RankedHit (σ : Type) where
  score : σ
  node : String
  line : ℕ
  seed : String
  path : List Hop
  source : Locator
  sourcePath : String
  endLine : ℕ
  ordinal : ℕ
  jsonPointer : Option String
  scalarSha256 : Option String
  role : String
  roleBasis : String
  timestamp : Option String
  quote : String
  recordSha256 : String
  sourceSha256 : String
  sourceComplete : Bool
  sourceFreshness : String
  sourceVersion : Version
  relevance : σ
  graphScore : σ
  key : String
  record : ℕ

/-- What hits are compared by. -/
def RankedHit.rankKey (h : RankedHit σ) : σᵒᵈ ×ₗ String ×ₗ ℕ := toLex (.toDual h.score, toLex (h.node, h.line))

/-- `compare`: the best score first, then by node and line. -/
def HitBefore (a b : RankedHit σ) : Prop := a.rankKey ≤ b.rankKey

instance : DecidableRel (@HitBefore σ _) := fun a b => inferInstanceAs (Decidable (a.rankKey ≤ b.rankKey))

instance : Std.Total (@HitBefore σ _) := ⟨fun a b => le_total a.rankKey b.rankKey⟩

instance : IsTrans (RankedHit σ) HitBefore := ⟨fun a b c hab hbc => (show a.rankKey ≤ b.rankKey from hab).trans (show b.rankKey ≤ c.rankKey from hbc)⟩

/-- What is reported of a candidate. -/
inductive Report where
  | remoteNotFetched (nodeId : String) (locator : Locator) (path : List Hop)
  | unresolved (nodeId reason : String) (path : List Hop)
  | unavailable (nodeId reason : String) (locator : Locator) (path : List Hop) (charged : ℕ) (measured : Option ℕ)
  | searched (nodeId : String) (complete : Bool) (path : List Hop) (cacheHit : Bool) (bytesRead recordsScanned : ℕ)
      (warnings : List String) (projectionIncomplete : Bool) (withheld : ℕ)

/-- The status of a report. -/
def Report.status : Report → String
  | .remoteNotFetched .. => "remote_reference_not_fetched"
  | .unresolved .. => "unresolved"
  | .unavailable .. => "unavailable"
  | .searched _ complete .. => if complete then "searched" else "partial"

/-- `Results`. -/
structure Results (σ : Type) where
  hits : List (RankedHit σ)
  reports : List Report
  matched : ℕ
  attempted : ℕ
  measuredBytes : ℕ
  chargedBytes : ℕ
  unknownReads : ℕ
  scanned : ℕ
  cacheHits : ℕ
  remote : ℕ
  projectionIncomplete : Bool
  metadataLimited : Bool
  metadataFollowed : ℕ

/-- `Results::default`. -/
def Results.empty : Results σ := ⟨[], [], 0, 0, 0, 0, 0, 0, 0, 0, false, false, 0⟩

/-- `Evidence`. -/
structure Evidence (σ : Type) where
  candidate : Candidate σ
  data : SourceCache
  loc : Locator
  key : String
  rank : ℕ
  cached : Bool

/-- `Results::admits`. -/
def Results.admits (r : Results σ) (score : σ) (node : String) (line limit : ℕ) : Bool :=
  r.hits.getLast?.all fun worst =>
    decide (r.hits.length < limit) || decide (worst.score < score) ||
      (decide (score = worst.score) && decide (toLex (node, line) < toLex (worst.node, worst.line)))

/-- The basis of a role. -/
def roleBasis : Locator → String
  | .conversation .. => "native_metadata"
  | _ => "source_format_heading_or_plain_text"

/-- The hit of a passage: the record, its relevance and its place among those of the source. -/
def hitOf (query : List String) (e : Evidence σ) (record : ℕ) (relevance : σ) (place : ℕ) (passage : Passage) :
    RankedHit σ :=
  ⟨S.fuse e.rank place, e.candidate.node, passage.line, e.candidate.seed, e.candidate.path, e.loc, e.data.sourcePath,
    passage.endLine, passage.ordinal.getD passage.line, passage.sourcePointer, passage.scalarSha256, passage.role,
    roleBasis e.loc, passage.timestamp, excerpt T passage.text query, passage.hash, e.data.sourceSha256,
    e.data.complete, if e.cached then "metadata_checked_cached_bytes" else "read_this_query", e.data.version, relevance,
    e.candidate.score, e.key, record⟩

/-- Rank one passage, and count the ones withheld. -/
def Results.rankOne (opts : Options) (query : List String) (e : Evidence σ) (acc : Results σ × ℕ)
    (item : (ℕ × σ) × ℕ) : Results σ × ℕ :=
  match e.data.passages[item.1.1]? with
  | none => acc
  | some passage =>
    if opts.role.any (· ≠ passage.role) then acc
    else
      let r := { acc.1 with matched := acc.1.matched + 1 }
      if scanCredentials passage.text.toList ≠ [] then (r, acc.2 + 1)
      else if r.admits (S.fuse e.rank item.2) e.candidate.node passage.line opts.limit then
        ({ r with hits := keepBest HitBefore opts.limit r.hits (hitOf T S query e item.1.1 item.1.2 item.2 passage) },
          acc.2)
      else (r, acc.2)

/-- `Results::rank`. -/
def Results.rank (r : Results σ) (opts : Options) (query : List String) (e : Evidence σ) : Results σ × ℕ :=
  (bm25 S e.data.docs query).zipIdx.foldl (Results.rankOne T S opts query e) (r, 0)

/-- `Results::failure`. -/
def Results.failure (r : Results σ) (candidate : Candidate σ) (loc : Locator) (failure : SourceFailure)
    (remaining : ℕ) : Results σ :=
  let charged := min (failure.consumed.getD remaining) remaining
  { r with
    chargedBytes := r.chargedBytes + charged
    measuredBytes := r.measuredBytes + failure.consumed.getD 0
    unknownReads := r.unknownReads + if failure.consumed.isSome then 0 else 1
    reports := r.reports ++
      [.unavailable candidate.node failure.error loc candidate.path charged failure.consumed] }

/-- `Results::success`. -/
def Results.success (r : Results σ) (e : Evidence σ) (read withheld : ℕ) : Results σ :=
  { r with
    measuredBytes := r.measuredBytes + read
    chargedBytes := r.chargedBytes + read
    projectionIncomplete := r.projectionIncomplete || e.data.projectionIncomplete
    cacheHits := r.cacheHits + if e.cached then 1 else 0
    scanned := r.scanned + if e.cached then 0 else e.data.recordsScanned
    reports := r.reports ++
      [.searched e.candidate.node e.data.complete e.candidate.path e.cached read
        (if e.cached then 0 else e.data.recordsScanned) e.data.warnings e.data.projectionIncomplete withheld] }

/-! ## Sessions that a source names -/

/-- The candidate of a reference. -/
def referenceCandidate (candidate : Candidate σ) (data : SourceCache) (reference : Reference) : Candidate σ :=
  let id := "source-ref:" ++ P.sha256Hex reference.locator.toText.toUTF8
  ⟨id, candidate.seed, S.referenced candidate.score,
    candidate.path ++ [⟨candidate.node, "METADATA_SESSION_REF", id, "forward",
      some ("sha256:" ++ data.sourceSha256 ++ "#" ++ reference.pointer)⟩], reference.locator⟩

/-- Push references, as long as there is room. -/
def pushReferences (candidate : Candidate σ) (data : SourceCache) :
    List Reference → List (Candidate σ) → Results σ → List (Candidate σ) × Results σ
  | [], pending, r => (pending, r)
  | reference :: rest, pending, r =>
    if maxFrontier ≤ pending.length then (pending, { r with metadataLimited := true })
    else
      pushReferences candidate data rest (pending ++ [referenceCandidate P S candidate data reference])
        { r with metadataFollowed := r.metadataFollowed + 1 }

/-- `enqueue_metadata`. -/
def enqueueMetadata (opts : Options) (candidate : Candidate σ) (data : SourceCache) (pending : List (Candidate σ))
    (r : Results σ) : List (Candidate σ) × Results σ :=
  if data.references = [] then (pending, r)
  else if opts.maxDepth ≤ candidate.path.length then (pending, { r with metadataLimited := true })
  else pushReferences P S candidate data data.references pending r

/-! ## Retrieval -/

/-- The state of `retrieve`. -/
structure Retrieval (σ : Type) where
  pending : List (Candidate σ)
  results : Results σ
  seen : List Locator
  store : Store

/-- The next candidate, and the others. -/
def popCandidate (pending : List (Candidate σ)) : Option (Candidate σ × List (Candidate σ)) :=
  match pending.insertionSort (BestFirst Candidate.score Candidate.node) with
  | [] => none
  | candidate :: rest => some (candidate, rest)

/-- How many bytes a source may have. Every pending one keeps an equal share. -/
def allowance (opts : Options) (charged pending : ℕ) : ℕ :=
  let remaining := opts.maxBytes - charged
  min (max (remaining / (pending + 1)) 1) remaining

/-- Read a source and rank what it gives. -/
def attempt (opts : Options) (query : List String) (st : Retrieval σ) (candidate : Candidate σ)
    (rest : List (Candidate σ)) (loc : Locator) : Retrieval σ :=
  let r := { st.results with attempted := st.results.attempted + 1 }
  let room := allowance opts r.chargedBytes rest.length
  match source P T E st.store loc opts room with
  | (.error failure, store) => ⟨rest, r.failure candidate loc failure room, loc :: st.seen, store⟩
  | (.ok got, store) =>
    let e : Evidence σ := ⟨candidate, got.data, loc, got.key, r.attempted, got.cached⟩
    let ranked := r.rank T S opts query e
    let pushed := enqueueMetadata P S opts candidate got.data rest (ranked.1.success e got.read ranked.2)
    ⟨pushed.1, pushed.2, loc :: st.seen, store⟩

/-- Pass a candidate on another machine. -/
def Results.passRemote (r : Results σ) (candidate : Candidate σ) : Results σ :=
  { r with
    remote := r.remote + 1
    reports := r.reports ++
      if r.remote < 3 then [.remoteNotFetched candidate.node candidate.locator candidate.path] else [] }

/-- Pass a candidate whose session is not known. -/
def Results.passUnresolved (r : Results σ) (candidate : Candidate σ) (reason : String) : Results σ :=
  { r with
    attempted := r.attempted + 1
    reports := r.reports ++ [.unresolved candidate.node reason candidate.path] }

/-- Take up a candidate; `none` if there were enough sources. -/
def takeUp (opts : Options) (query : List String) (st : Retrieval σ) (candidate : Candidate σ)
    (rest : List (Candidate σ)) : Option (Retrieval σ) :=
  if candidate.locator.remote then some { st with pending := rest, results := st.results.passRemote candidate }
  else if opts.maxSources ≤ st.results.attempted then none
  else
    match resolveLocator E opts candidate.locator with
    | .error reason => some { st with pending := rest, results := st.results.passUnresolved candidate reason }
    | .ok loc =>
      if loc ∈ st.seen then some { st with pending := rest }
      else some (attempt P T S E opts query st candidate rest loc)

/-- What taking up a candidate may do. -/
theorem takeUp_cases {opts : Options} {query : List String} {st next : Retrieval σ} {candidate : Candidate σ}
    {rest : List (Candidate σ)} (h : takeUp P T S E opts query st candidate rest = some next) :
    (candidate.locator.remote = true ∧
        next = { st with pending := rest, results := st.results.passRemote candidate }) ∨
      (candidate.locator.remote = false ∧ st.results.attempted < opts.maxSources ∧
        ((∃ reason, resolveLocator E opts candidate.locator = .error reason ∧
            next = { st with pending := rest, results := st.results.passUnresolved candidate reason }) ∨
          ∃ loc, resolveLocator E opts candidate.locator = .ok loc ∧
            ((loc ∈ st.seen ∧ next = { st with pending := rest }) ∨
              (loc ∉ st.seen ∧ next = attempt P T S E opts query st candidate rest loc)))) := by
  unfold takeUp at h
  by_cases hremote : candidate.locator.remote = true
  · rw [if_pos hremote] at h
    exact .inl ⟨hremote, (Option.some.inj h).symm⟩
  rw [if_neg hremote] at h
  refine .inr ⟨Bool.eq_false_iff.mpr hremote, ?_⟩
  by_cases hfull : opts.maxSources ≤ st.results.attempted
  · rw [if_pos hfull] at h
    cases h
  rw [if_neg hfull] at h
  refine ⟨Nat.lt_of_not_le hfull, ?_⟩
  cases hresolve : resolveLocator E opts candidate.locator with
  | error reason =>
    rw [hresolve] at h
    exact .inl ⟨reason, rfl, (Option.some.inj h).symm⟩
  | ok loc =>
    rw [hresolve] at h
    dsimp only at h
    refine .inr ⟨loc, rfl, ?_⟩
    by_cases hseen : loc ∈ st.seen
    · rw [if_pos hseen] at h
      exact .inl ⟨hseen, (Option.some.inj h).symm⟩
    · rw [if_neg hseen] at h
      exact .inr ⟨hseen, (Option.some.inj h).symm⟩

section Termination

omit [LinearOrder σ] in
theorem pushReferences_attempted (candidate : Candidate σ) (data : SourceCache) (refs : List Reference)
    (pending : List (Candidate σ)) (r : Results σ) :
    (pushReferences P S candidate data refs pending r).2.attempted = r.attempted := by
  induction refs generalizing pending r with
  | nil => rfl
  | cons reference rest ih =>
    rw [pushReferences]
    split_ifs
    · rfl
    · rw [ih]

omit [LinearOrder σ] in
theorem enqueueMetadata_attempted (opts : Options) (candidate : Candidate σ) (data : SourceCache)
    (pending : List (Candidate σ)) (r : Results σ) :
    (enqueueMetadata P S opts candidate data pending r).2.attempted = r.attempted := by
  unfold enqueueMetadata
  split_ifs
  · rfl
  · rfl
  · exact pushReferences_attempted P S candidate data _ _ _

theorem rankOne_attempted (opts : Options) (query : List String) (e : Evidence σ) (acc : Results σ × ℕ)
    (item : (ℕ × σ) × ℕ) : (Results.rankOne T S opts query e acc item).1.attempted = acc.1.attempted := by
  unfold Results.rankOne
  dsimp only
  split
  · rfl
  · split_ifs <;> rfl

theorem rank_attempted (r : Results σ) (opts : Options) (query : List String) (e : Evidence σ) :
    (r.rank T S opts query e).1.attempted = r.attempted :=
  List.foldlRecOn (motive := fun acc => acc.1.attempted = r.attempted) _ _ rfl
    fun acc hacc item _ => (rankOne_attempted T S opts query e acc item).trans hacc

theorem attempt_attempted (opts : Options) (query : List String) (st : Retrieval σ) (candidate : Candidate σ)
    (rest : List (Candidate σ)) (loc : Locator) :
    (attempt P T S E opts query st candidate rest loc).results.attempted = st.results.attempted + 1 := by
  unfold attempt
  dsimp only
  split
  · rfl
  · dsimp only
    rw [enqueueMetadata_attempted, Results.success, rank_attempted]

theorem popCandidate_perm {pending rest : List (Candidate σ)} {candidate : Candidate σ}
    (h : popCandidate pending = some (candidate, rest)) : pending.Perm (candidate :: rest) := by
  unfold popCandidate at h
  have hperm := List.perm_insertionSort (BestFirst Candidate.score Candidate.node) pending
  split at h
  · cases h
  · rename_i c r hsort
    obtain ⟨rfl, rfl⟩ := Prod.mk.inj (Option.some.inj h)
    rw [hsort] at hperm
    exact hperm.symm

/-- A candidate that is taken up costs an attempt, or it is one less that is pending. -/
theorem takeUp_less {opts : Options} {query : List String} {st next : Retrieval σ} {candidate : Candidate σ}
    {rest : List (Candidate σ)} (hpop : popCandidate st.pending = some (candidate, rest))
    (htake : takeUp P T S E opts query st candidate rest = some next) :
    Prod.Lex (· < ·) (· < ·) (opts.maxSources - next.results.attempted, next.pending.length)
      (opts.maxSources - st.results.attempted, st.pending.length) := by
  have hlength := (popCandidate_perm hpop).length_eq
  rw [List.length_cons] at hlength
  rcases takeUp_cases P T S E htake with ⟨-, rfl⟩ | ⟨-, hroom, ⟨reason, -, rfl⟩ | ⟨loc, -, ⟨-, rfl⟩ | ⟨-, rfl⟩⟩⟩
  · exact Prod.Lex.right _ (by dsimp only; omega)
  · exact Prod.Lex.left _ _ (by dsimp only [Results.passUnresolved]; omega)
  · exact Prod.Lex.right _ (by dsimp only; omega)
  · refine Prod.Lex.left _ _ ?_
    rw [attempt_attempted]
    omega

end Termination

/-- `retrieve`: the state behind it, and whether there were more sources than may be. -/
def retrieve (opts : Options) (query : List String) (st : Retrieval σ) : Retrieval σ × Bool :=
  match _hpop : popCandidate st.pending with
  | none => (st, false)
  | some (candidate, rest) =>
    match _htake : takeUp P T S E opts query st candidate rest with
    | none => ({ st with pending := rest }, true)
    | some next => retrieve opts query next
termination_by (opts.maxSources - st.results.attempted, st.pending.length)
decreasing_by exact takeUp_less P T S E _hpop _htake

section Equations

variable {P T S E} {opts : Options} {query : List String} {st next : Retrieval σ} {candidate : Candidate σ}
  {rest : List (Candidate σ)}

theorem retrieve_none (hpop : popCandidate st.pending = none) : retrieve P T S E opts query st = (st, false) := by
  rw [retrieve]
  split
  · rfl
  · rename_i hsome
    rw [hpop] at hsome
    cases hsome

theorem retrieve_stop (hpop : popCandidate st.pending = some (candidate, rest))
    (htake : takeUp P T S E opts query st candidate rest = none) :
    retrieve P T S E opts query st = ({ st with pending := rest }, true) := by
  rw [retrieve]
  split
  · rename_i hnone
    rw [hpop] at hnone
    cases hnone
  · rename_i hsome
    rw [hpop] at hsome
    obtain ⟨rfl, rfl⟩ := Prod.mk.inj (Option.some.inj hsome)
    split
    · rfl
    · rename_i hnext
      rw [htake] at hnext
      cases hnext

theorem retrieve_next (hpop : popCandidate st.pending = some (candidate, rest))
    (htake : takeUp P T S E opts query st candidate rest = some next) :
    retrieve P T S E opts query st = retrieve P T S E opts query next := by
  rw [retrieve]
  split
  · rename_i hnone
    rw [hpop] at hnone
    cases hnone
  · rename_i hsome
    rw [hpop] at hsome
    obtain ⟨rfl, rfl⟩ := Prod.mk.inj (Option.some.inj hsome)
    split
    · rename_i hstop
      rw [htake] at hstop
      cases hstop
    · rename_i hnext
      rw [htake] at hnext
      rw [Option.some.inj hnext]

end Equations

/-! ## Coverage -/

/-- `coverage`: whether anything is known to be left out, and the warnings. -/
def coverage (r : Results σ) (graphLimited sourceLimited wikiMissing : Bool) : Bool × List String :=
  (wikiMissing || graphLimited || sourceLimited ||
      r.reports.any (fun report => decide (report.status ∈ ["unavailable", "unresolved", "partial"])) ||
      decide (0 < r.remote) || r.projectionIncomplete || r.metadataLimited,
    (if wikiMissing then ["wiki_projection_missing: run innen wiki sync"] else []) ++
      (if graphLimited then ["graph_node_depth_or_frontier_budget_limited"] else []) ++
      (if sourceLimited then ["source_candidate_budget_limited"] else []) ++
      (if 0 < r.remote then
        [toString r.remote ++ " remote references not fetched; at most three examples shown"] else []) ++
      (if r.projectionIncomplete then ["source_projection_incomplete"] else []) ++
      (if r.metadataLimited then ["metadata_source_path_budget_limited"] else []))

/-- `validate`. -/
def validateOptions (opts : Options) : Except String (List String) :=
  if opts.limit = 0 ∨ 100 < opts.limit ∨ opts.maxSources = 0 ∨ 64 < opts.maxSources ∨ opts.maxNodes = 0 ∨
      4096 < opts.maxNodes ∨ 8 < opts.maxDepth ∨ opts.maxBytes = 0 ∨ 512 * 1024 * 1024 < opts.maxBytes ∨
      opts.maxRecords = 0 ∨ 200000 < opts.maxRecords then
    .error "invalid retrieval budgets"
  else if opts.role.any fun role => decide (role ∉ ["user", "assistant", "source"]) then
    .error "role must be user, assistant, or source"
  else if tokens T opts.q = [] then .error "query has no searchable terms"
  else .ok (tokens T opts.q)

/-- What `search` returns. -/
structure Outcome (σ : Type) where
  resolution : String
  query : String
  hits : List (RankedHit σ)
  totalMatchedPassages : ℕ
  outputTruncated : Bool
  coverageIncomplete : Bool
  warnings : List String
  sources : List Report
  nodesVisited : ℕ
  sourcesAttempted : ℕ
  sourceCacheHits : ℕ
  sourceBytesRead : Option ℕ
  sourceBytesCharged : ℕ
  sourceRecordsScanned : ℕ
  failedReads : ℕ
  metadataReferencesFollowed : ℕ

/-- What is around a search: the regular files, the root, and the time when seeds are chosen and when links are
followed. -/
structure Scene where
  isFile : String → Bool
  root : String
  seedNow : String
  now : String

/-- `search`, with the store behind it. -/
def search (scene : Scene) (graph : GraphCache) (store : Store) (opts : Options) :
    Except String (Outcome σ × Store) := do
  let query ← validateOptions T opts
  let found ← candidates T S scene.isFile graph scene.root scene.seedNow scene.now opts query
  let done := retrieve P T S E opts query ⟨found.1, .empty, [], store⟩
  let r := done.1.results
  let covered := coverage r found.2.2 done.2 (!graph.nodes.entries.any fun e => kindOf T e.2 = "wiki")
  return (⟨if r.hits = [] then "no_match_in_covered_sources" else "evidence_candidates", opts.q, r.hits, r.matched,
    decide (opts.limit < r.matched), covered.1, covered.2, r.reports, found.2.1, r.attempted, r.cacheHits,
    if r.unknownReads = 0 then some r.measuredBytes else none, r.chargedBytes, r.scanned, r.unknownReads,
    r.metadataFollowed⟩, done.1.store)

end Innen.Trace
