import Innen.Common.Except
import Innen.Journal.Table
import Innen.Trace.Reach
import Innen.Trace.Search

/-!
# What a search has covered

A search that reports nothing as left out has read each local source of a node that the walk has visited, and it has
ranked all that matches in it. It has visited all nodes that links lead to from the seeds. But only twelve of the nodes
that match are seeds, and no flag says that there were more.
-/

namespace Innen.Trace

open Common Graph Journal Credentials

variable {σ : Type} [LinearOrder σ] {P : Platform} {T : Tables} {S : Scores σ} {E : Surroundings}

/-! ## Ranking -/

/-- A hit was ranked: it is placed, and it is among the hits unless there are more matches than hits may be. -/
def Results.Ranks (limit : ℕ) (r : Results σ) (h : RankedHit σ) : Prop :=
  Placed HitBefore limit r.hits h ∧ (r.matched ≤ limit → h ∈ r.hits)

/-- What holds all along of the hits. -/
structure Results.Ordered (r : Results σ) : Prop where
  sorted : r.hits.Pairwise HitBefore
  few : r.hits.length ≤ r.matched

theorem Results.Ranks.of_hits {limit : ℕ} {r r' : Results σ} {h : RankedHit σ} (hr : r.Ranks limit h)
    (hhits : r'.hits = r.hits) (hmatched : r.matched ≤ r'.matched) : r'.Ranks limit h := by
  unfold Results.Ranks
  rw [hhits]
  exact ⟨hr.1, fun hfew => hr.2 (hmatched.trans hfew)⟩

/-- What is not admitted comes behind all hits. -/
theorem placed_of_not_admits {r : Results σ} {limit : ℕ} (h : RankedHit σ) (hsorted : r.hits.Pairwise HitBefore)
    (hnot : r.admits h.score h.node h.line limit = false) : limit ≤ r.hits.length ∧ ∀ b ∈ r.hits, HitBefore b h := by
  unfold Results.admits at hnot
  rcases List.eq_nil_or_concat r.hits with hnil | ⟨front, worst, hfront⟩
  · rw [hnil] at hnot
    cases hnot
  · rw [List.concat_eq_append] at hfront
    rw [hfront, List.getLast?_concat, Option.all_some, ← hfront] at hnot
    simp only [Bool.or_eq_false_iff, decide_eq_false_iff_not, Bool.and_eq_false_iff, not_lt] at hnot
    obtain ⟨⟨hfull, hscore⟩, htie⟩ := hnot
    have hlast : HitBefore worst h := by
      unfold HitBefore RankedHit.rankKey
      rw [Prod.Lex.toLex_le_toLex]
      rcases hscore.lt_or_eq with hlt | heq
      · exact .inl hlt
      · refine .inr ⟨by rw [heq], ?_⟩
        rcases htie with hne | hle
        · exact absurd heq hne
        · exact hle
    refine ⟨hfull, fun b hb => ?_⟩
    rw [hfront] at hb hsorted
    rcases List.mem_append.mp hb with hb | hb
    · exact IsTrans.trans _ _ _ ((List.pairwise_append.mp hsorted).2.2 b hb worst List.mem_cons_self) hlast
    · rw [List.mem_singleton.mp hb]
      exact hlast

section Rank

variable {opts : Options} {query : List String} {e : Evidence σ} {acc : Results σ × ℕ} {item : (ℕ × σ) × ℕ}

theorem rankOne_ordered (h : acc.1.Ordered) : (Results.rankOne T S opts query e acc item).1.Ordered := by
  unfold Results.rankOne
  dsimp only
  split
  · exact h
  · split_ifs
    · exact h
    · exact ⟨h.sorted, h.few.trans (Nat.le_succ _)⟩
    · refine ⟨pairwise_keepBest, ?_⟩
      rw [length_keepBest]
      exact (min_le_right _ _).trans (Nat.succ_le_succ h.few)
    · exact ⟨h.sorted, h.few.trans (Nat.le_succ _)⟩

/-- What was ranked stays ranked. -/
theorem rankOne_keeps (h : acc.1.Ordered) {hit : RankedHit σ} (hhit : acc.1.Ranks opts.limit hit) :
    (Results.rankOne T S opts query e acc item).1.Ranks opts.limit hit := by
  unfold Results.rankOne
  dsimp only
  split
  · exact hhit
  · split_ifs
    · exact hhit
    · exact hhit.of_hits rfl (Nat.le_succ _)
    · refine ⟨hhit.1.keepBest, fun hfew => (mem_keepBest ?_).mpr (.inl (hhit.2 (Nat.le_of_succ_le hfew)))⟩
      exact Nat.lt_of_le_of_lt h.few hfew
    · exact hhit.of_hits rfl (Nat.le_succ _)

/-- A passage of the role that is asked for and without a credential is ranked. -/
theorem rankOne_ranks (h : acc.1.Ordered) {passage : Passage} (hpassage : e.data.passages[item.1.1]? = some passage)
    (hrole : opts.role.any (· ≠ passage.role) = false) (hclean : scanCredentials passage.text.toList = []) :
    (Results.rankOne T S opts query e acc item).1.Ranks opts.limit
      (hitOf T S query e item.1.1 item.1.2 item.2 passage) := by
  unfold Results.rankOne
  rw [hpassage]
  dsimp only
  rw [if_neg (by rw [hrole]; exact Bool.false_ne_true), if_neg (not_not.mpr hclean)]
  split_ifs with hadmits
  · refine ⟨placed_of_mem (.inr rfl), fun hfew => (mem_keepBest ?_).mpr (.inr rfl)⟩
    exact Nat.lt_of_le_of_lt h.few hfew
  · obtain ⟨hfull, hbefore⟩ := placed_of_not_admits (hitOf T S query e item.1.1 item.1.2 item.2 passage) h.sorted
      (Bool.eq_false_iff.mpr hadmits)
    exact ⟨.inr ⟨hfull, hbefore⟩, fun hfew => absurd (hfull.trans h.few) (Nat.not_le_of_lt hfew)⟩

theorem rankOne_reports :
    (Results.rankOne T S opts query e acc item).1.reports = acc.1.reports := by
  unfold Results.rankOne
  dsimp only
  split
  · rfl
  · split_ifs <;> rfl

variable {r : Results σ}

theorem rank_ordered (h : r.Ordered) : (r.rank T S opts query e).1.Ordered :=
  List.foldlRecOn (motive := fun acc : Results σ × ℕ => acc.1.Ordered) _ _ h fun _ hacc _ _ => rankOne_ordered hacc

theorem rank_keeps (h : r.Ordered) {hit : RankedHit σ} (hhit : r.Ranks opts.limit hit) :
    (r.rank T S opts query e).1.Ranks opts.limit hit :=
  (List.foldlRecOn (motive := fun acc : Results σ × ℕ => acc.1.Ordered ∧ acc.1.Ranks opts.limit hit) _ _ ⟨h, hhit⟩
    fun _ hacc _ _ => ⟨rankOne_ordered hacc.1, rankOne_keeps hacc.1 hacc.2⟩).2

theorem rank_reports : (r.rank T S opts query e).1.reports = r.reports :=
  List.foldlRecOn (motive := fun acc : Results σ × ℕ => acc.1.reports = r.reports) _ _ rfl
    fun _ hacc _ _ => rankOne_reports.trans hacc

/-- Each passage that matches, with the role that is asked for and without a credential, is ranked. -/
theorem rank_ranks (h : r.Ordered) {i : ℕ} {passage : Passage} {doc : LexDoc} (hpassage : e.data.passages[i]? = some passage)
    (hdoc : e.data.docs[i]? = some doc) (hhits : doc.hits query = true)
    (hrole : opts.role.any (· ≠ passage.role) = false) (hclean : scanCredentials passage.text.toList = []) :
    ∃ relevance place, (r.rank T S opts query e).1.Ranks opts.limit (hitOf T S query e i relevance place passage) := by
  obtain ⟨relevance, hmem⟩ := (mem_bm25 (S := S)).mpr ⟨doc, hdoc, hhits⟩
  obtain ⟨place, hget⟩ := List.getElem?_of_mem hmem
  have hplace := List.mk_mem_zipIdx_iff_getElem?.mpr hget
  refine ⟨relevance, place, ?_⟩
  have hrun := foldl_establishes (f := Results.rankOne T S opts query e) (fun acc => acc.1.Ordered)
    (fun acc => acc.1.Ordered ∧ acc.1.Ranks opts.limit (hitOf T S query e i relevance place passage)) hplace
    (fun _ _ _ hacc => rankOne_ordered hacc)
    (fun _ hacc => ⟨rankOne_ordered hacc, rankOne_ranks hacc hpassage hrole hclean⟩)
    (fun _ _ _ hacc => ⟨rankOne_ordered hacc.1, rankOne_keeps hacc.1 hacc.2⟩) (s := (r, 0)) h
  exact hrun.2

end Rank

/-- All that is to be ranked of a source was ranked. -/
def Results.RanksAll (opts : Options) (query : List String) (r : Results σ) (loc : Locator) (data : SourceCache) : Prop :=
  ∀ i passage doc, data.passages[i]? = some passage → data.docs[i]? = some doc → doc.hits query = true →
    opts.role.any (· ≠ passage.role) = false → scanCredentials passage.text.toList = [] →
    ∃ hit : RankedHit σ, hit.source = loc ∧ hit.record = i ∧ hit.recordSha256 = passage.hash ∧ r.Ranks opts.limit hit

/-! ## Sources that were read completely -/

/-- A source was read completely: the whole text of a file, all records of a session, or what was kept of it as long as
its version is the same. -/
def ReadWhole (P : Platform) (T : Tables) (E : Surroundings) (store : Store) (opts : Options) (loc : Locator)
    (data : SourceCache) : Prop :=
  data.complete = true ∧
    ((∃ path text, loc = .file path ∧ String.fromUTF8? (E.content path) = some text ∧
        (filePassages P T text.toList opts.maxRecords).truncated = false ∧
        data.passages = (filePassages P T text.toList opts.maxRecords).passages ∧
        data.docs = docsOf T data.passages) ∨
      (∃ sourceName id root room result, loc = .conversation sourceName id root ∧
        E.scan root sourceName id room opts.maxRecords = .ok result ∧ result.complete = true ∧
        result.projectionIncomplete = false ∧ data.passages = result.records.filterMap (nativePassage P) ∧
        data.docs = docsOf T data.passages) ∨
      ∃ key, store.entry key = some data ∧ data.locator = loc ∧
        (E.version data.sourcePath).toOption = some data.version)

/-- A file that was read completely was read to its end, and none of its passages is left out. -/
theorem readFile_complete {path : String} {before : Version} {opts : Options} {remaining : ℕ} {read : ReadOutcome}
    (h : readFile P T E path before opts remaining = .ok read) (hversion : E.version path = .ok before)
    (hcomplete : read.complete = true) :
    ∃ text, String.fromUTF8? (E.content path) = some text ∧
      (filePassages P T text.toList opts.maxRecords).truncated = false ∧
      read.passages = (filePassages P T text.toList opts.maxRecords).passages := by
  unfold readFile at h
  dsimp only at h
  split at h
  · cases h
  · rename_i text htext
    split_ifs at h with hchanged
    obtain rfl := Except.ok.inj h
    simp only [fileOutcome, Bool.and_eq_true, decide_eq_true_eq, Bool.not_eq_true', Bool.or_eq_false_iff] at hcomplete
    obtain ⟨hsize, hscan, -⟩ := hcomplete
    have hall : (E.content path).extract 0 remaining = E.content path := by
      have hbefore : before.bytes = (E.content path).size := by
        unfold Surroundings.version at hversion
        cases hmodified : E.modified path with
        | error e =>
          rw [hmodified] at hversion
          cases hversion
        | ok ns =>
          rw [hmodified] at hversion
          rw [← Except.ok.inj hversion]
      rw [hbefore, ByteArray.size_extract, Nat.sub_zero] at hsize
      have hle : (E.content path).data.size ≤ remaining := by
        rw [ByteArray.size_data]
        omega
      exact ByteArray.ext ((ByteArray.data_extract).trans (Array.extract_eq_self_of_le hle))
    rw [hall] at htext hsize
    rw [sourceText?, decide_eq_true hsize, if_pos rfl, Option.or_none] at htext
    exact ⟨text, htext, hscan, rfl⟩

section

variable {store store' : Store} {opts : Options} {loc : Locator} {room : ℕ}

/-- What is read now and is complete was read completely. -/
theorem readSource_whole {read : ReadOutcome} (h : readSource P T E loc opts room = .ok read)
    (hcomplete : read.complete = true) : ReadWhole P T E store opts loc (cacheOf T loc read opts room) := by
  refine ⟨hcomplete, ?_⟩
  cases loc with
  | file path =>
    obtain ⟨before, hbefore, hread⟩ := bind_eq_ok.mp h
    rw [mapError_eq_ok] at hbefore hread
    have hversion : E.version path = .ok before := by
      unfold filePreflight at hbefore
      dsimp only at hbefore
      split_ifs at hbefore
      exact hbefore
    obtain ⟨text, htext, hall, hpassages⟩ := readFile_complete hread hversion hcomplete
    exact .inl ⟨path, text, rfl, htext, hall, hpassages, rfl⟩
  | conversation sourceName id root =>
    rw [readSource, mapError_eq_ok] at h
    obtain ⟨result, hscan, h⟩ := bind_eq_ok.mp h
    obtain ⟨version, -, h⟩ := bind_eq_ok.mp h
    split_ifs at h with hchanged
    obtain rfl := Except.ok.inj h
    simp only [Bool.and_eq_true, Bool.not_eq_true'] at hcomplete
    exact .inr (.inl ⟨sourceName, id, root, room, result, rfl, hscan, hcomplete.1, hcomplete.2, rfl, rfl⟩)
  | url address => cases h

/-- What a source gives and is complete was read completely, as far as the store has only what it had first or what
other locators gave. -/
theorem source_whole {first : Store} {seen : List Locator} {got : Sourced}
    (h : source P T E store loc opts room = (.ok got, store')) (hcomplete : got.data.complete = true)
    (hnew : loc ∉ seen) (hstored : ∀ key data, store.entry key = some data →
      first.entry key = some data ∨ data.locator ∈ seen) :
    ReadWhole P T E first opts loc got.data := by
  rcases source_ok h with ⟨hcached, -⟩ | ⟨read, hread, hkept⟩
  · obtain ⟨hentry, hloc, hversion⟩ := loadCached_eq_some hcached
    rcases hstored _ _ hentry with hfirst | hseen
    · exact ⟨hcomplete, .inr (.inr ⟨got.key, hfirst, hloc, hversion⟩)⟩
    · exact absurd (hloc ▸ hseen) hnew
  · have hdata : got.data = cacheOf T loc read opts room := (persist_eq_ok hkept).1
    rw [hdata] at hcomplete ⊢
    exact readSource_whole hread hcomplete

/-- A source adds to the store only what it has read. -/
theorem source_stored {result : Except SourceFailure Sourced}
    (h : source P T E store loc opts room = (result, store')) {key : String} {data : SourceCache}
    (hentry : store'.entry key = some data) : store.entry key = some data ∨ data.locator = loc := by
  cases result with
  | error failure => exact .inl (source_error h ▸ hentry)
  | ok got =>
    rcases source_ok h with ⟨-, rfl⟩ | ⟨read, -, hkept⟩
    · exact .inl hentry
    · obtain ⟨hdata, hentries⟩ := persist_eq_ok hkept
      rcases hentries key with hsame | hnew
      · exact .inl (hsame ▸ hentry)
      · have heq : got.data = data := Option.some.inj (hnew.symm.trans hentry)
        rw [← heq]
        exact .inr (congrArg SourceCache.locator hdata)

end

/-! ## The invariant of retrieval -/

/-- A source is reported as not read, or not completely. -/
def Lost (reports : List Report) : Prop :=
  ∃ report ∈ reports, report.status ∈ ["unavailable", "unresolved", "partial"]

theorem Lost.append {reports : List Report} (h : Lost reports) (more : List Report) : Lost (reports ++ more) := by
  obtain ⟨report, hreport, hstatus⟩ := h
  exact ⟨report, List.mem_append_left _ hreport, hstatus⟩

/-- What holds all along of a retrieval: each candidate is pending, or lost, or its source was seen; each source that
was seen is lost, or it was read completely and all of it is ranked. -/
structure RetrievalInv (P : Platform) (T : Tables) (E : Surroundings) (store : Store) (opts : Options)
    (query : List String) (start : List (Candidate σ)) (st : Retrieval σ) : Prop where
  ordered : st.results.Ordered
  handled : ∀ c ∈ start, c.locator.remote = false → c ∈ st.pending ∨ Lost st.results.reports ∨
    ∃ loc ∈ st.seen, resolveLocator E opts c.locator = .ok loc
  whole : ∀ loc ∈ st.seen, Lost st.results.reports ∨
    ∃ data, ReadWhole P T E store opts loc data ∧ st.results.RanksAll opts query loc data
  stored : ∀ key data, st.store.entry key = some data → store.entry key = some data ∨ data.locator ∈ st.seen

section

variable {store : Store} {opts : Options} {query : List String} {start : List (Candidate σ)} {st next : Retrieval σ}
  {candidate : Candidate σ} {rest : List (Candidate σ)}

theorem retrievalInv_start : RetrievalInv P T E store opts query start ⟨start, .empty, [], store⟩ where
  ordered := ⟨List.Pairwise.nil, Nat.le_refl 0⟩
  handled _ hc _ := .inl hc
  whole _ hloc := absurd hloc List.not_mem_nil
  stored _ _ hentry := .inl hentry

theorem Results.RanksAll.of_ranks {r r' : Results σ} {loc : Locator} {data : SourceCache}
    (h : r.RanksAll opts query loc data) (hkeep : ∀ hit, r.Ranks opts.limit hit → r'.Ranks opts.limit hit) :
    r'.RanksAll opts query loc data := by
  intro i passage doc hpassage hdoc hhits hrole hclean
  obtain ⟨hit, hsource, hrecord, hhash, hranks⟩ := h i passage doc hpassage hdoc hhits hrole hclean
  exact ⟨hit, hsource, hrecord, hhash, hkeep hit hranks⟩

/-- A candidate that is passed is handled if it is on another machine, or lost, or its source was seen. -/
theorem RetrievalInv.pass (h : RetrievalInv P T E store opts query start st)
    (hpop : popCandidate st.pending = some (candidate, rest)) {r : Results σ}
    (hhits : r.hits = st.results.hits) (hmatched : r.matched = st.results.matched)
    {more : List Report} (hreports : r.reports = st.results.reports ++ more)
    (hcandidate : candidate.locator.remote = false → Lost r.reports ∨
      ∃ loc ∈ st.seen, resolveLocator E opts candidate.locator = .ok loc) :
    RetrievalInv P T E store opts query start { st with pending := rest, results := r } where
  ordered := ⟨hhits ▸ h.ordered.sorted, by rw [hhits, hmatched]; exact h.ordered.few⟩
  handled c hc hlocal := by
    rcases h.handled c hc hlocal with hpending | hlost | hseen
    · rcases List.mem_cons.mp ((popCandidate_perm hpop).mem_iff.mp hpending) with rfl | hrest
      · exact .inr (hcandidate hlocal)
      · exact .inl hrest
    · exact .inr (.inl (hreports ▸ hlost.append more))
    · exact .inr (.inr hseen)
  whole loc hloc := by
    rcases h.whole loc hloc with hlost | ⟨data, hwhole, hranks⟩
    · exact .inl (hreports ▸ hlost.append more)
    · exact .inr ⟨data, hwhole, hranks.of_ranks fun hit hhit => hhit.of_hits hhits hmatched.ge⟩
  stored := h.stored

omit [LinearOrder σ] in
theorem pushReferences_spec {data : SourceCache} (refs : List Reference) (pending : List (Candidate σ)) (r : Results σ) :
    (∀ c ∈ pending, c ∈ (pushReferences P S candidate data refs pending r).1) ∧
      (pushReferences P S candidate data refs pending r).2.hits = r.hits ∧
      (pushReferences P S candidate data refs pending r).2.matched = r.matched ∧
      (pushReferences P S candidate data refs pending r).2.reports = r.reports := by
  induction refs generalizing pending r with
  | nil => exact ⟨fun c hc => hc, rfl, rfl, rfl⟩
  | cons reference rest ih =>
    rw [pushReferences]
    split_ifs
    · exact ⟨fun c hc => hc, rfl, rfl, rfl⟩
    · obtain ⟨hpending, hhits, hmatched, hreports⟩ := ih (pending ++ [referenceCandidate P S candidate data reference])
        { r with metadataFollowed := r.metadataFollowed + 1 }
      exact ⟨fun c hc => hpending c (List.mem_append_left _ hc), hhits, hmatched, hreports⟩

omit [LinearOrder σ] in
/-- The sessions that a source names are put to the pending ones, and nothing else changes. -/
theorem enqueueMetadata_spec (P : Platform) (S : Scores σ) (opts : Options) (candidate : Candidate σ)
    (data : SourceCache) (pending : List (Candidate σ)) (r : Results σ) :
    (∀ c ∈ pending, c ∈ (enqueueMetadata P S opts candidate data pending r).1) ∧
      (enqueueMetadata P S opts candidate data pending r).2.hits = r.hits ∧
      (enqueueMetadata P S opts candidate data pending r).2.matched = r.matched ∧
      (enqueueMetadata P S opts candidate data pending r).2.reports = r.reports := by
  unfold enqueueMetadata
  split_ifs
  · exact ⟨fun c hc => hc, rfl, rfl, rfl⟩
  · exact ⟨fun c hc => hc, rfl, rfl, rfl⟩
  · exact pushReferences_spec _ _ _

/-- Reading a source keeps the invariant. -/
theorem RetrievalInv.attempt (h : RetrievalInv P T E store opts query start st)
    (hpop : popCandidate st.pending = some (candidate, rest)) {loc : Locator}
    (hresolve : resolveLocator E opts candidate.locator = .ok loc) (hnew : loc ∉ st.seen) :
    RetrievalInv P T E store opts query start (Trace.attempt P T S E opts query st candidate rest loc) := by
  have hmem := fun c => (popCandidate_perm hpop).mem_iff (a := c)
  set r : Results σ := { st.results with attempted := st.results.attempted + 1 } with hr
  have hordered : r.Ordered := ⟨h.ordered.sorted, h.ordered.few⟩
  -- what was handled before still is, and so is the candidate
  have hhandled : ∀ (pending : List (Candidate σ)) (reports : List Report), (∀ c ∈ rest, c ∈ pending) → (Lost st.results.reports → Lost reports) →
      ∀ c ∈ start, c.locator.remote = false → c ∈ pending ∨ Lost reports ∨
        ∃ l ∈ loc :: st.seen, resolveLocator E opts c.locator = .ok l := by
    intro pending reports hpending hlost c hc hlocal
    rcases h.handled c hc hlocal with hold | hold | ⟨l, hl, hsame⟩
    · rcases List.mem_cons.mp ((hmem c).mp hold) with rfl | hrest
      · exact .inr (.inr ⟨loc, List.mem_cons_self, hresolve⟩)
      · exact .inl (hpending c hrest)
    · exact .inr (.inl (hlost hold))
    · exact .inr (.inr ⟨l, List.mem_cons_of_mem _ hl, hsame⟩)
  have hstored : ∀ result store', source P T E st.store loc opts (allowance opts r.chargedBytes rest.length) =
      (result, store') → ∀ key data, store'.entry key = some data →
        store.entry key = some data ∨ data.locator ∈ loc :: st.seen := by
    intro result store' hsource key data hentry
    rcases source_stored hsource hentry with hold | hloc
    · exact (h.stored key data hold).imp_right (List.mem_cons_of_mem _)
    · exact .inr (List.mem_cons.mpr (.inl hloc))
  unfold Trace.attempt
  dsimp only
  rw [← hr]
  split
  · rename_i failure store' hsource
    have hlost : Lost (r.failure candidate loc failure (allowance opts r.chargedBytes rest.length)).reports :=
      ⟨_, List.mem_append_right _ List.mem_cons_self, List.mem_cons_self⟩
    exact ⟨⟨hordered.sorted, hordered.few⟩, hhandled _ _ (fun c hc => hc) (fun _ => hlost), fun _ _ => .inl hlost, hstored _ _ hsource⟩
  · rename_i got store' hsource
    set e : Evidence σ := ⟨candidate, got.data, loc, got.key, r.attempted, got.cached⟩ with he
    set ranked := r.rank T S opts query e with hranked
    obtain ⟨hpending, hhits, hmatched, hreports⟩ := enqueueMetadata_spec P S opts candidate got.data rest
      (ranked.1.success e got.read ranked.2)
    set pushed := enqueueMetadata P S opts candidate got.data rest (ranked.1.success e got.read ranked.2)
    have hafter : pushed.2.reports = st.results.reports ++ [.searched candidate.node got.data.complete candidate.path
        got.cached got.read (if got.cached then 0 else got.data.recordsScanned) got.data.warnings
        got.data.projectionIncomplete ranked.2] := by
      rw [hreports, Results.success, hranked, rank_reports]
    have hlost : Lost st.results.reports → Lost pushed.2.reports := fun hold => hafter ▸ hold.append _
    have hranks : ∀ hit, ranked.1.Ranks opts.limit hit → pushed.2.Ranks opts.limit hit :=
      fun hit hhit => hhit.of_hits hhits hmatched.ge
    refine ⟨⟨?_, ?_⟩, hhandled _ _ hpending hlost, fun l hl => ?_, hstored _ _ hsource⟩
    · rw [hhits]
      exact (rank_ordered hordered).sorted
    · rw [hhits, hmatched]
      exact (rank_ordered hordered).few
    · rcases List.mem_cons.mp hl with rfl | hl
      · cases hcomplete : got.data.complete with
        | false =>
          refine .inl ⟨_, hafter ▸ List.mem_append_right _ List.mem_cons_self, ?_⟩
          rw [Report.status, hcomplete]
          exact List.mem_cons_of_mem _ (List.mem_cons_of_mem _ List.mem_cons_self)
        | true =>
          refine .inr ⟨got.data, source_whole hsource hcomplete hnew h.stored, ?_⟩
          intro i passage doc hpassage hdoc hdochits hrole hclean
          obtain ⟨relevance, place, hhit⟩ := rank_ranks (e := e) hordered hpassage hdoc hdochits hrole hclean
          exact ⟨hitOf T S query e i relevance place passage, rfl, rfl, rfl, hranks _ hhit⟩
      · refine (h.whole l hl).imp hlost ?_
        rintro ⟨data, hwhole, hall⟩
        refine ⟨data, hwhole, hall.of_ranks fun hit hhit => hranks hit (rank_keeps hordered ?_)⟩
        exact hhit.of_hits rfl (Nat.le_refl _)

theorem RetrievalInv.takeUp (h : RetrievalInv P T E store opts query start st)
    (hpop : popCandidate st.pending = some (candidate, rest))
    (htake : Trace.takeUp P T S E opts query st candidate rest = some next) :
    RetrievalInv P T E store opts query start next := by
  rcases takeUp_cases P T S E htake with ⟨hremote, rfl⟩ | ⟨-, -, ⟨reason, -, rfl⟩ | ⟨loc, hresolve, ⟨hseen, rfl⟩ | ⟨hnew, rfl⟩⟩⟩
  · exact h.pass hpop rfl rfl rfl fun hlocal => absurd hremote (by rw [hlocal]; exact Bool.false_ne_true)
  · exact h.pass hpop rfl rfl rfl fun _ => .inl ⟨_, List.mem_append_right _ List.mem_cons_self,
      List.mem_cons_of_mem _ List.mem_cons_self⟩
  · exact h.pass hpop rfl rfl (List.append_nil _).symm fun _ => .inr ⟨loc, hseen, hresolve⟩
  · exact h.attempt hpop hresolve hnew

theorem popCandidate_none {pending : List (Candidate σ)} (h : popCandidate pending = none) : pending = [] := by
  unfold popCandidate at h
  have hperm := List.perm_insertionSort (BestFirst Candidate.score Candidate.node) pending
  split at h
  · rename_i hsort
    rw [hsort] at hperm
    exact List.nil_perm.mp hperm
  · cases h

/-- A retrieval keeps the invariant, and it ends when nothing is pending or when there were enough sources. -/
theorem RetrievalInv.retrieve (h : RetrievalInv P T E store opts query start st) :
    (Trace.retrieve P T S E opts query st).2 = true ∨
      (RetrievalInv P T E store opts query start (Trace.retrieve P T S E opts query st).1 ∧
        (Trace.retrieve P T S E opts query st).1.pending = []) := by
  induction st using retrieve.induct P T S E opts query with
  | case1 st hnone =>
    rw [retrieve_none hnone]
    exact .inr ⟨h, popCandidate_none hnone⟩
  | case2 st candidate rest hpop hstop =>
    rw [retrieve_stop hpop hstop]
    exact .inl rfl
  | case3 st candidate rest hpop next htake ih =>
    rw [retrieve_next hpop htake]
    exact ih (h.takeUp hpop htake)

end

/-! ## Honest coverage -/

/-- All that is to be ranked of a source is ranked in the outcome, and is among the hits unless these were cut off. -/
def Outcome.RanksAll (opts : Options) (query : List String) (o : Outcome σ) (loc : Locator) (data : SourceCache) : Prop :=
  ∀ i passage doc, data.passages[i]? = some passage → data.docs[i]? = some doc → doc.hits query = true →
    opts.role.any (· ≠ passage.role) = false → scanCredentials passage.text.toList = [] →
    ∃ hit : RankedHit σ, hit.source = loc ∧ hit.record = i ∧ hit.recordSha256 = passage.hash ∧
      Placed HitBefore opts.limit o.hits hit ∧ (o.outputTruncated = false → hit ∈ o.hits)

/-- A node that a search has to visit: the explicit seed, or else each node that matches and may be a seed. -/
def Wanted (S : Scores σ) (scene : Scene) (graph : GraphCache) (opts : Options) (query : List String)
    (id : String) : Prop :=
  match opts.seed with
  | some seed => id = seed
  | none => ∃ e ∈ eligible S graph scene.seedNow query, docId graph e.1 = id

/-- What it means that a search has left nothing out. -/
structure Honest (P : Platform) (T : Tables) (S : Scores σ) (E : Surroundings) (scene : Scene) (graph : GraphCache)
    (store : Store) (opts : Options) (o : Outcome σ) : Prop where
  visited : ∀ id, Wanted S scene graph opts (tokens T opts.q) id →
    ∃ start, seeds S graph scene.seedNow opts (tokens T opts.q) = .ok start ∧
      id ∈ (walkFrom T S scene.isFile graph scene.root scene.now opts start).visited
  read : ∀ start, seeds S graph scene.seedNow opts (tokens T opts.q) = .ok start → ∀ f ∈ start, ∀ id,
    Reaches graph scene.now f.node id → ∀ loc, targetLocator T scene.isFile graph scene.root id = some loc →
    loc.remote = false → ∃ resolved data, resolveLocator E opts loc = .ok resolved ∧
      ReadWhole P T E store opts resolved data ∧ o.RanksAll opts (tokens T opts.q) resolved data

/-- Links lead from the best twelve of the nodes that match to all of them, unless there is an explicit seed. -/
def SeedsReach (S : Scores σ) (scene : Scene) (graph : GraphCache) (opts : Options) (query : List String) : Prop :=
  opts.seed = none → ∀ e ∈ eligible S graph scene.seedNow query,
    ∃ f ∈ (eligible S graph scene.seedNow query).take seedLimit,
      Reaches graph scene.now (docId graph f.1) (docId graph e.1)

section

variable {scene : Scene} {graph : GraphCache} {store store' : Store} {opts : Options} {o : Outcome σ}

/-- What a search that reports nothing as left out is made of. -/
theorem search_covered (h : search P T S E scene graph store opts = .ok (o, store'))
    (hcovered : o.coverageIncomplete = false) :
    ∃ found count, candidates T S scene.isFile graph scene.root scene.seedNow scene.now opts (tokens T opts.q) =
        .ok (found, count, false) ∧
      ∀ c ∈ found, c.locator.remote = false → ∃ resolved data, resolveLocator E opts c.locator = .ok resolved ∧
        ReadWhole P T E store opts resolved data ∧ o.RanksAll opts (tokens T opts.q) resolved data := by
  unfold search at h
  obtain ⟨query, hquery, h⟩ := bind_eq_ok.mp h
  obtain ⟨⟨found, count, limited⟩, hfound, h⟩ := bind_eq_ok.mp h
  obtain ⟨rfl, -⟩ := Prod.mk.inj (Except.ok.inj h)
  have htokens : query = tokens T opts.q := by
    unfold validateOptions at hquery
    split_ifs at hquery
    exact (Except.ok.inj hquery).symm
  subst htokens
  dsimp only at hcovered
  simp only [coverage, Bool.or_eq_false_iff, List.any_eq_false, decide_eq_true_eq] at hcovered
  obtain ⟨⟨⟨⟨⟨⟨-, hlimited⟩, hstopped⟩, hreports⟩, -⟩, -⟩, -⟩ := hcovered
  subst hlimited
  refine ⟨found, count, hfound, fun c hc hlocal => ?_⟩
  have hstart : RetrievalInv P T E store opts (tokens T opts.q) found ⟨found, .empty, [], store⟩ := retrievalInv_start
  rcases hstart.retrieve (S := S) with hstop | ⟨hinv, hpending⟩
  · rw [hstopped] at hstop
    cases hstop
  have hkept : ¬Lost (retrieve P T S E opts (tokens T opts.q) ⟨found, .empty, [], store⟩).1.results.reports := by
    rintro ⟨report, hreport, hstatus⟩
    exact hreports report hreport hstatus
  rcases hinv.handled c hc hlocal with hpend | hlost | ⟨loc, hloc, hresolve⟩
  · rw [hpending] at hpend
    cases hpend
  · exact absurd hlost hkept
  · rcases hinv.whole loc hloc with hlost | ⟨data, hwhole, hranks⟩
    · exact absurd hlost hkept
    · refine ⟨loc, data, hresolve, hwhole, fun i passage doc hpassage hdoc hhits hrole hclean => ?_⟩
      obtain ⟨hit, hsource, hrecord, hhash, hplaced, hfew⟩ := hranks i passage doc hpassage hdoc hhits hrole hclean
      exact ⟨hit, hsource, hrecord, hhash, hplaced, fun hwithin => hfew (Nat.le_of_not_lt (of_decide_eq_false hwithin))⟩

/-- **Coverage**: a search that reports nothing as left out has left nothing out if and only if links lead from the
twelve seeds to all nodes that match, or the seed is explicit. -/
theorem search_honest_iff (h : search P T S E scene graph store opts = .ok (o, store'))
    (hcovered : o.coverageIncomplete = false) :
    Honest P T S E scene graph store opts o ↔ SeedsReach S scene graph opts (tokens T opts.q) := by
  obtain ⟨found, count, hcandidates, hread⟩ := search_covered h hcovered
  obtain ⟨start, hseeds, hvisited, hfound⟩ := candidates_spec hcandidates
  have hstart : opts.seed = none → ∀ id, (∃ f ∈ start, f.node = id) ↔
      ∃ e ∈ (eligible S graph scene.seedNow (tokens T opts.q)).take seedLimit, docId graph e.1 = id := by
    intro hnone id
    rw [seeds, hnone] at hseeds
    rw [← Except.ok.inj hseeds]
    constructor
    · rintro ⟨f, hf, rfl⟩
      obtain ⟨e, he, rfl⟩ := List.mem_map.mp hf
      exact ⟨e, he, rfl⟩
    · rintro ⟨e, he, rfl⟩
      exact ⟨_, List.mem_map_of_mem he, rfl⟩
  constructor
  · intro hhonest hnone e he
    obtain ⟨start', hseeds', hmem⟩ := hhonest.visited (docId graph e.1) (by rw [Wanted, hnone]; exact ⟨e, he, rfl⟩)
    obtain rfl := Except.ok.inj (hseeds.symm.trans hseeds')
    obtain ⟨f, hf, hreach⟩ := (hvisited _).mp hmem
    obtain ⟨e', he', hsame⟩ := (hstart hnone f.node).mp ⟨f, hf, rfl⟩
    exact ⟨e', he', hsame ▸ hreach⟩
  · intro hreaches
    refine ⟨fun id hwanted => ⟨start, hseeds, (hvisited id).mpr ?_⟩, fun start' hseeds' f hf id hreach loc hloc hlocal => ?_⟩
    · cases hseed : opts.seed with
      | some seed =>
        rw [Wanted, hseed] at hwanted
        rw [seeds, hseed] at hseeds
        dsimp only at hwanted hseeds
        split_ifs at hseeds
        rw [← Except.ok.inj hseeds, hwanted]
        exact ⟨_, List.mem_cons_self, .refl⟩
      | none =>
        rw [Wanted, hseed] at hwanted
        obtain ⟨e, he, rfl⟩ := hwanted
        obtain ⟨e', he', hreach⟩ := hreaches hseed e he
        obtain ⟨f, hf, hsame⟩ := (hstart hseed _).mpr ⟨e', he', rfl⟩
        exact ⟨f, hf, hsame ▸ hreach⟩
    · obtain rfl := Except.ok.inj (hseeds.symm.trans hseeds')
      obtain ⟨c, hc, rfl⟩ := hfound f hf id hreach loc hloc
      exact hread c hc hlocal

end

/-! ## Thirteen pages that match -/

section

/-- Tables for plain text in small letters. -/
def plainTables : Tables := ⟨fun s => s, fun c => c.isAlphanum⟩

/-- Scores that do not tell documents apart. -/
def plainScores : Scores ℕ := ⟨1, fun _ _ _ => 1, fun s _ => s, fun s _ _ => s, fun s => s, fun _ _ => 0⟩

/-- No file and no session is there. -/
def bareSurroundings : Surroundings :=
  ⟨fun _ => .error "no file", fun _ => .empty, fun _ _ _ _ _ => .error "no session", fun _ _ => .error "no session",
    fun _ => .empty⟩

/-- A knowledge base without files. -/
def bareScene : Scene := ⟨fun _ => false, "/kb", "2026-01-01T00:00:00Z", "2026-01-01T00:00:00Z"⟩

/-- The ids of thirteen pages. -/
def pageIds : List String :=
  ["p01", "p02", "p03", "p04", "p05", "p06", "p07", "p08", "p09", "p10", "p11", "p12", "p13"]

/-- Thirteen pages with one text and no links. -/
def thirteenPages : GraphCache :=
  ⟨pageIds.foldl (fun nodes id => nodes.insert id (.mkObject [("id", .string id), ("type", .string "wiki")])) ∅, [],
    pageIds.map fun id => lex plainTables id "release"⟩

/-- The default options, with the text of the pages as the query. -/
def releaseOptions : Options := ⟨"release", 5, 8, 32 * 1024 * 1024, 50000, 128, 3, none, none, none, false⟩

/-- The seeds of a search for the text of the pages. -/
def releaseSeeds : List (Frontier ℕ) :=
  (seeds plainScores thirteenPages bareScene.seedNow releaseOptions (tokens plainTables releaseOptions.q)).toOption.getD []

/-- The walk ends behind the twelve seeds. -/
theorem releaseWalk : ∃ w, walkFrom plainTables plainScores bareScene.isFile thirteenPages bareScene.root bareScene.now
    releaseOptions releaseSeeds = w ∧ w.found = [] ∧ w.visited.card = 12 ∧ w.limited = false ∧ w.pending = [] ∧
      "p13" ∉ w.visited := by
  have hrun : ((walkWithin plainTables plainScores bareScene.isFile thirteenPages bareScene.root bareScene.now
      releaseOptions 13 ⟨releaseSeeds, ∅, [], false⟩).any fun w => w.found.isEmpty && (w.visited.card == 12 &&
        (!w.limited && (w.pending.isEmpty && decide ("p13" ∉ w.visited))))) = true := by decide +kernel
  obtain ⟨w, hw, hfacts⟩ := (Option.any_eq_true _ _).mp hrun
  simp only [Bool.and_eq_true, List.isEmpty_iff, beq_iff_eq, Bool.not_eq_true', decide_eq_true_eq] at hfacts
  exact ⟨w, walk_of_walkWithin hw, hfacts⟩

theorem releaseSeeds_eq : seeds plainScores thirteenPages bareScene.seedNow releaseOptions
    (tokens plainTables releaseOptions.q) = .ok releaseSeeds := by
  cases hseeds : seeds plainScores thirteenPages bareScene.seedNow releaseOptions
    (tokens plainTables releaseOptions.q) with
  | error e =>
    have hok : (seeds plainScores thirteenPages bareScene.seedNow releaseOptions
      (tokens plainTables releaseOptions.q)).isOk = true := by decide +kernel
    rw [hseeds] at hok
    cases hok
  | ok start => rw [releaseSeeds, hseeds, Except.toOption, Option.getD_some]

/-- The search reports nothing as left out. -/
theorem releaseSearch (P : Platform) : ∃ o store', search P plainTables plainScores bareSurroundings bareScene
    thirteenPages ⟨∅, ∅⟩ releaseOptions = .ok (o, store') ∧ o.coverageIncomplete = false := by
  have hquery : validateOptions plainTables releaseOptions = .ok (tokens plainTables releaseOptions.q) := by
    decide +kernel
  obtain ⟨w, hw, hfound, hcard, hlimited, hpending, -⟩ := releaseWalk
  have hcandidates : candidates plainTables plainScores bareScene.isFile thirteenPages bareScene.root
      bareScene.seedNow bareScene.now releaseOptions (tokens plainTables releaseOptions.q) = .ok ([], 12, false) := by
    unfold candidates
    rw [releaseSeeds_eq]
    dsimp only [bind, Except.bind]
    rw [hw, hfound, hcard, hlimited, hpending]
    rfl
  have hwiki : (!thirteenPages.nodes.entries.any fun e => kindOf plainTables e.2 = "wiki") = false := by decide +kernel
  have hretrieve : ∀ st : Retrieval ℕ, st.pending = [] → retrieve P plainTables plainScores bareSurroundings
      releaseOptions (tokens plainTables releaseOptions.q) st = (st, false) := by
    intro st hst
    exact retrieve_none (by rw [hst]; rfl)
  unfold search
  rw [hquery]
  dsimp only [bind, Except.bind]
  rw [hcandidates]
  dsimp only
  rw [hretrieve _ rfl, hwiki]
  exact ⟨_, _, rfl, rfl⟩

/-- Thirteen pages match, one of them is not visited, and nothing is reported as left out. -/
theorem thirteenth_page_unreported : ¬∀ (P : Platform) (T : Tables) (S : Scores ℕ) (E : Surroundings) (scene : Scene)
    (graph : GraphCache) (store : Store) (opts : Options) (o : Outcome ℕ) (store' : Store),
    search P T S E scene graph store opts = .ok (o, store') → o.coverageIncomplete = false →
      Honest P T S E scene graph store opts o := by
  intro h
  obtain ⟨o, store', hsearch, hcovered⟩ := releaseSearch (tablePlatform (fun _ => "") [])
  have hhonest := h _ _ _ _ _ _ _ _ o store' hsearch hcovered
  have hwanted : Wanted plainScores bareScene thirteenPages releaseOptions (tokens plainTables releaseOptions.q) "p13" :=
    ⟨(12, 1), by decide +kernel, by decide +kernel⟩
  obtain ⟨start, hstart, hvisited⟩ := hhonest.visited "p13" hwanted
  obtain rfl := Except.ok.inj (releaseSeeds_eq.symm.trans hstart)
  obtain ⟨w, hw, -, -, -, -, hnot⟩ := releaseWalk
  exact hnot (hw ▸ hvisited)

/-- The search for the text of thirteen pages is not honest, as links do not lead from the first twelve to the last. -/
theorem search_honest_iff_thirteen : ∃ (P : Platform) (o : Outcome ℕ), o.coverageIncomplete = false ∧
    (Honest P plainTables plainScores bareSurroundings bareScene thirteenPages ⟨∅, ∅⟩ releaseOptions o ↔
      SeedsReach plainScores bareScene thirteenPages releaseOptions (tokens plainTables releaseOptions.q)) := by
  obtain ⟨o, store', hsearch, hcovered⟩ := releaseSearch (tablePlatform (fun _ => "") [])
  exact ⟨_, o, hcovered, search_honest_iff hsearch hcovered⟩

end

end Innen.Trace
