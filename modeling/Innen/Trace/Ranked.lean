import Innen.Trace.Coverage
import Innen.Trace.Trails

/-!
# What is ranked, and what it costs

A retrieval ranks the passages of each source that it gets, one source after the other. Its hits are the first ones of
all that was ranked, in the order of hits, although it keeps only as many as there may be. The bytes that it charges
stay within the budget: each source gets a share of what is left, and it is charged what it has read, or all of its
share if that is not known.
-/

namespace Innen.Trace

open Common Graph Journal Credentials

variable {σ : Type} [LinearOrder σ] (P : Platform) (T : Tables) (S : Scores σ) (E : Surroundings)

/-! ## Sources and passages of a run -/

/-- What taking up a candidate gives to rank: the source that was read or kept. -/
def evidenceOf (opts : Options) (st : Retrieval σ) (candidate : Candidate σ) (rest : List (Candidate σ)) :
    Option (Evidence σ) :=
  if candidate.locator.remote then none
  else
    match resolveLocator E opts candidate.locator with
    | .error _ => none
    | .ok loc =>
      if loc ∈ st.seen then none
      else
        match (source P T E st.store loc opts (allowance opts st.results.chargedBytes rest.length)).1 with
        | .error _ => none
        | .ok got => some ⟨candidate, got.data, loc, got.key, st.results.attempted + 1, got.cached⟩

/-- The sources that a retrieval ranks, in the order in which it gets them. -/
def evidences (opts : Options) (query : List String) (st : Retrieval σ) : List (Evidence σ) :=
  match _hpop : popCandidate st.pending with
  | none => []
  | some (candidate, rest) =>
    match _htake : takeUp P T S E opts query st candidate rest with
    | none => []
    | some next => (evidenceOf P T E opts st candidate rest).toList ++ evidences opts query next
termination_by (opts.maxSources - st.results.attempted, st.pending.length)
decreasing_by exact takeUp_less P T S E _hpop _htake

/-- The hit of a passage that matches, if it has the role that is asked for and holds no credential. -/
def offer (opts : Options) (query : List String) (e : Evidence σ) (item : (ℕ × σ) × ℕ) : Option (RankedHit σ) :=
  (e.data.passages[item.1.1]?).bind fun passage =>
    if opts.role.any (· ≠ passage.role) ∨ scanCredentials passage.text.toList ≠ [] then none
    else some (hitOf T S query e item.1.1 item.1.2 item.2 passage)

/-- The hits of the admissible passages of a source. -/
def offers (opts : Options) (query : List String) (e : Evidence σ) : List (RankedHit σ) :=
  (bm25 S e.data.docs query).zipIdx.filterMap (offer T S opts query e)

variable {P T S E} {opts : Options} {query : List String} {st next : Retrieval σ} {candidate : Candidate σ}
  {rest : List (Candidate σ)}

theorem evidences_none (hpop : popCandidate st.pending = none) : evidences P T S E opts query st = [] := by
  rw [evidences]
  split
  · rfl
  · rename_i hsome
    rw [hpop] at hsome
    cases hsome

theorem evidences_stop (hpop : popCandidate st.pending = some (candidate, rest))
    (htake : takeUp P T S E opts query st candidate rest = none) : evidences P T S E opts query st = [] := by
  rw [evidences]
  split
  · rfl
  · rename_i hsome
    rw [hpop] at hsome
    obtain ⟨rfl, rfl⟩ := Prod.mk.inj (Option.some.inj hsome)
    split
    · rfl
    · rename_i hnext
      rw [htake] at hnext
      cases hnext

theorem evidences_next (hpop : popCandidate st.pending = some (candidate, rest))
    (htake : takeUp P T S E opts query st candidate rest = some next) :
    evidences P T S E opts query st =
      (evidenceOf P T E opts st candidate rest).toList ++ evidences P T S E opts query next := by
  rw [evidences]
  split
  · rename_i hnone
    rw [hpop] at hnone
    cases hnone
  · rename_i hsome
    rw [hpop] at hsome
    obtain ⟨rfl, rfl⟩ := Prod.mk.inj (Option.some.inj hsome)
    split
    · rename_i hstop
      rw [htake] at hstop
      cases hstop
    · rename_i hnext
      rw [htake] at hnext
      rw [Option.some.inj hnext]

/-! ## Ranking -/

section

variable {e : Evidence σ} {offered : List (RankedHit σ)}

/-- The hits are the first ones of what was offered. -/
def Results.Holds (limit : ℕ) (offered : List (RankedHit σ)) (r : Results σ) : Prop :=
  r.hits = bestOf HitBefore limit offered

theorem bestOf_sorted (limit : ℕ) (l : List (RankedHit σ)) : (bestOf HitBefore limit l).Pairwise HitBefore :=
  (List.pairwise_insertionSort HitBefore l).sublist (List.take_sublist _ _)

/-- Ranking a passage offers its hit, if it is admissible. -/
theorem Results.Holds.rankOne {acc : Results σ × ℕ} (h : acc.1.Holds opts.limit offered) (item : (ℕ × σ) × ℕ) :
    (Results.rankOne T S opts query e acc item).1.Holds opts.limit
      (offered ++ (offer T S opts query e item).toList) := by
  unfold Results.rankOne offer
  cases e.data.passages[item.1.1]? with
  | none =>
    rw [Option.bind_none, Option.toList_none, List.append_nil]
    exact h
  | some passage =>
    rw [Option.bind_some]
    dsimp only
    by_cases hrole : opts.role.any (· ≠ passage.role) = true
    · rw [if_pos hrole, if_pos (.inl hrole), Option.toList_none, List.append_nil]
      exact h
    rw [if_neg hrole]
    by_cases hsecret : scanCredentials passage.text.toList ≠ []
    · rw [if_pos hsecret, if_pos (.inr hsecret), Option.toList_none, List.append_nil]
      exact h
    rw [if_neg hsecret, if_neg (not_or.mpr ⟨hrole, hsecret⟩), Option.toList_some]
    unfold Results.Holds at h ⊢
    split_ifs with hadmits
    · rw [bestOf_concat, ← h]
    · obtain ⟨hfull, hbehind⟩ := placed_of_not_admits (r := { acc.1 with matched := acc.1.matched + 1 })
        (hitOf T S query e item.1.1 item.1.2 item.2 passage)
        (h ▸ bestOf_sorted opts.limit offered) (Bool.eq_false_iff.mpr hadmits)
      exact h.trans (bestOf_concat_of_behind (h ▸ hfull) (h ▸ hbehind)).symm

/-- Ranking a source offers all its admissible passages. -/
theorem Results.Holds.rank {r : Results σ} (h : r.Holds opts.limit offered) :
    (r.rank T S opts query e).1.Holds opts.limit (offered ++ offers T S opts query e) := by
  unfold Results.rank offers
  have hrun : ∀ (items : List ((ℕ × σ) × ℕ)) (acc : Results σ × ℕ) (offered : List (RankedHit σ)),
      acc.1.Holds opts.limit offered → (items.foldl (Results.rankOne T S opts query e) acc).1.Holds opts.limit
        (offered ++ items.filterMap (offer T S opts query e)) := by
    intro items
    induction items with
    | nil =>
      intro acc offered hacc
      rw [List.filterMap_nil, List.append_nil]
      exact hacc
    | cons item items ih =>
      intro acc offered hacc
      have hnext := ih (Results.rankOne T S opts query e acc item) _ (hacc.rankOne item)
      rw [List.append_assoc] at hnext
      rw [List.foldl_cons, List.filterMap_cons]
      cases hoffer : offer T S opts query e item with
      | none =>
        rw [hoffer] at hnext
        exact hnext
      | some hit =>
        rw [hoffer] at hnext
        exact hnext
  exact hrun _ _ _ h

end

/-! ## Bytes -/

/-- A scan of a session reads no more than it is allowed to. -/
def Surroundings.ScansWithin (E : Surroundings) : Prop :=
  ∀ root name id maxBytes maxRecords result, E.scan root name id maxBytes maxRecords = .ok result →
    result.bytesRead ≤ maxBytes

section

variable {store store' : Store} {loc : Locator} {room : ℕ}

theorem readSource_bytes (hscan : E.ScansWithin) {read : ReadOutcome}
    (h : readSource P T E loc opts room = .ok read) : read.bytes ≤ room := by
  cases loc with
  | file path =>
    obtain ⟨before, -, hread⟩ := bind_eq_ok.mp h
    rw [mapError_eq_ok] at hread
    unfold readFile at hread
    dsimp only at hread
    split at hread
    · cases hread
    · split_ifs at hread
      rw [← Except.ok.inj hread]
      change ((E.content path).extract 0 room).size ≤ room
      rw [ByteArray.size_extract]
      omega
  | conversation name id root =>
    rw [readSource, mapError_eq_ok] at h
    obtain ⟨result, hresult, h⟩ := bind_eq_ok.mp h
    obtain ⟨version, -, h⟩ := bind_eq_ok.mp h
    split_ifs at h
    rw [← Except.ok.inj h]
    exact hscan _ _ _ _ _ _ hresult
  | url address => cases h

/-- What is read of a source is within its share; what was kept costs nothing. -/
theorem source_read (hscan : E.ScansWithin) {got : Sourced} (h : source P T E store loc opts room = (.ok got, store')) :
    got.read ≤ room := by
  unfold source at h
  split at h
  · rw [← Except.ok.inj (Prod.mk.inj h).1]
    exact Nat.zero_le _
  · split_ifs at h
    · cases (Prod.mk.inj h).1
    · split at h
      · cases (Prod.mk.inj h).1
      · rename_i read hread
        split at h
        · cases (Prod.mk.inj h).1
        · rw [← Except.ok.inj (Prod.mk.inj h).1]
          exact readSource_bytes hscan hread

end

/-- A share is within what is left of the budget. -/
theorem add_allowance_le {charged pending : ℕ} (h : charged ≤ opts.maxBytes) :
    charged + allowance opts charged pending ≤ opts.maxBytes := by
  have hshare : allowance opts charged pending ≤ opts.maxBytes - charged := min_le_right _ _
  omega

theorem rankOne_charged {e : Evidence σ} {acc : Results σ × ℕ} {item : (ℕ × σ) × ℕ} :
    (Results.rankOne T S opts query e acc item).1.chargedBytes = acc.1.chargedBytes := by
  unfold Results.rankOne
  dsimp only
  split
  · rfl
  · split_ifs <;> rfl

theorem rank_charged {e : Evidence σ} {r : Results σ} :
    (r.rank T S opts query e).1.chargedBytes = r.chargedBytes :=
  List.foldlRecOn (motive := fun acc : Results σ × ℕ => acc.1.chargedBytes = r.chargedBytes) _ _ rfl
    fun _ hacc _ _ => rankOne_charged.trans hacc

/-! ## Sessions that sources name -/

/-- A hop from a source to a session that it names. -/
def Refers (a : String) (hop : Hop) (b : String) : Prop :=
  hop.from = a ∧ hop.to = b ∧ hop.edge = "METADATA_SESSION_REF" ∧ hop.direction = "forward"

/-- A candidate is one of the first ones, or it is behind one of them by sessions that sources name. -/
structure Extends (found : List (Candidate σ)) (maxDepth : ℕ) (c : Candidate σ) : Prop where
  behind : ∃ first ∈ found, ∃ refs, c.seed = first.seed ∧ c.path = first.path ++ refs ∧
    Trail Refers first.node refs c.node
  short : c.path.length ≤ maxDepth

omit [LinearOrder σ] in
theorem mem_pushReferences {data : SourceCache} {c : Candidate σ} (refs : List Reference) (pending : List (Candidate σ))
    (r : Results σ) (h : c ∈ (pushReferences P S candidate data refs pending r).1) :
    c ∈ pending ∨ ∃ reference, c = referenceCandidate P S candidate data reference := by
  induction refs generalizing pending r with
  | nil => exact .inl h
  | cons reference refs ih =>
    rw [pushReferences] at h
    split_ifs at h
    · exact .inl h
    · rcases ih _ _ h with hc | hc
      · rcases List.mem_append.mp hc with hc | hc
        · exact .inl hc
        · exact .inr ⟨reference, List.mem_singleton.mp hc⟩
      · exact .inr hc

omit [LinearOrder σ] in
/-- What is pending behind a source was pending, or it is a session that the source names, as long as the depth allows. -/
theorem mem_enqueueMetadata {data : SourceCache} {pending : List (Candidate σ)} {r : Results σ} {c : Candidate σ}
    (h : c ∈ (enqueueMetadata P S opts candidate data pending r).1) :
    c ∈ pending ∨ (candidate.path.length < opts.maxDepth ∧
      ∃ reference, c = referenceCandidate P S candidate data reference) := by
  unfold enqueueMetadata at h
  split_ifs at h with hnone hdepth
  · exact .inl h
  · exact .inl h
  · exact (mem_pushReferences _ _ _ h).imp_right fun href => ⟨Nat.lt_of_not_le hdepth, href⟩

omit [LinearOrder σ] in
theorem pushReferences_charged {data : SourceCache} (refs : List Reference) (pending : List (Candidate σ)) (r : Results σ) :
    (pushReferences P S candidate data refs pending r).2.chargedBytes = r.chargedBytes := by
  induction refs generalizing pending r with
  | nil => rfl
  | cons reference refs ih =>
    rw [pushReferences]
    split_ifs
    · rfl
    · rw [ih]

omit [LinearOrder σ] in
theorem enqueueMetadata_charged {data : SourceCache} {pending : List (Candidate σ)} {r : Results σ} :
    (enqueueMetadata P S opts candidate data pending r).2.chargedBytes = r.chargedBytes := by
  unfold enqueueMetadata
  split_ifs
  · rfl
  · rfl
  · exact pushReferences_charged _ _ _

omit [LinearOrder σ] in
theorem Extends.reference {found : List (Candidate σ)} {data : SourceCache} (h : Extends found opts.maxDepth candidate)
    (hdepth : candidate.path.length < opts.maxDepth) (reference : Reference) :
    Extends found opts.maxDepth (referenceCandidate P S candidate data reference) := by
  obtain ⟨⟨first, hfirst, refs, hseed, hpath, htrail⟩, -⟩ := h
  set c := referenceCandidate P S candidate data reference with hc
  have hhop : Refers candidate.node ⟨candidate.node, "METADATA_SESSION_REF", c.node, "forward",
      some ("sha256:" ++ data.sourceSha256 ++ "#" ++ reference.pointer)⟩ c.node := ⟨rfl, rfl, rfl, rfl⟩
  refine ⟨⟨first, hfirst, refs ++ [_], hseed, ?_, htrail.snoc hhop⟩, ?_⟩
  · rw [hc, referenceCandidate, hpath, List.append_assoc]
  · rw [hc, referenceCandidate, List.length_append, List.length_singleton]
    exact hdepth

/-! ## The run -/

/-- What holds all along a retrieval of the hits, the bytes and the pending candidates. -/
structure RankedInv (found : List (Candidate σ)) (opts : Options) (offered : List (RankedHit σ)) (st : Retrieval σ) :
    Prop where
  holds : st.results.Holds opts.limit offered
  within : st.results.chargedBytes ≤ opts.maxBytes
  extend : ∀ c ∈ st.pending, Extends found opts.maxDepth c

section

variable {found : List (Candidate σ)} {offered : List (RankedHit σ)}

/-- A candidate that gives no source leaves the hits and the bytes. -/
theorem RankedInv.pass (h : RankedInv found opts offered st)
    (hpop : popCandidate st.pending = some (candidate, rest)) {r : Results σ} (hhits : r.hits = st.results.hits)
    (hcharged : r.chargedBytes = st.results.chargedBytes) :
    RankedInv found opts offered { st with pending := rest, results := r } where
  holds := hhits.trans h.holds
  within := hcharged ▸ h.within
  extend c hc := h.extend c ((popCandidate_perm hpop).mem_iff.mpr (List.mem_cons_of_mem _ hc))

/-- Taking up a candidate offers the passages of its source and charges at most its share. -/
theorem RankedInv.takeUp (hscan : E.ScansWithin) (h : RankedInv found opts offered st)
    (hpop : popCandidate st.pending = some (candidate, rest))
    (htake : Trace.takeUp P T S E opts query st candidate rest = some next) :
    RankedInv found opts
      (offered ++ (evidenceOf P T E opts st candidate rest).toList.flatMap (offers T S opts query)) next := by
  have hmem := fun c => (popCandidate_perm hpop).mem_iff (a := c)
  have hcandidate := h.extend candidate ((hmem candidate).mpr List.mem_cons_self)
  have hrest : ∀ c ∈ rest, Extends found opts.maxDepth c :=
    fun c hc => h.extend c ((hmem c).mpr (List.mem_cons_of_mem _ hc))
  unfold evidenceOf
  rcases takeUp_cases P T S E htake with
    ⟨hremote, rfl⟩ | ⟨hlocal, -, ⟨reason, hresolve, rfl⟩ | ⟨loc, hresolve, ⟨hseen, rfl⟩ | ⟨hnew, rfl⟩⟩⟩
  · rw [if_pos hremote, Option.toList_none, List.flatMap_nil, List.append_nil]
    exact h.pass hpop rfl rfl
  · rw [hlocal, if_neg Bool.false_ne_true, hresolve]
    dsimp only
    rw [Option.toList_none, List.flatMap_nil, List.append_nil]
    exact h.pass hpop rfl rfl
  · rw [hlocal, if_neg Bool.false_ne_true, hresolve]
    dsimp only
    rw [if_pos hseen, Option.toList_none, List.flatMap_nil, List.append_nil]
    exact h.pass hpop rfl rfl
  rw [hlocal, if_neg Bool.false_ne_true, hresolve]
  dsimp only
  rw [if_neg hnew]
  unfold attempt
  dsimp only
  have hroom : st.results.chargedBytes + allowance opts st.results.chargedBytes rest.length ≤ opts.maxBytes :=
    add_allowance_le h.within
  rcases hsource : source P T E st.store loc opts (allowance opts st.results.chargedBytes rest.length) with
    ⟨failure | got, store'⟩
  · dsimp only
    rw [Option.toList_none, List.flatMap_nil, List.append_nil]
    refine ⟨h.holds, ?_, hrest⟩
    exact (Nat.add_le_add_left (min_le_right _ _) _).trans hroom
  · dsimp only
    rw [Option.toList_some, List.flatMap_cons, List.flatMap_nil, List.append_nil]
    set r : Results σ := { st.results with attempted := st.results.attempted + 1 }
    set e : Evidence σ := ⟨candidate, got.data, loc, got.key, st.results.attempted + 1, got.cached⟩
    have hranked : (r.rank T S opts query e).1.Holds opts.limit (offered ++ offers T S opts query e) :=
      Results.Holds.rank (r := r) h.holds
    obtain ⟨-, hhits, -, -⟩ := enqueueMetadata_spec P S opts candidate got.data rest
      ((r.rank T S opts query e).1.success e got.read (r.rank T S opts query e).2)
    refine ⟨hhits.trans hranked, ?_, fun c hc => ?_⟩
    · rw [enqueueMetadata_charged]
      change (r.rank T S opts query e).1.chargedBytes + got.read ≤ opts.maxBytes
      rw [rank_charged]
      exact (Nat.add_le_add_left (source_read hscan hsource) _).trans hroom
    · rcases mem_enqueueMetadata hc with hold | ⟨hdepth, reference, rfl⟩
      · exact hrest c hold
      · exact hcandidate.reference hdepth reference

omit [LinearOrder σ] in
/-- The candidate of a source is the one that was taken up. -/
theorem candidate_of_evidenceOf {e : Evidence σ} (h : evidenceOf P T E opts st candidate rest = some e) :
    e.candidate = candidate := by
  unfold evidenceOf at h
  split_ifs at h
  split at h
  · cases h
  · split_ifs at h
    split at h
    · cases h
    · rw [← Option.some.inj h]

/-- A retrieval offers the passages of all its sources. -/
theorem RankedInv.retrieve (hscan : E.ScansWithin) (h : RankedInv found opts offered st) :
    RankedInv found opts (offered ++ (evidences P T S E opts query st).flatMap (offers T S opts query))
        (Trace.retrieve P T S E opts query st).1 ∧
      ∀ e ∈ evidences P T S E opts query st, Extends found opts.maxDepth e.candidate := by
  induction st using retrieve.induct P T S E opts query generalizing offered with
  | case1 st hnone =>
    rw [retrieve_none hnone, evidences_none hnone, List.flatMap_nil, List.append_nil]
    exact ⟨h, fun e he => absurd he List.not_mem_nil⟩
  | case2 st candidate rest hpop hstop =>
    rw [retrieve_stop hpop hstop, evidences_stop hpop hstop, List.flatMap_nil, List.append_nil]
    exact ⟨h.pass hpop rfl rfl, fun e he => absurd he List.not_mem_nil⟩
  | case3 st candidate rest hpop next htake ih =>
    obtain ⟨hinv, hmore⟩ := ih (h.takeUp hscan hpop htake)
    rw [retrieve_next hpop htake, evidences_next hpop htake, List.flatMap_append, ← List.append_assoc]
    refine ⟨hinv, fun e he => ?_⟩
    rcases List.mem_append.mp he with he | he
    · rw [candidate_of_evidenceOf (Option.mem_toList.mp he)]
      exact h.extend candidate ((popCandidate_perm hpop).mem_iff.mpr List.mem_cons_self)
    · exact hmore e he

/-- **Paths and budget**: the path of each candidate goes along valid links from its seed to its node within the depth,
and no two candidates have one node; what a retrieval takes up later is behind them by sessions that sources name. The
retrieval charges no more bytes than it may, and its hits are the first ones of all admissible passages. -/
theorem retrieve_witnessed {isFile : String → Bool} {graph : GraphCache} {root seedNow now : String} {count : ℕ}
    {limited : Bool} {store : Store} (hscan : E.ScansWithin)
    (h : candidates T S isFile graph root seedNow now opts query = .ok (found, count, limited)) :
    (∃ start, seeds S graph seedNow opts query = .ok start ∧
        ∀ c ∈ found, Witnessed graph now opts.maxDepth start c.seed c.path c.node) ∧
      (found.map Candidate.node).Nodup ∧
      (∀ e ∈ evidences P T S E opts query ⟨found, .empty, [], store⟩, Extends found opts.maxDepth e.candidate) ∧
      (retrieve P T S E opts query ⟨found, .empty, [], store⟩).1.results.chargedBytes ≤ opts.maxBytes ∧
      (retrieve P T S E opts query ⟨found, .empty, [], store⟩).1.results.hits =
        bestOf HitBefore opts.limit
          ((evidences P T S E opts query ⟨found, .empty, [], store⟩).flatMap (offers T S opts query)) := by
  obtain ⟨start, hseeds, hwitnessed, hdistinct⟩ := candidates_witnessed h
  have hfirst : RankedInv found opts [] ⟨found, .empty, [], store⟩ :=
    ⟨List.take_nil.symm, Nat.zero_le _, fun c hc =>
      ⟨⟨c, hc, [], rfl, (List.append_nil _).symm, .nil⟩, (hwitnessed c hc).short⟩⟩
  obtain ⟨hinv, hextend⟩ : RankedInv found opts _ (retrieve P T S E opts query ⟨found, .empty, [], store⟩).1 ∧ _ :=
    hfirst.retrieve hscan
  exact ⟨⟨start, hseeds, hwitnessed⟩, hdistinct, hextend, hinv.within, hinv.holds⟩

end

/-! ## A page and its source -/

section

/-- A page that is derived from a document. -/
def citingPage : GraphCache :=
  ⟨((∅ : SortedMap String Value).insert "page" (.mkObject [("id", .string "page"), ("type", .string "wiki")])).insert "doc"
      (.mkObject [("id", .string "doc"), ("type", .string "Source"), ("path", .string "/notes/a.md")]),
    [⟨"page", "doc", "DERIVED_FROM", some "sync", "2026-01-01T00:00:00Z", none⟩], []⟩

/-- A search from the page. -/
def citingOptions : Options := { releaseOptions with seed := some "page" }

/-- From the page one hop leads to the document, which cannot be read. -/
theorem retrieve_witnessed_citing : ∃ found count limited,
    candidates plainTables plainScores bareScene.isFile citingPage bareScene.root bareScene.seedNow bareScene.now
        citingOptions ["release"] = .ok (found, count, limited) ∧
      found.map (fun c => (c.seed, c.path.map Hop.edge, c.node)) = [("page", ["DERIVED_FROM"], "doc")] ∧
      (found.map Candidate.node).Nodup ∧
      (retrieve (tablePlatform (fun _ => "") []) plainTables plainScores bareSurroundings citingOptions ["release"]
        ⟨found, .empty, [], ⟨∅, ∅⟩⟩).1.results.chargedBytes ≤ citingOptions.maxBytes := by
  have hrun : ((walkWithin plainTables plainScores bareScene.isFile citingPage bareScene.root bareScene.now
      citingOptions 3 ⟨[⟨"page", "page", 1, []⟩], ∅, [], false⟩).any fun w => decide
        ((retainFirst [] (w.found.insertionSort (BestFirst Candidate.score Candidate.node))).map
          (fun c => (c.seed, c.path.map Hop.edge, c.node)) = [("page", ["DERIVED_FROM"], "doc")])) = true := by
    decide +kernel
  obtain ⟨w, hw, hpaths⟩ := (Option.any_eq_true _ _).mp hrun
  have hseeds : seeds plainScores citingPage bareScene.seedNow citingOptions ["release"] =
      .ok [⟨"page", "page", 1, []⟩] := by
    rfl
  have hwalk := walk_of_walkWithin hw
  have hcandidates : candidates plainTables plainScores bareScene.isFile citingPage bareScene.root bareScene.seedNow
      bareScene.now citingOptions ["release"] =
      .ok (retainFirst [] (w.found.insertionSort (BestFirst Candidate.score Candidate.node)), w.visited.card,
        w.limited || !w.pending.isEmpty) := by
    unfold candidates walkFrom
    rw [hseeds]
    dsimp only [bind, Except.bind]
    rw [hwalk]
    rfl
  have hscan : bareSurroundings.ScansWithin := by
    intro root name id maxBytes maxRecords result hresult
    cases hresult
  obtain ⟨-, hdistinct, -, hwithin, -⟩ := retrieve_witnessed hscan hcandidates
  exact ⟨_, _, _, hcandidates, of_decide_eq_true hpaths, hdistinct, hwithin⟩

end

end Innen.Trace
