import Innen.Common.Except
import Innen.Common.Trails
import Innen.Trace.Reach

/-!
# The way to a candidate

Each candidate comes with the hops that lead to it. They go along valid links in permitted directions, from a seed to
the node of the candidate, and they are not more than the depth allows. No two candidates have the same node.
-/

namespace Innen.Trace

open Common Graph

variable {σ : Type} [LinearOrder σ] {T : Tables} {S : Scores σ}

/-- A hop goes along a valid link, in a direction that is permitted for the kind of the link. -/
def Follows (graph : GraphCache) (now a : String) (hop : Hop) (b : String) : Prop :=
  ∃ link ∈ graph.links, ∃ reverse, validLinkAt graph link now = true ∧ (weight link.kind reverse).isSome = true ∧
    hop = ⟨link.from, link.kind, link.to, if reverse then "reverse" else "forward", link.provenance⟩ ∧
    a = (if reverse then link.to else link.from) ∧ b = if reverse then link.from else link.to

theorem follows_of_mem_stepsFrom {graph : GraphCache} {now a : String} {step : Step}
    (h : step ∈ stepsFrom graph now a) : Follows graph now a step.hop step.target := by
  simp only [stepsFrom, List.mem_insertionSort, List.mem_filterMap, List.mem_flatMap, List.mem_filter] at h
  obtain ⟨e, ⟨link, ⟨hlink, hvalid⟩, reverse, -, hstep⟩, he⟩ := h
  split_ifs at he with ha
  obtain rfl := Option.some.inj he
  unfold stepOf at hstep
  obtain ⟨w, hw, rfl⟩ := Option.map_eq_some_iff.mp hstep
  exact ⟨link, hlink, reverse, hvalid, by rw [hw]; rfl, rfl, ha.symm, rfl⟩

/-- Hops that lead from a seed to a node and are not more than the depth allows. -/
structure Witnessed (graph : GraphCache) (now : String) (maxDepth : ℕ) (start : List (Frontier σ)) (seed : String)
    (path : List Hop) (node : String) : Prop where
  seeded : ∃ f ∈ start, f.node = seed
  trail : Trail (Follows graph now) seed path node
  short : path.length ≤ maxDepth

/-- A seed is where its own way starts, and nothing is behind it. -/
theorem mem_seeds {graph : GraphCache} {now : String} {opts : Options} {query : List String} {start : List (Frontier σ)}
    (h : seeds S graph now opts query = .ok start) {f : Frontier σ} (hf : f ∈ start) : f.seed = f.node ∧ f.path = [] := by
  unfold seeds at h
  split at h
  · split_ifs at h
    rw [← Except.ok.inj h] at hf
    rw [List.mem_singleton.mp hf]
    exact ⟨rfl, rfl⟩
  · rw [← Except.ok.inj h] at hf
    obtain ⟨e, -, rfl⟩ := List.mem_map.mp hf
    exact ⟨rfl, rfl⟩

section

variable {isFile : String → Bool} {graph : GraphCache} {root now : String} {opts : Options} {start : List (Frontier σ)}
  {w : Walk σ} {current : Frontier σ} {rest : List (Frontier σ)}

/-- What holds all along a walk: the ways to what is pending and found are witnessed, and each node is found once. -/
structure PathInv (graph : GraphCache) (now : String) (opts : Options) (start : List (Frontier σ)) (w : Walk σ) : Prop where
  pending : ∀ f ∈ w.pending, Witnessed graph now opts.maxDepth start f.seed f.path f.node
  found : ∀ c ∈ w.found, Witnessed graph now opts.maxDepth start c.seed c.path c.node
  visited : ∀ c ∈ w.found, c.node ∈ w.visited
  distinct : (w.found.map Candidate.node).Nodup

omit [LinearOrder σ] in
theorem pathInv_start (hstart : ∀ f ∈ start, f.seed = f.node ∧ f.path = []) :
    PathInv graph now opts start ⟨start, ∅, [], false⟩ where
  pending f hf := by
    obtain ⟨hseed, hpath⟩ := hstart f hf
    rw [hpath, hseed]
    exact ⟨⟨f, hf, rfl⟩, .nil, Nat.zero_le _⟩
  found _ hc := absurd hc List.not_mem_nil
  visited _ hc := absurd hc List.not_mem_nil
  distinct := List.nodup_nil

omit [LinearOrder σ] in
/-- What is pending behind a visit was pending, or it is one hop behind the node, as long as the depth allows. -/
theorem mem_visit_pending {f : Frontier σ} (h : f ∈ (visit T S isFile graph root now opts w current rest).pending) :
    f ∈ rest ∨ (current.path.length < opts.maxDepth ∧ ∃ step ∈ stepsFrom graph now current.node,
      step.target = f.node ∧ f.seed = current.seed ∧ f.path = current.path ++ [step.hop]) := by
  unfold visit at h
  dsimp only at h
  split_ifs at h with hdepth
  · exact .inl h
  · exact ((mem_advance _ _).2 h).imp_right fun hstep => ⟨Nat.lt_of_not_le hdepth, hstep⟩

variable (T S isFile graph root now opts w current rest) in
omit [LinearOrder σ] in
theorem visit_found_cases : (visit T S isFile graph root now opts w current rest).found = w.found ∨
    ∃ loc, (visit T S isFile graph root now opts w current rest).found =
      w.found ++ [⟨current.node, current.seed, current.score, current.path, loc⟩] := by
  unfold visit
  cases targetLocator T isFile graph root current.node with
  | none =>
    refine .inl ?_
    dsimp only
    split_ifs <;> rfl
  | some loc =>
    refine .inr ⟨loc, ?_⟩
    dsimp only
    split_ifs <;> rfl

theorem PathInv.skip (h : PathInv graph now opts start w) (hbest : popBest w.pending = some (current, rest)) :
    PathInv graph now opts start { w with pending := rest } :=
  ⟨fun f hf => h.pending f ((popBest_perm hbest).mem_iff.mpr (List.mem_cons_of_mem _ hf)), h.found, h.visited, h.distinct⟩

/-- A visit of a new node keeps the invariant. -/
theorem PathInv.visit (h : PathInv graph now opts start w) (hbest : popBest w.pending = some (current, rest))
    (hnew : current.node ∉ w.visited) :
    PathInv graph now opts start (Trace.visit T S isFile graph root now opts w current rest) := by
  have hmem := fun f => (popBest_perm hbest).mem_iff (a := f)
  have hcurrent := h.pending current ((hmem current).mpr List.mem_cons_self)
  have hpending : ∀ f ∈ (Trace.visit T S isFile graph root now opts w current rest).pending,
      Witnessed graph now opts.maxDepth start f.seed f.path f.node := by
    intro f hf
    rcases mem_visit_pending hf with hrest | ⟨hdepth, step, hstep, htarget, hseed, hpath⟩
    · exact h.pending f ((hmem f).mpr (List.mem_cons_of_mem _ hrest))
    · rw [hseed, hpath, ← htarget]
      refine ⟨hcurrent.seeded, hcurrent.trail.snoc (follows_of_mem_stepsFrom hstep), ?_⟩
      rw [List.length_append, List.length_singleton]
      exact hdepth
  have hvisited : ∀ id ∈ w.visited, id ∈ (Trace.visit T S isFile graph root now opts w current rest).visited := by
    intro id hid
    rw [visit_visited, SortedSet.mem_insert]
    exact .inr hid
  rcases visit_found_cases T S isFile graph root now opts w current rest with hsame | ⟨loc, hmore⟩
  · refine ⟨hpending, ?_, ?_, ?_⟩
    · rw [hsame]
      exact h.found
    · rw [hsame]
      exact fun c hc => hvisited _ (h.visited c hc)
    · rw [hsame]
      exact h.distinct
  · refine ⟨hpending, ?_, ?_, ?_⟩
    · rw [hmore]
      intro c hc
      rcases List.mem_append.mp hc with hc | hc
      · exact h.found c hc
      · rw [List.mem_singleton.mp hc]
        exact hcurrent
    · rw [hmore]
      intro c hc
      rcases List.mem_append.mp hc with hc | hc
      · exact hvisited _ (h.visited c hc)
      · rw [List.mem_singleton.mp hc, visit_visited, SortedSet.mem_insert]
        exact .inl rfl
    · have hfresh : current.node ∉ w.found.map Candidate.node := by
        intro hold
        obtain ⟨c, hc, hnode⟩ := List.mem_map.mp hold
        exact hnew (hnode ▸ h.visited c hc)
      rw [hmore, List.map_append, List.map_cons, List.map_nil, ← List.concat_eq_append]
      exact h.distinct.concat hfresh

theorem PathInv.walk (h : PathInv graph now opts start w) :
    PathInv graph now opts start (Trace.walk T S isFile graph root now opts w) := by
  induction w using walk.induct T S isFile graph root now opts with
  | case1 w hroom hnone =>
    rw [walk_none hroom hnone]
    exact h
  | case2 w hroom current rest hbest hvisited ih =>
    rw [walk_some hroom hbest, if_pos hvisited]
    exact ih (h.skip hbest)
  | case3 w hroom current rest hbest hnew ih =>
    rw [walk_some hroom hbest, if_neg hnew]
    exact ih (h.visit hbest hnew)
  | case4 w hfull =>
    rw [Trace.walk, if_neg hfull]
    exact h

omit [LinearOrder σ] in
theorem retainFirst_sublist (seen : List Locator) (l : List (Candidate σ)) : (retainFirst seen l).Sublist l := by
  induction l generalizing seen with
  | nil => exact List.Sublist.refl _
  | cons c l ih =>
    rw [retainFirst]
    split_ifs
    · exact (ih seen).cons c
    · exact (ih _).cons_cons c

/-- The way to each candidate is witnessed, and each node is a candidate once. -/
theorem candidates_witnessed {seedNow : String} {query : List String} {found : List (Candidate σ)} {count : ℕ}
    {limited : Bool} (h : candidates T S isFile graph root seedNow now opts query = .ok (found, count, limited)) :
    ∃ start, seeds S graph seedNow opts query = .ok start ∧
      (∀ c ∈ found, Witnessed graph now opts.maxDepth start c.seed c.path c.node) ∧
      (found.map Candidate.node).Nodup := by
  unfold candidates at h
  obtain ⟨start, hseeds, h⟩ := bind_eq_ok.mp h
  obtain ⟨rfl, -⟩ := Prod.mk.inj (Except.ok.inj h)
  have hinv : PathInv graph now opts start (walkFrom T S isFile graph root now opts start) :=
    (pathInv_start fun f hf => mem_seeds hseeds hf).walk
  have hkept := retainFirst_sublist []
    ((walkFrom T S isFile graph root now opts start).found.insertionSort (BestFirst Candidate.score Candidate.node))
  refine ⟨start, hseeds, fun c hc => ?_, ?_⟩
  · exact hinv.found c ((List.mem_insertionSort _).mp (hkept.subset hc))
  · have hperm := (List.perm_insertionSort (BestFirst Candidate.score Candidate.node)
      (walkFrom T S isFile graph root now opts start).found).map Candidate.node
    exact (hperm.nodup_iff.mpr hinv.distinct).sublist (hkept.map _)

end

end Innen.Trace
