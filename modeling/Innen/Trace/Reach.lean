import Innen.Trace.Routes
import Mathlib.Logic.Relation

/-!
# What the walk visits

A walk that met no budget has visited all nodes that links lead to from a seed, and no others, and it has found the
source of each. The invariant says that every step from a visited node leads to a visited node or to a pending one,
unless a budget was met.
-/

namespace Innen.Trace

open Common Graph

variable {σ : Type} [LinearOrder σ] {T : Tables} {S : Scores σ}

/-- A valid link leads from a node to another in a permitted direction. -/
def Linked (graph : GraphCache) (now a b : String) : Prop := ∃ step ∈ stepsFrom graph now a, step.target = b

/-- Links lead from a node to another. -/
def Reaches (graph : GraphCache) (now : String) : String → String → Prop := Relation.ReflTransGen (Linked graph now)

/-! ## Pushing -/

omit [LinearOrder σ] in
/-- What is pending stays, and what is pushed are targets of steps. -/
theorem mem_advance {steps : List Step} {current : Frontier σ} {visited : SortedSet String} (todo : List Step)
    (pending : List (Frontier σ)) {f : Frontier σ} :
    (f ∈ pending → f ∈ (advance S steps current visited todo pending).1) ∧
      (f ∈ (advance S steps current visited todo pending).1 → f ∈ pending ∨ ∃ step ∈ todo,
        step.target = f.node ∧ f.seed = current.seed ∧ f.path = current.path ++ [step.hop]) := by
  induction todo generalizing pending with
  | nil => exact ⟨fun h => h, fun h => .inl h⟩
  | cons step rest ih =>
    unfold advance
    by_cases hvisited : step.target ∈ visited
    · rw [if_pos hvisited]
      refine ⟨(ih pending).1, fun h => ((ih pending).2 h).imp_right ?_⟩
      rintro ⟨s, hs, ht⟩
      exact ⟨s, List.mem_cons_of_mem _ hs, ht⟩
    rw [if_neg hvisited]
    by_cases hfull : maxFrontier ≤ pending.length
    · rw [if_pos hfull]
      exact ⟨fun h => h, fun h => .inl h⟩
    · rw [if_neg hfull]
      refine ⟨fun h => (ih _).1 (List.mem_append_left _ h), fun h => ?_⟩
      rcases (ih _).2 h with hmem | ⟨s, hs, ht⟩
      · rcases List.mem_append.mp hmem with hmem | hmem
        · exact .inl hmem
        · rw [List.mem_singleton.mp hmem]
          exact .inr ⟨step, List.mem_cons_self, rfl, rfl, rfl⟩
      · exact .inr ⟨s, List.mem_cons_of_mem _ hs, ht⟩

omit [LinearOrder σ] in
/-- Every target was visited or is pending, unless there was no room. -/
theorem advance_covers (S : Scores σ) (steps : List Step) (current : Frontier σ) (visited : SortedSet String)
    (todo : List Step) (pending : List (Frontier σ)) :
    (advance S steps current visited todo pending).2 = true ∨
      ∀ step ∈ todo, step.target ∈ visited ∨
        ∃ f ∈ (advance S steps current visited todo pending).1, f.node = step.target := by
  induction todo generalizing pending with
  | nil => exact .inr fun step hstep => absurd hstep List.not_mem_nil
  | cons step rest ih =>
    unfold advance
    by_cases hvisited : step.target ∈ visited
    · rw [if_pos hvisited]
      refine (ih pending).imp_right fun h s hs => ?_
      rcases List.mem_cons.mp hs with rfl | hs
      · exact .inl hvisited
      · exact h s hs
    rw [if_neg hvisited]
    by_cases hfull : maxFrontier ≤ pending.length
    · rw [if_pos hfull]
      exact .inl rfl
    · rw [if_neg hfull]
      refine (ih _).imp_right fun h s hs => ?_
      rcases List.mem_cons.mp hs with rfl | hs
      · refine .inr ⟨_, (mem_advance rest _).1 (List.mem_append_right _ List.mem_cons_self), rfl⟩
      · exact h s hs

/-! ## The invariant -/

section

variable {isFile : String → Bool} {graph : GraphCache} {root now : String} {opts : Options}

/-- A node is visited or pending. -/
def Walk.Knows (w : Walk σ) (id : String) : Prop := id ∈ w.visited ∨ ∃ f ∈ w.pending, f.node = id

/-- What holds all along a walk. -/
structure WalkInv (T : Tables) (isFile : String → Bool) (graph : GraphCache) (root now : String)
    (start : List (Frontier σ)) (w : Walk σ) : Prop where
  closed : w.limited = true ∨ ∀ id ∈ w.visited, ∀ step ∈ stepsFrom graph now id, w.Knows step.target
  seeds : ∀ f ∈ start, w.Knows f.node
  sound : ∀ id, w.Knows id → ∃ f ∈ start, Reaches graph now f.node id
  found : ∀ id ∈ w.visited, ∀ loc, targetLocator T isFile graph root id = some loc → ∃ c ∈ w.found, c.locator = loc
  named : ∀ c ∈ w.found, targetLocator T isFile graph root c.node = some c.locator

omit [LinearOrder σ] in
theorem walkInv_start (start : List (Frontier σ)) :
    WalkInv T isFile graph root now start ⟨start, ∅, [], false⟩ where
  closed := .inr fun id hid => absurd hid (SortedSet.not_mem_empty id)
  seeds f hf := .inr ⟨f, hf, rfl⟩
  sound id h := by
    rcases h with h | ⟨f, hf, rfl⟩
    · exact absurd h (SortedSet.not_mem_empty id)
    · exact ⟨f, hf, .refl⟩
  found id hid := absurd hid (SortedSet.not_mem_empty id)
  named c hc := absurd hc List.not_mem_nil

variable {start : List (Frontier σ)} {w : Walk σ} {current : Frontier σ} {rest : List (Frontier σ)}

/-- A node that was visited before is taken off. -/
theorem WalkInv.skip (h : WalkInv T isFile graph root now start w) (hbest : popBest w.pending = some (current, rest))
    (hvisited : current.node ∈ w.visited) : WalkInv T isFile graph root now start { w with pending := rest } := by
  have hmem := fun f => (popBest_perm hbest).mem_iff (a := f)
  have hknows : ∀ id, Walk.Knows { w with pending := rest } id ↔ w.Knows id := by
    intro id
    constructor
    · rintro (hid | ⟨f, hf, rfl⟩)
      · exact .inl hid
      · exact .inr ⟨f, (hmem f).mpr (List.mem_cons_of_mem _ hf), rfl⟩
    · rintro (hid | ⟨f, hf, rfl⟩)
      · exact .inl hid
      · rcases List.mem_cons.mp ((hmem f).mp hf) with rfl | hf
        · exact .inl hvisited
        · exact .inr ⟨f, hf, rfl⟩
  exact ⟨h.closed.imp_right fun hclosed id hid step hstep => (hknows _).mpr (hclosed id hid step hstep),
    fun f hf => (hknows _).mpr (h.seeds f hf), fun id hid => h.sound id ((hknows id).mp hid), h.found, h.named⟩

variable (T S isFile graph root now opts) in
omit [LinearOrder σ] in
/-- What a visit does to what is pending and to whether a budget was met. -/
theorem visit_spec (w : Walk σ) (current : Frontier σ) (rest : List (Frontier σ)) :
    (∀ f ∈ rest, f ∈ (visit T S isFile graph root now opts w current rest).pending) ∧
      (∀ f ∈ (visit T S isFile graph root now opts w current rest).pending,
        f ∈ rest ∨ Linked graph now current.node f.node) ∧
      (w.limited = true → (visit T S isFile graph root now opts w current rest).limited = true) ∧
      ((visit T S isFile graph root now opts w current rest).limited = true ∨
        ∀ step ∈ stepsFrom graph now current.node,
          (visit T S isFile graph root now opts w current rest).Knows step.target) := by
  unfold visit
  dsimp only
  split_ifs with hdepth
  · refine ⟨fun f hf => hf, fun f hf => .inl hf, fun hlimited => by rw [hlimited, Bool.true_or], ?_⟩
    cases hany : (stepsFrom graph now current.node).any fun step => decide (step.target ∉ w.visited.insert current.node) with
    | true => exact .inl (Bool.or_true _)
    | false =>
      refine .inr fun step hstep => .inl ?_
      exact of_not_not fun hnew => List.any_eq_false.mp hany step hstep (decide_eq_true hnew)
  · refine ⟨fun f hf => (mem_advance _ _).1 hf, fun f hf => ((mem_advance _ _).2 hf).imp_right fun ⟨s, hs, ht⟩ => ⟨s, hs, ht.1⟩,
      fun hlimited => by rw [hlimited, Bool.true_or], ?_⟩
    rcases advance_covers S (stepsFrom graph now current.node) current (w.visited.insert current.node)
      (stepsFrom graph now current.node) rest with hlimited | hall
    · exact .inl (by rw [hlimited, Bool.or_true])
    · exact .inr hall

omit [LinearOrder σ] in
/-- A visit finds the source of the node. -/
theorem mem_visit_found {c : Candidate σ} :
    c ∈ (visit T S isFile graph root now opts w current rest).found ↔
      c ∈ w.found ∨ ∃ loc, targetLocator T isFile graph root current.node = some loc ∧
        c = ⟨current.node, current.seed, current.score, current.path, loc⟩ := by
  unfold visit
  cases hloc : targetLocator T isFile graph root current.node with
  | none =>
    dsimp only
    split_ifs <;> simp
  | some loc =>
    dsimp only
    split_ifs <;> simp

/-- A visit keeps the invariant. -/
theorem WalkInv.visit (h : WalkInv T isFile graph root now start w) (hbest : popBest w.pending = some (current, rest)) :
    WalkInv T isFile graph root now start (Trace.visit T S isFile graph root now opts w current rest) := by
  have hmem := fun f => (popBest_perm hbest).mem_iff (a := f)
  obtain ⟨hkeep, hpushed, hlimited, hsteps⟩ := visit_spec T S isFile graph root now opts w current rest
  have hvisited : ∀ id, id ∈ (Trace.visit T S isFile graph root now opts w current rest).visited ↔
      id = current.node ∨ id ∈ w.visited := by
    intro id
    rw [visit_visited, SortedSet.mem_insert]
  have hknows : ∀ id, w.Knows id → (Trace.visit T S isFile graph root now opts w current rest).Knows id := by
    rintro id (hid | ⟨f, hf, rfl⟩)
    · exact .inl ((hvisited id).mpr (.inr hid))
    · rcases List.mem_cons.mp ((hmem f).mp hf) with rfl | hf
      · exact .inl ((hvisited _).mpr (.inl rfl))
      · exact .inr ⟨f, hkeep f hf, rfl⟩
  have hcurrent : w.Knows current.node := .inr ⟨current, (hmem current).mpr List.mem_cons_self, rfl⟩
  refine ⟨?_, fun f hf => hknows _ (h.seeds f hf), ?_, ?_, ?_⟩
  · rcases h.closed with hl | hclosed
    · exact .inl (hlimited hl)
    · refine hsteps.imp_right fun hall id hid step hstep => ?_
      rcases (hvisited id).mp hid with rfl | hid
      · exact hall step hstep
      · exact hknows _ (hclosed id hid step hstep)
  · rintro id (hid | ⟨f, hf, rfl⟩)
    · rcases (hvisited id).mp hid with rfl | hid
      · exact h.sound _ hcurrent
      · exact h.sound id (.inl hid)
    · rcases hpushed f hf with hf | hlinked
      · exact h.sound _ (.inr ⟨f, (hmem f).mpr (List.mem_cons_of_mem _ hf), rfl⟩)
      · obtain ⟨g, hg, hreach⟩ := h.sound _ hcurrent
        exact ⟨g, hg, hreach.tail hlinked⟩
  · intro id hid loc hloc
    rcases (hvisited id).mp hid with rfl | hid
    · exact ⟨_, mem_visit_found.mpr (.inr ⟨loc, hloc, rfl⟩), rfl⟩
    · obtain ⟨c, hc, hcloc⟩ := h.found id hid loc hloc
      exact ⟨c, mem_visit_found.mpr (.inl hc), hcloc⟩
  · intro c hc
    rcases mem_visit_found.mp hc with hc | ⟨loc, hloc, rfl⟩
    · exact h.named c hc
    · exact hloc

theorem walk_none (hroom : w.visited.card < opts.maxNodes) (hnone : popBest w.pending = none) :
    Trace.walk T S isFile graph root now opts w = w := by
  rw [Trace.walk, if_pos hroom]
  split
  · rfl
  · rename_i hbest
    rw [hnone] at hbest
    cases hbest

theorem walk_some (hroom : w.visited.card < opts.maxNodes) (hbest : popBest w.pending = some (current, rest)) :
    Trace.walk T S isFile graph root now opts w =
      if current.node ∈ w.visited then Trace.walk T S isFile graph root now opts { w with pending := rest }
      else Trace.walk T S isFile graph root now opts (Trace.visit T S isFile graph root now opts w current rest) := by
  rw [Trace.walk, if_pos hroom]
  split
  · rename_i hnone
    rw [hbest] at hnone
    cases hnone
  · rename_i hsome
    rw [hbest] at hsome
    obtain ⟨rfl, rfl⟩ := Prod.mk.inj (Option.some.inj hsome)
    rfl

/-- The walk, if it ends within so many steps. -/
def walkWithin (T : Tables) (S : Scores σ) (isFile : String → Bool) (graph : GraphCache) (root now : String)
    (opts : Options) : ℕ → Walk σ → Option (Walk σ)
  | 0, _ => none
  | n + 1, w =>
    if w.visited.card < opts.maxNodes then
      match popBest w.pending with
      | none => some w
      | some next =>
        if next.1.node ∈ w.visited then walkWithin T S isFile graph root now opts n { w with pending := next.2 }
        else walkWithin T S isFile graph root now opts n (Trace.visit T S isFile graph root now opts w next.1 next.2)
    else some w

theorem walk_of_walkWithin {n : ℕ} {w' : Walk σ} (h : walkWithin T S isFile graph root now opts n w = some w') :
    Trace.walk T S isFile graph root now opts w = w' := by
  induction n generalizing w with
  | zero => cases h
  | succ n ih =>
    rw [walkWithin] at h
    by_cases hroom : w.visited.card < opts.maxNodes
    · rw [if_pos hroom] at h
      cases hbest : popBest w.pending with
      | none =>
        rw [hbest] at h
        exact (walk_none hroom hbest).trans (Option.some.inj h)
      | some next =>
        rw [hbest] at h
        rw [walk_some hroom hbest]
        dsimp only at h
        split_ifs at h ⊢
        · exact ih h
        · exact ih h
    · rw [if_neg hroom] at h
      rw [Trace.walk, if_neg hroom]
      exact Option.some.inj h

theorem WalkInv.walk (h : WalkInv T isFile graph root now start w) :
    WalkInv T isFile graph root now start (Trace.walk T S isFile graph root now opts w) := by
  induction w using walk.induct T S isFile graph root now opts with
  | case1 w hroom hnone =>
    rw [walk_none hroom hnone]
    exact h
  | case2 w hroom current rest hbest hvisited ih =>
    rw [walk_some hroom hbest, if_pos hvisited]
    exact ih (h.skip hbest hvisited)
  | case3 w hroom current rest hbest hnew ih =>
    rw [walk_some hroom hbest, if_neg hnew]
    exact ih (h.visit hbest)
  | case4 w hfull =>
    rw [Trace.walk, if_neg hfull]
    exact h

/-- A walk that met no budget has visited just what the seeds reach. -/
theorem mem_walkFrom (id : String) (hlimited : (walkFrom T S isFile graph root now opts start).limited = false)
    (hpending : (walkFrom T S isFile graph root now opts start).pending = []) :
    id ∈ (walkFrom T S isFile graph root now opts start).visited ↔ ∃ f ∈ start, Reaches graph now f.node id := by
  have hinv : WalkInv T isFile graph root now start (walkFrom T S isFile graph root now opts start) :=
    (walkInv_start start).walk
  have hknown : ∀ id, (walkFrom T S isFile graph root now opts start).Knows id →
      id ∈ (walkFrom T S isFile graph root now opts start).visited := by
    rintro id (hid | ⟨f, hf, rfl⟩)
    · exact hid
    · rw [hpending] at hf
      cases hf
  constructor
  · exact fun hid => hinv.sound id (.inl hid)
  · rintro ⟨f, hf, hreach⟩
    induction hreach with
    | refl => exact hknown _ (hinv.seeds f hf)
    | tail _ hlink ih =>
      obtain ⟨step, hstep, rfl⟩ := hlink
      rcases hinv.closed with hl | hclosed
      · rw [hl] at hlimited
        cases hlimited
      · exact hknown _ (hclosed _ ih step hstep)

omit [LinearOrder σ] in
/-- A locator that occurs stays. -/
theorem exists_retainFirst {c : Candidate σ} {l : List (Candidate σ)} (seen : List Locator) (hc : c ∈ l)
    (hseen : c.locator ∉ seen) : ∃ d ∈ retainFirst seen l, d.locator = c.locator := by
  induction l generalizing seen with
  | nil => cases hc
  | cons d rest ih =>
    rw [retainFirst]
    split_ifs with hd
    · rcases List.mem_cons.mp hc with rfl | hc
      · exact absurd hd hseen
      · exact ih seen hc hseen
    · by_cases hsame : d.locator = c.locator
      · exact ⟨d, List.mem_cons_self, hsame⟩
      · rcases List.mem_cons.mp hc with rfl | hc
        · exact absurd rfl hsame
        · obtain ⟨e, he, heq⟩ := ih (d.locator :: seen) hc fun hmem => by
            rcases List.mem_cons.mp hmem with heq | hmem
            · exact hsame heq.symm
            · exact hseen hmem
          exact ⟨e, List.mem_cons_of_mem _ he, heq⟩

/-- The sources of a search that met no budget: each one of a node that a seed reaches. -/
theorem candidates_spec {seedNow : String} {query : List String} {found : List (Candidate σ)} {count : ℕ}
    (h : candidates T S isFile graph root seedNow now opts query = .ok (found, count, false)) :
    ∃ start, seeds S graph seedNow opts query = .ok start ∧
      (∀ id, id ∈ (walkFrom T S isFile graph root now opts start).visited ↔
        ∃ f ∈ start, Reaches graph now f.node id) ∧
      ∀ f ∈ start, ∀ id, Reaches graph now f.node id → ∀ loc, targetLocator T isFile graph root id = some loc →
        ∃ c ∈ found, c.locator = loc := by
  unfold candidates at h
  cases hseeds : seeds S graph seedNow opts query with
  | error e =>
    rw [hseeds] at h
    cases h
  | ok start =>
    rw [hseeds] at h
    have hresult := Except.ok.inj h
    simp only [Prod.mk.injEq, Bool.or_eq_false_iff, Bool.not_eq_false', List.isEmpty_iff] at hresult
    obtain ⟨rfl, -, hlimited, hpending⟩ := hresult
    have hvisited := fun id => mem_walkFrom id hlimited hpending
    refine ⟨start, rfl, hvisited, fun f hf id hreach loc hloc => ?_⟩
    have hinv : WalkInv T isFile graph root now start (walkFrom T S isFile graph root now opts start) :=
      (walkInv_start start).walk
    obtain ⟨c, hc, hcloc⟩ := hinv.found id ((hvisited id).mpr ⟨f, hf, hreach⟩) loc hloc
    obtain ⟨d, hd, hdloc⟩ := exists_retainFirst [] (List.mem_insertionSort (BestFirst Candidate.score Candidate.node) |>.mpr hc)
      List.not_mem_nil
    exact ⟨d, hd, hdloc.trans hcloc⟩

end

end Innen.Trace
