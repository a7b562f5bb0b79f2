import Innen.Middleware.History.Packet
import Mathlib.Tactic.IntervalCases

/-!
# What a history packet calls an active dependency

The walk over the ancestors follows references of both kinds from the matching decisions. A decision it
reaches is presented as an active dependency when nothing supersedes it. Such a decision is a dependency
of a matching one, directly or through other dependencies, unless it hangs below a superseded decision.
-/

namespace Innen.Middleware.History

open Innen.Common Relation

variable {request : Request} {positions : SortedMap String ℕ}

/-! ## The kinds of items -/

theorem activeItem_kind (d : Decision) (a : Applicability) (competing guards : List String) :
    (activeItem d a competing guards).get? "kind" = some (.string "current_decision") := by
  unfold activeItem
  split
  · rw [get?_set_mkObject, if_neg (by decide)]
    simp [Value.get?_mkObject, itemFields, Assoc.get?]
  · simp [Value.get?_mkObject, itemFields, Assoc.get?]

theorem ancestorItem_kind (d : Decision) (relationship : Relationship) :
    (ancestorItem d relationship).get? "kind" = some (.string "decision_history_summary") := by
  simp [ancestorItem, Value.get?_mkObject, itemFields, Assoc.get?]

/-- A content that presents its decision as an active dependency. -/
def PresentsDependency (content : Value) : Prop :=
  content.get? "kind" = some (.string "active_dependency")

instance (content : Value) : Decidable (PresentsDependency content) :=
  inferInstanceAs (Decidable (_ = _))

/-! ## The walk over the ancestors -/

/-- One reference of either kind. -/
def Leads (request : Request) (i j : ℕ) : Prop :=
  Refers request (·.dependsOn) i j ∨ Refers request (·.supersedes) i j

/-- The decision at `i` is a dependency of a superseded one that a matching decision leads to. -/
def BelowSuperseded (request : Request) (i : ℕ) : Prop :=
  ∃ m s e, Matching request m ∧ TransGen (Leads request) m s ∧ request.events[s]? = some e ∧
    Superseded request e ∧ TransGen (Refers request (·.dependsOn)) s i

/-- The decision at `i` is a dependency of a matching one. -/
def Needed (request : Request) (i : ℕ) : Prop :=
  ∃ m, Matching request m ∧ TransGen (Refers request (·.dependsOn)) m i

theorem Validated.ancestor_step (hv : Validated request positions) :
    Descent.Step (fun i => dependencySteps request.events positions i ++
      supersessionSteps request.events positions i) = Leads request := by
  funext i j
  rw [Leads, ← hv.refers_iff fun d => mem_dependsOn, ← hv.refers_iff fun d => mem_supersedes]
  simp only [Descent.Step, dependencySteps, supersessionSteps, dependsOnAt, supersedesAt,
    List.mem_append, List.mem_map, Prod.mk.injEq, eq_iff_iff]
  constructor
  · rintro ⟨_, ⟨r, hr, hpos, -⟩ | ⟨r, hr, hpos, -⟩⟩
    · exact .inl ⟨r, hr, hpos⟩
    · exact .inr ⟨r, hr, hpos⟩
  · rintro (⟨r, hr, hpos⟩ | ⟨r, hr, hpos⟩)
    · exact ⟨_, .inl ⟨r, hr, hpos, rfl⟩⟩
    · exact ⟨_, .inr ⟨r, hr, hpos, rfl⟩⟩

theorem Validated.ancestor_backward (hv : Validated request positions) :
    Descent.Backward (fun i => dependencySteps request.events positions i ++
      supersessionSteps request.events positions i) := by
  intro i e he
  rcases List.mem_append.mp he with he | he
  · obtain ⟨r, hr, rfl⟩ := List.mem_map.mp he
    exact hv.position_lt (fun d => mem_dependsOn) hr
  · obtain ⟨r, hr, rfl⟩ := List.mem_map.mp he
    exact hv.position_lt (fun d => mem_supersedes) hr

/-- Every ancestor is one of a matching decision. -/
theorem Validated.mem_ancestorsOf (hv : Validated request positions) {e : ℕ × Relationship}
    (he : e ∈ ancestorsOf request.events positions (matchingOf request)) :
    ∃ m, Matching request m ∧ TransGen (Leads request) m e.1 := by
  have hbound : ∀ i ∈ matchingOf request, i ≤ request.events.length :=
    fun i hi => (mem_matchingOf.mp hi).1.lt_length.le
  have hout := List.mem_mergeSort.mp he
  rcases Descent.foldl_visit_below hv.ancestor_backward hbound hout with hnone | ⟨m, hm, hreach⟩
  · exact absurd hnone List.not_mem_nil
  · exact ⟨m, mem_matchingOf.mp hm, hv.ancestor_step ▸ hreach⟩

/-- A path to a decision that nothing supersedes takes dependencies only or passes a superseded one. -/
theorem needed_or_below {i m : ℕ} {d : Decision} (hm : Matching request m)
    (hpath : TransGen (Leads request) m i) (hd : request.events[i]? = some d)
    (hnot : ¬Superseded request d) : Needed request i ∨ BelowSuperseded request i := by
  rcases Descent.transGen_or hpath with hall | ⟨b, s, hb, hsuper, hrest⟩
  · exact .inl ⟨m, hm, hall⟩
  · obtain ⟨f, e, hf, he, hmem⟩ := id hsuper
    have hsup : Superseded request e := ⟨f, List.mem_of_getElem? hf, hmem⟩
    -- the superseded decision is not the one reached, so at least one dependency follows
    rcases reflTransGen_iff_eq_or_transGen.mp hrest with rfl | hrest
    · obtain rfl := Option.some.inj (hd.symm.trans he)
      exact absurd hsup hnot
    · exact .inr ⟨m, s, e, hm, TransGen.tail' hb (.inr hsuper), he, hsup, hrest⟩

/-! ## The loops -/

/-- A content presented as an active dependency is that of such a decision. -/
def PresentsNeeded (request : Request) (content : Value) : Prop :=
  PresentsDependency content → ∃ i d, request.events[i]? = some d ∧
    content.get? "id" = some (.string d.id) ∧ ¬Superseded request d ∧
    (Needed request i ∨ BelowSuperseded request i)

theorem presentsNeeded_currentItem (c : Context) (pass : Pass) (e : Decision × ℕ)
    (h : ∀ item ∈ pass.items, PresentsNeeded request item.content) :
    ∀ item ∈ (currentItem c pass e).items, PresentsNeeded request item.content := by
  intro item hitem
  rcases List.mem_append.mp hitem with hitem | hitem
  · exact h item hitem
  · obtain rfl := List.mem_singleton.mp hitem
    intro hkind
    have hkinds := (activeItem_kind e.1 _ _ _).symm.trans hkind
    simp at hkinds

theorem presentsNeeded_ancestorStep (hv : Validated request positions) (pass : Pass)
    {e : Decision × ℕ × Relationship} (hd : request.events[e.2.1]? = some e.1)
    (hmem : e.2 ∈ ancestorsOf request.events positions (matchingOf request))
    (h : ∀ item ∈ pass.items, PresentsNeeded request item.content) :
    ∀ item ∈ (ancestorStep (contextOf request positions) pass e).items,
      PresentsNeeded request item.content := by
  intro item hitem
  rcases List.mem_append.mp hitem with hitem | hitem
  · exact h item hitem
  · obtain rfl := List.mem_singleton.mp hitem
    simp only [requiredItem]
    split
    · rename_i hactive
      intro _
      have hnot : ¬Superseded request e.1 := fun hsup => hactive.2 (mem_supersededIds.mpr hsup)
      obtain ⟨m, hm, hpath⟩ := hv.mem_ancestorsOf hmem
      exact ⟨e.2.1, e.1, hd, activeDependencyItem_id _ _ _, hnot, needed_or_below hm hpath hd hnot⟩
    · intro hkind
      rw [PresentsDependency, ancestorItem_kind] at hkind
      simp at hkind

/-- Both loops. -/
theorem Validated.passOf_presents (hv : Validated request positions) :
    ∀ item ∈ (passOf request positions).items, PresentsNeeded request item.content := by
  have hfirst : ∀ es : List (Decision × ℕ), ∀ pass : Pass,
      (∀ item ∈ pass.items, PresentsNeeded request item.content) →
      ∀ item ∈ (es.foldl (currentItem (contextOf request positions)) pass).items,
        PresentsNeeded request item.content := by
    intro es
    induction es with
    | nil => exact fun _ h => h
    | cons e rest ih => exact fun pass h => ih _ (presentsNeeded_currentItem _ pass e h)
  have hsecond : ∀ es : List (Decision × ℕ × Relationship),
      (∀ e ∈ es, request.events[e.2.1]? = some e.1 ∧
        e.2 ∈ ancestorsOf request.events positions (matchingOf request)) →
      ∀ pass : Pass, (∀ item ∈ pass.items, PresentsNeeded request item.content) →
      ∀ item ∈ (es.foldl (ancestorStep (contextOf request positions)) pass).items,
        PresentsNeeded request item.content := by
    intro es
    induction es with
    | nil => exact fun _ _ h => h
    | cons e rest ih =>
      intro hes pass h
      obtain ⟨hd, hmem⟩ := hes e List.mem_cons_self
      exact ih (fun e' he' => hes e' (List.mem_cons_of_mem e he')) _
        (presentsNeeded_ancestorStep hv pass hd hmem h)
  refine hsecond _ (fun e he => ?_) _ (hfirst _ _ (by simp))
  obtain ⟨hmem, hd⟩ := mem_decisionsAt.mp he
  exact ⟨hd, hmem⟩

/-! ## The packet -/

theorem PresentsNeeded.mapFloats {content : Value} (h : PresentsNeeded request content)
    (f : UInt64 → UInt64) : PresentsNeeded request (content.mapFloats f) := by
  intro hkind
  rw [PresentsDependency, Value.get?_mapFloats, Option.map_eq_some_iff] at hkind
  obtain ⟨kind, hget, hstring⟩ := hkind
  have hkind' : PresentsDependency content := by
    rcases kind with _ | _ | (_ | _ | _) | _ | _ | _ <;> simp_all [PresentsDependency, Value.mapFloats]
  obtain ⟨i, d, hd, hid, hrest⟩ := h hkind'
  refine ⟨i, d, hd, ?_, hrest⟩
  rw [Value.get?_mapFloats, hid, Option.map_some, Value.mapFloats_string]

/-- What the active dependencies of a prepared packet are. -/
theorem prepare_dependencies (P : Platform) (request : Request) (prepared : PreparedHistory)
    (h : prepare P request = .ok prepared) :
    ∀ content ∈ packetContents prepared.prepared.packet, PresentsNeeded request content := by
  obtain ⟨positions, inner, hvalid, hinner, rfl, -⟩ := prepare_ok h
  have hv := validated_of_ok hvalid
  intro content hcontent
  rw [(prepare_packet hv hinner).1, packetContents_packet] at hcontent
  obtain ⟨item, hitem, rfl⟩ := List.mem_map.mp hcontent
  exact (hv.passOf_presents item hitem).mapFloats P.reparseFloat

/-! ## A correction with dependencies of its own -/

/-- The decision at `i` is a dependency of a matching one that the task meets. -/
def NeededApplicably (request : Request) (i : ℕ) : Prop :=
  ∃ m d, Matching request m ∧ request.events[m]? = some d ∧ Applicable request d ∧
    TransGen (Refers request (·.dependsOn)) m i

/-- A correction that the task does not meet, with a dependency of its own and one of what it corrects. -/
def correctedRequest : Request where
  stablePrefix := .null
  task := ⟨"maintenance", "innen", "clean", .active, ∅⟩
  budgetTokens := 10000
  events := [{ plainDecision "base" "2026-09-08T08:00:00Z" with actions := ["build"] },
    { plainDecision "old" "2026-09-08T09:00:00Z" with dependsOn := ["base"] },
    { plainDecision "tool" "2026-09-08T10:00:00Z" with actions := ["build"] },
    { plainDecision "current" "2026-09-08T11:00:00Z" with
      supersedes := ["old"]
      dependsOn := ["tool"]
      conditions := (∅ : SortedMap String String).insert "os" "linux" }]

/-- The ids that a packet presents as active dependencies. -/
def presentedIds (packet : Value) : List (Option Value) :=
  ((packetContents packet).filter fun content => PresentsDependency content).map (·.get? "id")

theorem correctedRequest_matching {m : ℕ} (h : Matching correctedRequest m) : m = 3 := by
  obtain ⟨⟨d, hd, -, -, hnot⟩, d', hd', haction⟩ := h
  obtain rfl := Option.some.inj (hd.symm.trans hd')
  have hlt : m < 4 := (List.getElem?_eq_some_iff.mp hd).1
  interval_cases m
  · obtain rfl := Option.some.inj hd
    exact absurd haction (by decide)
  · obtain rfl := Option.some.inj hd
    exact absurd ⟨_, List.mem_of_getElem? (i := 3) rfl, by decide⟩ hnot
  · obtain rfl := Option.some.inj hd
    exact absurd haction (by decide)
  · rfl

/-- The ancestors are what the walks marked, in the order of their indices. -/
theorem ancestorsOf_eq {events : List Decision} {matching : List ℕ} {l : List (ℕ × Relationship)}
    (hperm : (matching.foldl (fun visited index => collectAncestors index events positions visited)
      ⟨SortedSet.ofList matching, []⟩).output.Perm l) (hsorted : (l.map Prod.fst).Pairwise (· < ·)) :
    ancestorsOf events positions matching = l := by
  have htrans : ∀ a b c : ℕ × Relationship, decide (a.1 ≤ b.1) = true → decide (b.1 ≤ c.1) = true →
      decide (a.1 ≤ c.1) = true := by
    intro a b c hab hbc
    simp only [decide_eq_true_eq] at hab hbc ⊢
    omega
  have htotal : ∀ a b : ℕ × Relationship, (decide (a.1 ≤ b.1) || decide (b.1 ≤ a.1)) = true := by
    intro a b
    simp only [Bool.or_eq_true, decide_eq_true_eq]
    omega
  have hmerged := (List.mergeSort_perm _ fun a b : ℕ × Relationship => decide (a.1 ≤ b.1)).trans hperm
  refine @List.Perm.eq_of_pairwise _ (fun a b => a.1 ≤ b.1) _ _ ?_ ?_ ?_ hmerged
  · -- equal indices are one entry, because the indices of `l` ascend strictly
    intro a b ha hb hab hba
    have hnodup : (l.map Prod.fst).Nodup := hsorted.imp fun h => h.ne
    exact List.inj_on_of_nodup_map hnodup (hmerged.mem_iff.mp ha) hb (le_antisymm hab hba)
  · exact (List.pairwise_mergeSort htrans htotal _).imp fun h => by simpa using h
  · exact (List.pairwise_map.mp hsorted).imp fun h => h.le

/-- A prepared packet is what the middleware makes of the items, if nothing stops it before. -/
theorem prepare_of_inner {P : Platform} {inner : Prepared} (hvalid : validate request = .ok positions)
    (hactive : request.task.state = .active) (hmatching : matchingOf request ≠ [])
    (htokens : ∃ before, tokens P (fullHistory request positions) = .ok before)
    (hinner : Middleware.prepare P (packetRequest request positions) = .ok inner) :
    ∃ prepared, prepare P request = .ok prepared ∧ prepared.prepared = inner := by
  obtain ⟨before, hbefore⟩ := htokens
  have hprepared : (prepare P request).map (·.prepared) = .ok inner := by
    simp [prepare, hvalid, hbefore, hinner, failIf, hactive, hmatching, Except.mapError, Except.map, bind,
      Except.bind]
  rcases h : prepare P request with e | prepared
  · rw [h] at hprepared
    cases hprepared
  · rw [h] at hprepared
    exact ⟨prepared, rfl, Except.ok.inj hprepared⟩

/-- The positions of its decisions. -/
def correctedPositions : SortedMap String ℕ :=
  SortedMap.tabulate (fun id => ["base", "old", "tool", "current"].idxOf? id) ["base", "old", "tool", "current"]

theorem correctedRequest_prepared : ∃ prepared, prepare freePlatform correctedRequest = .ok prepared ∧
    presentedIds prepared.prepared.packet = [some (.string "base"), some (.string "tool")] := by
  have hvalid : validate correctedRequest = .ok correctedPositions := by decide +kernel
  have hancestors : ancestorsOf correctedRequest.events correctedPositions (matchingOf correctedRequest) =
      [(0, .dependency), (1, .superseded), (2, .dependency)] :=
    ancestorsOf_eq (by decide +kernel) (by decide)
  have hinner : (Middleware.prepare freePlatform (packetRequest correctedRequest correctedPositions)).toOption.map
      (fun inner => presentedIds inner.packet) = some [some (.string "base"), some (.string "tool")] := by
    rw [packetRequest, passOf, hancestors]
    decide +kernel
  rcases h : Middleware.prepare freePlatform (packetRequest correctedRequest correctedPositions) with e | inner
  · rw [h] at hinner
    cases hinner
  · rw [h] at hinner
    obtain ⟨prepared, hok, rfl⟩ :=
      prepare_of_inner hvalid rfl (by decide +kernel) ⟨0, rfl⟩ h
    exact ⟨prepared, hok, Option.some.inj hinner⟩

/-- Both dependencies are presented, though the task does not meet the one matching decision and that
decision does not depend on `base`. -/
theorem correctedRequest_presents : ∃ prepared, prepare freePlatform correctedRequest = .ok prepared ∧
    presentedIds prepared.prepared.packet = [some (.string "base"), some (.string "tool")] ∧
    (∀ i, ¬NeededApplicably correctedRequest i) ∧ ¬Needed correctedRequest 0 := by
  have hnot : ∀ i, ¬NeededApplicably correctedRequest i := by
    rintro i ⟨m, d, hm, hd, happ, -⟩
    obtain rfl := correctedRequest_matching hm
    obtain rfl := Option.some.inj hd
    have := happ "os" "linux" (by decide)
    exact absurd this (by decide)
  have hbase : ¬Needed correctedRequest 0 := by
    rintro ⟨m, hm, hpath⟩
    obtain rfl := correctedRequest_matching hm
    -- the last step comes from `old`, which nothing depends on
    obtain ⟨j, hj, d, e, hd, he, hmem⟩ := TransGen.tail'_iff.mp hpath
    obtain rfl := Option.some.inj he
    have hlt : j < 4 := (List.getElem?_eq_some_iff.mp hd).1
    have hone : j = 1 := by
      interval_cases j <;> obtain rfl := Option.some.inj hd <;> revert hmem <;> decide
    subst hone
    rcases reflTransGen_iff_eq_or_transGen.mp hj with hj | hj
    · cases hj
    · obtain ⟨k, -, d', e', hd', he', hmem'⟩ := TransGen.tail'_iff.mp hj
      obtain rfl := Option.some.inj he'
      have hlt' : k < 4 := (List.getElem?_eq_some_iff.mp hd').1
      interval_cases k <;> obtain rfl := Option.some.inj hd' <;> revert hmem' <;> decide
  obtain ⟨prepared, hok, hids⟩ := correctedRequest_prepared
  exact ⟨prepared, hok, hids, hnot, hbase⟩

/-- What the general theorem says of this request: its presented decisions are below the correction. -/
theorem prepare_dependencies_corrected : ∃ prepared, prepare freePlatform correctedRequest = .ok prepared ∧
    ∀ content ∈ packetContents prepared.prepared.packet, PresentsNeeded correctedRequest content := by
  obtain ⟨prepared, hok, -⟩ := correctedRequest_prepared
  exact ⟨prepared, hok, prepare_dependencies freePlatform correctedRequest prepared hok⟩

end Innen.Middleware.History
