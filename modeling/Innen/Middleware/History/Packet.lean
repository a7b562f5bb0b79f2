import Innen.Middleware.History.Guard

/-!
# What a history packet quotes

Along the two loops that build the items every item with a statement belongs to a quotable decision, and
a matching decision that is not quotable enters the list of guarded ones. Nothing else in an item reads
the statement, so two requests that differ only in the statements of decisions that are not quotable
give the same items.
-/

namespace Innen.Middleware.History

open Innen.Common Relation

variable {request : Request} {positions : SortedMap String ℕ}

/-! ## The fields of an item -/

theorem get?_set_mkObject (fields : Fields) (key : String) (item : Value) (key' : String) :
    ((Value.mkObject fields).set key item).get? key' =
      if key' = key then some item else (Value.mkObject fields).get? key' := by
  simp [Value.mkObject, Value.set, Assoc.get?_insert]

theorem activeItem_statement {d : Decision} {a : Applicability} {competing guards : List String}
    {s : Value} (h : (activeItem d a competing guards).get? "statement" = some s) :
    (a.applicable = true ∧ competing = [] ∧ guards = []) ∧ s = .string d.statement := by
  unfold activeItem at h
  split at h
  · rename_i hquote
    rw [get?_set_mkObject, if_pos rfl] at h
    exact ⟨hquote, (Option.some.inj h).symm⟩
  · simp [Value.get?_mkObject, itemFields, Assoc.get?] at h

theorem activeItem_id (d : Decision) (a : Applicability) (competing guards : List String) :
    (activeItem d a competing guards).get? "id" = some (.string d.id) := by
  unfold activeItem
  split
  · rw [get?_set_mkObject, if_neg (by decide)]
    simp [Value.get?_mkObject, itemFields, Assoc.get?]
  · simp [Value.get?_mkObject, itemFields, Assoc.get?]

theorem activeDependencyItem_statement {d : Decision} {a : Applicability} {guards : List String}
    {s : Value} (h : (activeDependencyItem d a guards).get? "statement" = some s) :
    (a.applicable = true ∧ guards = []) ∧ s = .string d.statement := by
  unfold activeDependencyItem at h
  split at h
  · rename_i hquote
    rw [get?_set_mkObject, if_pos rfl] at h
    exact ⟨hquote, (Option.some.inj h).symm⟩
  · simp [Value.get?_mkObject, itemFields, Assoc.get?] at h

theorem activeDependencyItem_id (d : Decision) (a : Applicability) (guards : List String) :
    (activeDependencyItem d a guards).get? "id" = some (.string d.id) := by
  unfold activeDependencyItem
  split
  · rw [get?_set_mkObject, if_neg (by decide)]
    simp [Value.get?_mkObject, itemFields, Assoc.get?]
  · simp [Value.get?_mkObject, itemFields, Assoc.get?]

theorem ancestorItem_statement (d : Decision) (relationship : Relationship) :
    (ancestorItem d relationship).get? "statement" = none := by
  simp [ancestorItem, Value.get?_mkObject, itemFields, Assoc.get?]

/-! ## The loops -/

/-- A content with a statement is that of a quotable decision. -/
def QuotesOnly (request : Request) (content : Value) : Prop :=
  ∀ s, content.get? "statement" = some s → ∃ i d, Quotable request i ∧ request.events[i]? = some d ∧
    content.get? "id" = some (.string d.id) ∧ s = .string d.statement

/-- What holds along both loops. -/
structure PassOk (request : Request) (positions : SortedMap String ℕ) (pass : Pass) : Prop where
  memo : Descent.MemoSound (contextOf request positions).guardSteps pass.memo
  required : ∀ item ∈ pass.items, item.required = true
  quotes : ∀ item ∈ pass.items, QuotesOnly request item.content

theorem passOk_start : PassOk request positions ⟨[], [], ∅⟩ where
  memo := Descent.memoSound_empty _
  required := by simp
  quotes := by simp

/-- Nothing stands against a decision that is not superseded, that the task meets, that has no peer and
no guarded dependency. -/
theorem Validated.quotable_iff (hv : Validated request positions) {i : ℕ} {d : Decision}
    (hd : request.events[i]? = some d) (hnot : ¬Superseded request d) {memo : Descent.Memo String}
    (hmemo : Descent.MemoSound (contextOf request positions).guardSteps memo) :
    ((Applicability.forDecision request.task d).applicable = true ∧
      (contextOf request positions).guardsOf i
        (dependencyGuardIds (contextOf request positions) i memo).1 = []) ↔ Quotable request i := by
  have hi : i < request.events.length := (List.getElem?_eq_some_iff.mp hd).1
  rw [applicable_iff, hv.guardsOf_eq_nil, (hv.dependencyGuardIds_spec hi hmemo).1]
  constructor
  · rintro ⟨happ, hdeps, hpeer⟩
    exact ⟨⟨d, hd, hnot, happ, hpeer⟩, hdeps⟩
  · rintro ⟨⟨e, hsound⟩, hdeps⟩
    obtain rfl := Option.some.inj (hd.symm.trans hsound.there)
    exact ⟨hsound.applicable, hdeps, hsound.no_peer⟩

/-- A decision with peers has guards of its own, so an empty list of guards means no competition. -/
theorem Validated.competing_eq_nil (hv : Validated request positions) {i : ℕ}
    {guards : SortedSet String} (h : (contextOf request positions).guardsOf i guards = []) :
    ((contextOf request positions).competingByIndex.get? i).getD [] = [] := by
  have hnone := (hv.guardsOf_eq_nil.mp h).2
  rw [← hv.competing_iff, Option.not_isSome_iff_eq_none] at hnone
  rw [hnone]
  rfl

/-- One round of the loop over the matching decisions. -/
theorem PassOk.currentItem {pass : Pass} (h : PassOk request positions pass)
    (hv : Validated request positions) {i : ℕ} {d : Decision} (hd : request.events[i]? = some d)
    (hnot : ¬Superseded request d) :
    PassOk request positions (currentItem (contextOf request positions) pass (d, i)) ∧
      ∀ x, x ∈ (History.currentItem (contextOf request positions) pass (d, i)).guarded ↔
        x ∈ pass.guarded ∨ (¬Quotable request i ∧ x = d.id) := by
  have hi : i < request.events.length := (List.getElem?_eq_some_iff.mp hd).1
  have hquote := hv.quotable_iff hd hnot h.memo
  refine ⟨⟨(hv.dependencyGuardIds_spec hi h.memo).2, ?_, ?_⟩, fun x => ?_⟩
  · intro item hitem
    rcases List.mem_append.mp hitem with hitem | hitem
    · exact h.required item hitem
    · obtain rfl := List.mem_singleton.mp hitem
      rfl
  · intro item hitem
    rcases List.mem_append.mp hitem with hitem | hitem
    · exact h.quotes item hitem
    · obtain rfl := List.mem_singleton.mp hitem
      intro s hs
      obtain ⟨⟨happ, -, hguards⟩, rfl⟩ := activeItem_statement hs
      exact ⟨i, d, hquote.mp ⟨happ, hguards⟩, hd, activeItem_id _ _ _ _, rfl⟩
  · simp only [History.currentItem]
    split
    · rename_i hbad
      have hnq : ¬Quotable request i := by
        intro hq
        obtain ⟨happ, hguards⟩ := hquote.mpr hq
        rcases hbad with hbad | hbad | hbad
        · have happ' : (Applicability.forDecision (contextOf request positions).task d).applicable = true :=
            happ
          rw [happ'] at hbad
          exact absurd hbad (by decide)
        · exact hbad (hv.competing_eq_nil hguards)
        · exact hbad hguards
      simp [hnq]
    · rename_i hgood
      simp only [not_or, not_not, Bool.not_eq_true, Bool.not_eq_false'] at hgood
      have hq : Quotable request i := hquote.mp ⟨hgood.1, hgood.2.2⟩
      simp [hq]

/-- One round of the loop over the ancestors. -/
theorem PassOk.ancestorStep {pass : Pass} (h : PassOk request positions pass)
    (hv : Validated request positions) {i : ℕ} {r : Relationship} {d : Decision}
    (hd : request.events[i]? = some d) :
    PassOk request positions (ancestorStep (contextOf request positions) pass (d, i, r)) := by
  have hi : i < request.events.length := (List.getElem?_eq_some_iff.mp hd).1
  refine ⟨(hv.dependencyGuardIds_spec hi h.memo).2, ?_, ?_⟩
  · intro item hitem
    rcases List.mem_append.mp hitem with hitem | hitem
    · exact h.required item hitem
    · obtain rfl := List.mem_singleton.mp hitem
      rfl
  · intro item hitem
    rcases List.mem_append.mp hitem with hitem | hitem
    · exact h.quotes item hitem
    · obtain rfl := List.mem_singleton.mp hitem
      intro s hs
      simp only [requiredItem] at hs ⊢
      split at hs
      · rename_i hactive
        obtain ⟨⟨happ, hguards⟩, rfl⟩ := activeDependencyItem_statement hs
        have hnot : ¬Superseded request d := fun hsup => hactive.2 (mem_supersededIds.mpr hsup)
        refine ⟨i, d, (hv.quotable_iff hd hnot h.memo).mp ⟨happ, hguards⟩, hd, ?_, rfl⟩
        rw [if_pos hactive]
        exact activeDependencyItem_id _ _ _
      · rw [ancestorItem_statement] at hs
        cases hs

theorem mem_decisionsAt {α : Type} {events : List Decision} {index : α → ℕ} {l : List α}
    {e : Decision × α} :
    e ∈ decisionsAt events index l ↔ e.2 ∈ l ∧ events[index e.2]? = some e.1 := by
  obtain ⟨d, a⟩ := e
  simp only [decisionsAt, List.mem_filterMap, Option.map_eq_some_iff, Prod.mk.injEq]
  constructor
  · rintro ⟨a', ha, d', hd, rfl, rfl⟩
    exact ⟨ha, hd⟩
  · rintro ⟨ha, hd⟩
    exact ⟨a, ha, d, hd, rfl, rfl⟩

/-- The whole first loop. -/
theorem PassOk.foldl_currentItem (hv : Validated request positions) {es : List (Decision × ℕ)}
    (hes : ∀ e ∈ es, request.events[e.2]? = some e.1 ∧ ¬Superseded request e.1) {pass : Pass}
    (h : PassOk request positions pass) :
    PassOk request positions (es.foldl (History.currentItem (contextOf request positions)) pass) ∧
      ∀ x, x ∈ (es.foldl (History.currentItem (contextOf request positions)) pass).guarded ↔
        x ∈ pass.guarded ∨ ∃ e ∈ es, ¬Quotable request e.2 ∧ x = e.1.id := by
  induction es generalizing pass with
  | nil => exact ⟨h, by simp⟩
  | cons e rest ih =>
    obtain ⟨hd, hnot⟩ := hes e List.mem_cons_self
    obtain ⟨hstep, hguarded⟩ := h.currentItem hv hd hnot
    obtain ⟨hrun, hrest⟩ := ih (fun e' he' => hes e' (List.mem_cons_of_mem e he')) hstep
    refine ⟨hrun, fun x => ?_⟩
    rw [List.foldl_cons, hrest x, hguarded x]
    simp only [List.mem_cons, exists_eq_or_imp, or_assoc]

/-- The whole second loop. -/
theorem PassOk.foldl_ancestorStep (hv : Validated request positions)
    {es : List (Decision × ℕ × Relationship)}
    (hes : ∀ e ∈ es, request.events[e.2.1]? = some e.1) {pass : Pass} (h : PassOk request positions pass) :
    PassOk request positions (es.foldl (History.ancestorStep (contextOf request positions)) pass) ∧
      (es.foldl (History.ancestorStep (contextOf request positions)) pass).guarded = pass.guarded := by
  induction es generalizing pass with
  | nil => exact ⟨h, rfl⟩
  | cons e rest ih =>
    have hstep := h.ancestorStep hv (r := e.2.2) (hes e List.mem_cons_self)
    exact ih (fun e' he' => hes e' (List.mem_cons_of_mem e he')) hstep

theorem Matching.not_superseded {i : ℕ} {d : Decision} (h : Matching request i)
    (hd : request.events[i]? = some d) : ¬Superseded request d := by
  obtain ⟨⟨e, he, -, -, hnot⟩, -⟩ := h
  obtain rfl := Option.some.inj (hd.symm.trans he)
  exact hnot

/-- Both loops: all items are required, a statement belongs to a quotable decision, and the guarded ids
are those of the matching decisions that are not quotable. -/
theorem Validated.passOf_spec (hv : Validated request positions) :
    PassOk request positions (passOf request positions) ∧
      ∀ x, x ∈ (passOf request positions).guarded ↔
        ∃ i d, Matching request i ∧ request.events[i]? = some d ∧ ¬Quotable request i ∧ x = d.id := by
  have hfirst : ∀ e ∈ decisionsAt request.events id (matchingOf request),
      request.events[e.2]? = some e.1 ∧ ¬Superseded request e.1 := by
    intro e he
    obtain ⟨hmem, hd⟩ := mem_decisionsAt.mp he
    exact ⟨hd, (mem_matchingOf.mp hmem).not_superseded hd⟩
  have hsecond : ∀ e ∈ decisionsAt request.events Prod.fst
      (ancestorsOf request.events positions (matchingOf request)), request.events[e.2.1]? = some e.1 :=
    fun e he => (mem_decisionsAt.mp he).2
  obtain ⟨hone, hguarded⟩ := passOk_start.foldl_currentItem hv hfirst
  obtain ⟨htwo, hkept⟩ := hone.foldl_ancestorStep hv hsecond
  refine ⟨htwo, fun x => ?_⟩
  rw [passOf, hkept, hguarded]
  simp only [List.not_mem_nil, false_or]
  constructor
  · rintro ⟨e, he, hnot, rfl⟩
    obtain ⟨hmem, hd⟩ := mem_decisionsAt.mp he
    exact ⟨e.2, e.1, mem_matchingOf.mp hmem, hd, hnot, rfl⟩
  · rintro ⟨i, d, hmatch, hd, hnot, rfl⟩
    exact ⟨(d, i), mem_decisionsAt.mpr ⟨mem_matchingOf.mpr hmatch, hd⟩, hnot, rfl⟩

/-! ## Statements that do not matter -/

/-- A decision without its statement. -/
def Decision.redact (d : Decision) : Decision := { d with statement := "" }

/-- Two requests that differ at most in the statements of decisions that are not quotable. -/
structure SameButUnquotable (request request' : Request) : Prop where
  stablePrefix : request'.stablePrefix = request.stablePrefix
  task : request'.task = request.task
  budgetTokens : request'.budgetTokens = request.budgetTokens
  redacted : request'.events.map Decision.redact = request.events.map Decision.redact
  quotable : ∀ i, Quotable request i → request'.events[i]? = request.events[i]?

section Same

variable {request' : Request} (hsame : SameButUnquotable request request')

theorem indicesWhere_redact (events : List Decision) (p : Decision → Bool) (hp : ∀ d, p d.redact = p d) :
    indicesWhere (events.map Decision.redact) p = indicesWhere events p := by
  simp [indicesWhere, List.zipIdx_map, List.filter_map, Function.comp_def, hp]

/-- Without a quoted statement an item does not read it. -/
theorem activeItem_redact {d : Decision} {a : Applicability} {competing guards : List String}
    (h : ¬(a.applicable = true ∧ competing = [] ∧ guards = [])) :
    activeItem d a competing guards = activeItem d.redact a competing guards := by
  unfold activeItem
  rw [if_neg h, if_neg h]
  rfl

theorem activeDependencyItem_redact {d : Decision} {a : Applicability} {guards : List String}
    (h : ¬(a.applicable = true ∧ guards = [])) :
    activeDependencyItem d a guards = activeDependencyItem d.redact a guards := by
  unfold activeDependencyItem
  rw [if_neg h, if_neg h]
  rfl

include hsame

theorem SameButUnquotable.length_eq : request'.events.length = request.events.length := by
  have hlen := congrArg List.length hsame.redacted
  simpa using hlen

/-- Whatever does not read the statement is the same at every index. -/
theorem SameButUnquotable.map_eq {β : Type} (f : Decision → β) (hf : ∀ d, f d.redact = f d) (i : ℕ) :
    (request'.events[i]?).map f = (request.events[i]?).map f := by
  have hi := congrArg (fun l : List Decision => (l[i]?).map f) hsame.redacted
  simpa [Function.comp_def, hf] using hi

theorem SameButUnquotable.elim_eq {β : Type} (f : Decision → β) (hf : ∀ d, f d.redact = f d) (b : β)
    (i : ℕ) : (request'.events[i]?).elim b f = (request.events[i]?).elim b f := by
  have hform : ∀ o : Option Decision, o.elim b f = (o.map f).getD b := by
    intro o
    cases o <;> rfl
  rw [hform, hform, hsame.map_eq f hf i]

theorem SameButUnquotable.indicesWhere_eq (p : Decision → Bool) (hp : ∀ d, p d.redact = p d) :
    indicesWhere request'.events p = indicesWhere request.events p := by
  rw [← indicesWhere_redact _ p hp, hsame.redacted, indicesWhere_redact _ p hp]

theorem SameButUnquotable.supersededIds_eq :
    supersededIds request'.events = supersededIds request.events := by
  have hflat : ∀ events : List Decision,
      (events.map Decision.redact).flatMap (·.supersedes) = events.flatMap (·.supersedes) := by
    intro events
    simp [List.flatMap_map, Decision.redact]
  rw [supersededIds, supersededIds, ← hflat, hsame.redacted, hflat]

theorem SameButUnquotable.matchingOf_eq : matchingOf request' = matchingOf request := by
  rw [matchingOf, matchingOf, hsame.supersededIds_eq, hsame.task]
  exact hsame.indicesWhere_eq _ fun _ => rfl

theorem SameButUnquotable.supersedesAt_eq : supersedesAt request'.events = supersedesAt request.events :=
  funext fun i => hsame.elim_eq _ (fun _ => rfl) _ i

theorem SameButUnquotable.dependsOnAt_eq : dependsOnAt request'.events = dependsOnAt request.events :=
  funext fun i => hsame.elim_eq _ (fun _ => rfl) _ i

theorem SameButUnquotable.actionsAt_eq : actionsAt request'.events = actionsAt request.events :=
  funext fun i => hsame.elim_eq _ (fun _ => rfl) _ i

theorem SameButUnquotable.idAt_eq : idAt request'.events = idAt request.events :=
  funext fun i => hsame.elim_eq _ (fun _ => rfl) _ i

theorem SameButUnquotable.supersessionSteps_eq :
    supersessionSteps request'.events positions = supersessionSteps request.events positions := by
  funext i
  rw [supersessionSteps, supersessionSteps, hsame.supersedesAt_eq]

theorem SameButUnquotable.dependencySteps_eq :
    dependencySteps request'.events positions = dependencySteps request.events positions := by
  funext i
  rw [dependencySteps, dependencySteps, hsame.dependsOnAt_eq]

theorem SameButUnquotable.ancestorsOf_eq (matching : List ℕ) :
    ancestorsOf request'.events positions matching = ancestorsOf request.events positions matching := by
  unfold ancestorsOf collectAncestors
  rw [hsame.length_eq, hsame.dependencySteps_eq, hsame.supersessionSteps_eq]

theorem SameButUnquotable.competingByIndex_eq (current : List ℕ) :
    competingByIndex request'.events positions current =
      competingByIndex request.events positions current := by
  unfold competingByIndex peersOf supersessionAncestors
  rw [hsame.length_eq, hsame.supersessionSteps_eq, hsame.actionsAt_eq, hsame.idAt_eq]

/-- Only the events of the context differ. -/
theorem SameButUnquotable.contextOf_eq :
    contextOf request' positions = { contextOf request positions with events := request'.events } := by
  have hcurrent : indicesWhere request'.events (isCurrent request'.task (supersededIds request'.events)) =
      indicesWhere request.events (isCurrent request.task (supersededIds request.events)) := by
    rw [hsame.supersededIds_eq, hsame.task]
    exact hsame.indicesWhere_eq _ fun _ => rfl
  unfold contextOf
  rw [hcurrent, hsame.supersededIds_eq, hsame.task, hsame.competingByIndex_eq]

theorem SameButUnquotable.guardSteps_eq :
    (contextOf request' positions).guardSteps = (contextOf request positions).guardSteps := by
  have hform : ∀ (o : Option Decision) (p : Decision → Bool), o.any p = (o.map p).getD false := by
    intro o p
    cases o <;> rfl
  have hany : ∀ i : ℕ, (request'.events[i]?).any
        (fun d => !(Applicability.forDecision request.task d).applicable) =
      (request.events[i]?).any fun d => !(Applicability.forDecision request.task d).applicable := by
    intro i
    rw [hform, hform, hsame.map_eq _ (fun _ => rfl) i]
  have hguards : ∀ r, (contextOf request' positions).guards r = (contextOf request positions).guards r := by
    intro r
    rw [hsame.contextOf_eq, Bool.eq_iff_iff]
    simp only [Context.guards, contextOf, decide_eq_true_eq, hany]
    exact decide_eq_true_iff.symm
  funext i
  have hdeps : dependsOnAt (contextOf request' positions).events i =
      dependsOnAt (contextOf request positions).events i := congrFun hsame.dependsOnAt_eq i
  rw [Context.guardSteps, Context.guardSteps, hdeps]
  simp only [hguards]
  rfl

theorem SameButUnquotable.dependencyGuardIds_eq (i : ℕ) (memo : Descent.Memo String) :
    dependencyGuardIds (contextOf request' positions) i memo =
      dependencyGuardIds (contextOf request positions) i memo := by
  unfold dependencyGuardIds
  rw [hsame.guardSteps_eq]
  exact congrArg (fun n => (Descent.gather _ n i memo)) hsame.length_eq

theorem SameButUnquotable.redact_eq {i : ℕ} {d d' : Decision} (hd : request.events[i]? = some d)
    (hd' : request'.events[i]? = some d') : d'.redact = d.redact := by
  have hi := hsame.map_eq Decision.redact (fun _ => rfl) i
  rw [hd, hd'] at hi
  exact Option.some.inj hi

theorem SameButUnquotable.guardsOf_eq :
    (contextOf request' positions).guardsOf = (contextOf request positions).guardsOf := by
  rw [hsame.contextOf_eq]
  rfl

theorem SameButUnquotable.competing_eq : (contextOf request' positions).competingByIndex =
    (contextOf request positions).competingByIndex := by
  rw [hsame.contextOf_eq]

theorem SameButUnquotable.forDecision_eq {i : ℕ} {d d' : Decision} (hd : request.events[i]? = some d)
    (hd' : request'.events[i]? = some d') :
    Applicability.forDecision (contextOf request' positions).task d' =
      Applicability.forDecision (contextOf request positions).task d := by
  have hred : Applicability.forDecision request'.task d'.redact =
      Applicability.forDecision request.task d.redact := by rw [hsame.redact_eq hd hd', hsame.task]
  exact hred

theorem SameButUnquotable.id_eq {i : ℕ} {d d' : Decision} (hd : request.events[i]? = some d)
    (hd' : request'.events[i]? = some d') : d'.id = d.id := by
  have hred : d'.redact.id = d.redact.id := by rw [hsame.redact_eq hd hd']
  exact hred

/-- One round of the first loop gives the same for both requests. -/
theorem SameButUnquotable.currentItem_eq {pass : Pass} (h : PassOk request positions pass)
    (hv : Validated request positions) {i : ℕ} {d d' : Decision} (hd : request.events[i]? = some d)
    (hd' : request'.events[i]? = some d') (hnot : ¬Superseded request d) :
    currentItem (contextOf request' positions) pass (d', i) =
      currentItem (contextOf request positions) pass (d, i) := by
  have hcontent : ∀ competing, activeItem d' (Applicability.forDecision (contextOf request positions).task d)
        competing ((contextOf request positions).guardsOf i
          (dependencyGuardIds (contextOf request positions) i pass.memo).1) =
      activeItem d (Applicability.forDecision (contextOf request positions).task d) competing
        ((contextOf request positions).guardsOf i
          (dependencyGuardIds (contextOf request positions) i pass.memo).1) := by
    intro competing
    by_cases hq : Quotable request i
    · obtain rfl := Option.some.inj (hd'.symm.trans ((hsame.quotable i hq).trans hd))
      rfl
    · -- without a quotation only the redacted decision counts
      have hnq : ¬((Applicability.forDecision (contextOf request positions).task d).applicable = true ∧
          competing = [] ∧ (contextOf request positions).guardsOf i
            (dependencyGuardIds (contextOf request positions) i pass.memo).1 = []) :=
        fun hgood => hq ((hv.quotable_iff hd hnot h.memo).mp ⟨hgood.1, hgood.2.2⟩)
      rw [activeItem_redact hnq, hsame.redact_eq hd hd']
      exact (activeItem_redact hnq).symm
  simp only [currentItem, hsame.forDecision_eq hd hd', hsame.competing_eq, hsame.guardsOf_eq,
    hsame.dependencyGuardIds_eq, hsame.id_eq hd hd', hcontent]

/-- One round of the second loop gives the same for both requests. -/
theorem SameButUnquotable.ancestorStep_eq {pass : Pass} (h : PassOk request positions pass)
    (hv : Validated request positions) {i : ℕ} {r : Relationship} {d d' : Decision}
    (hd : request.events[i]? = some d) (hd' : request'.events[i]? = some d') :
    ancestorStep (contextOf request' positions) pass (d', i, r) =
      ancestorStep (contextOf request positions) pass (d, i, r) := by
  have hsuperseded : (contextOf request' positions).superseded = (contextOf request positions).superseded := by
    rw [hsame.contextOf_eq]
  have hsummary : ancestorItem d' r = ancestorItem d r := by
    have hred : ancestorItem d'.redact r = ancestorItem d.redact r := by rw [hsame.redact_eq hd hd']
    exact hred
  have hcontent : d.id ∉ (contextOf request positions).superseded →
      activeDependencyItem d' (Applicability.forDecision (contextOf request positions).task d)
        ((contextOf request positions).guardsOf i
          (dependencyGuardIds (contextOf request positions) i pass.memo).1) =
      activeDependencyItem d (Applicability.forDecision (contextOf request positions).task d)
        ((contextOf request positions).guardsOf i
          (dependencyGuardIds (contextOf request positions) i pass.memo).1) := by
    intro hid
    have hnot : ¬Superseded request d := fun hsup => hid (mem_supersededIds.mpr hsup)
    by_cases hq : Quotable request i
    · obtain rfl := Option.some.inj (hd'.symm.trans ((hsame.quotable i hq).trans hd))
      rfl
    · have hnq : ¬((Applicability.forDecision (contextOf request positions).task d).applicable = true ∧
          (contextOf request positions).guardsOf i
            (dependencyGuardIds (contextOf request positions) i pass.memo).1 = []) :=
        fun hgood => hq ((hv.quotable_iff hd hnot h.memo).mp hgood)
      rw [activeDependencyItem_redact hnq, hsame.redact_eq hd hd']
      exact (activeDependencyItem_redact hnq).symm
  have hitem : (if r = .dependency ∧ d.id ∉ (contextOf request positions).superseded then
        activeDependencyItem d' (Applicability.forDecision (contextOf request positions).task d)
          ((contextOf request positions).guardsOf i
            (dependencyGuardIds (contextOf request positions) i pass.memo).1)
      else ancestorItem d' r) =
      if r = .dependency ∧ d.id ∉ (contextOf request positions).superseded then
        activeDependencyItem d (Applicability.forDecision (contextOf request positions).task d)
          ((contextOf request positions).guardsOf i
            (dependencyGuardIds (contextOf request positions) i pass.memo).1)
      else ancestorItem d r := by
    split
    · rename_i hactive
      exact hcontent hactive.2
    · exact hsummary
  simp only [ancestorStep, hsame.forDecision_eq hd hd', hsame.guardsOf_eq, hsame.dependencyGuardIds_eq,
    hsame.id_eq hd hd', hsuperseded, hitem]

/-- A loop over decisions at indices does the same for both requests when each round does. -/
theorem SameButUnquotable.foldl_decisionsAt {α : Type} (index : α → ℕ) (l : List α)
    (f f' : Pass → Decision × α → Pass) (inv : Pass → Prop)
    (hstep : ∀ pass a d d', a ∈ l → inv pass → request.events[index a]? = some d →
      request'.events[index a]? = some d' → f' pass (d', a) = f pass (d, a) ∧ inv (f pass (d, a)))
    {pass : Pass} (hpass : inv pass) :
    (decisionsAt request'.events index l).foldl f' pass =
      (decisionsAt request.events index l).foldl f pass := by
  induction l generalizing pass with
  | nil => rfl
  | cons a rest ih =>
    have hrest := fun pass b d d' hb => hstep pass b d d' (List.mem_cons_of_mem a hb)
    rcases hd : request.events[index a]? with _ | d
    · have hd' : request'.events[index a]? = none := by
        rw [List.getElem?_eq_none_iff] at hd ⊢
        exact hsame.length_eq ▸ hd
      simp only [decisionsAt, List.filterMap_cons, hd, hd', Option.map_none]
      exact ih hrest hpass
    · have hlt := (List.getElem?_eq_some_iff.mp hd).1
      obtain ⟨d', hd'⟩ : ∃ d', request'.events[index a]? = some d' :=
        ⟨_, List.getElem?_eq_getElem (hsame.length_eq ▸ hlt)⟩
      obtain ⟨heq, hnext⟩ := hstep pass a d d' List.mem_cons_self hpass hd hd'
      simp only [decisionsAt, List.filterMap_cons, hd, hd', Option.map_some, List.foldl_cons, heq]
      exact ih hrest hnext

/-- Both requests give the same items. -/
theorem SameButUnquotable.passOf_eq (hv : Validated request positions) :
    passOf request' positions = passOf request positions := by
  have hfirst := hsame.foldl_decisionsAt id (matchingOf request)
    (currentItem (contextOf request positions)) (currentItem (contextOf request' positions))
    (PassOk request positions) (fun pass i d d' hi hpass hd hd' => by
      have hnot := (mem_matchingOf.mp hi).not_superseded hd
      exact ⟨hsame.currentItem_eq hpass hv hd hd' hnot, (hpass.currentItem hv hd hnot).1⟩) passOk_start
  have hone : PassOk request positions ((decisionsAt request.events id (matchingOf request)).foldl
      (currentItem (contextOf request positions)) ⟨[], [], ∅⟩) := by
    refine (passOk_start.foldl_currentItem hv fun e he => ?_).1
    obtain ⟨hmem, hd⟩ := mem_decisionsAt.mp he
    exact ⟨hd, (mem_matchingOf.mp hmem).not_superseded hd⟩
  have hsecond := hsame.foldl_decisionsAt Prod.fst
    (ancestorsOf request.events positions (matchingOf request))
    (ancestorStep (contextOf request positions)) (ancestorStep (contextOf request' positions))
    (PassOk request positions) (fun pass a d d' _ hpass hd hd' =>
      ⟨hsame.ancestorStep_eq hpass hv hd hd', hpass.ancestorStep hv hd⟩) hone
  rw [passOf, passOf, hsame.matchingOf_eq, hsame.ancestorsOf_eq, hfirst, hsecond]

theorem SameButUnquotable.positions_eq {positions' : SortedMap String ℕ}
    (hv : Validated request positions) (hv' : Validated request' positions') : positions' = positions := by
  refine SortedMap.ext_get? fun s => Option.ext fun i => ?_
  have hid := hsame.map_eq (·.id) (fun _ => rfl) i
  have hform : ∀ o : Option Decision, (∃ d, o = some d ∧ d.id = s) ↔ o.map (·.id) = some s := by
    simp
  rw [hv.position_iff, hv'.position_iff, hform, hform, hid]

end Same

/-! ## The packet -/

/-- The contents of the items of a packet. -/
def packetContents (packet : Value) : List Value :=
  (((packet.get? "items").bind Value.asArray?).getD []).filterMap (·.get? "content")

/-- Rounding the floats of a content does not touch its statement. -/
theorem QuotesOnly.mapFloats {content : Value} (h : QuotesOnly request content) (f : UInt64 → UInt64) :
    QuotesOnly request (content.mapFloats f) := by
  intro s hs
  rw [Value.get?_mapFloats, Option.map_eq_some_iff] at hs
  obtain ⟨s', hs', rfl⟩ := hs
  obtain ⟨i, d, hq, hd, hid, rfl⟩ := h s' hs'
  refine ⟨i, d, hq, hd, ?_, Value.mapFloats_string f d.statement⟩
  rw [Value.get?_mapFloats, hid, Option.map_some, Value.mapFloats_string]

/-- The contents of a packet of the given items. -/
theorem packetContents_packet (f : UInt64 → UInt64) (request : Middleware.Request) (items : List Item) :
    packetContents ((Value.mkObject (packetFields Value.mkObject request items)).mapFloats f) =
      items.map fun item => item.content.mapFloats f := by
  have hitems : (Value.mkObject (packetFields Value.mkObject request items)).get? "items" =
      some (.array (items.map fun item =>
        Value.mkObject [("id", .string item.id), ("content", item.content)])) := by
    simp [Value.get?_mkObject, packetFields, Assoc.get?]
  have hcontent : ∀ item : Item,
      (Value.mkObject [("id", .string item.id), ("content", item.content)]).get? "content" =
        some item.content := by
    intro item
    simp [Value.get?_mkObject, Assoc.get?]
  rw [packetContents, Value.get?_mapFloats, hitems, Option.map_some, Value.mapFloats_array]
  simp only [Option.bind_some, Value.asArray?, Option.getD_some, List.filterMap_map, List.map_map,
    Function.comp_def, Value.get?_mapFloats, hcontent, Option.map_some]
  exact congrFun List.filterMap_eq_map' items

/-- The steps of a successful `prepare`. -/
theorem prepare_ok {P : Platform} {prepared : PreparedHistory} (h : prepare P request = .ok prepared) :
    ∃ positions inner, validate request = .ok positions ∧
      Middleware.prepare P (packetRequest request positions) = .ok inner ∧ prepared.prepared = inner ∧
      prepared.guardedDecisionIds = (passOf request positions).guarded ∧
      prepared.competingDecisionIds = competingIds request positions ∧
      prepared.resolution = if competingIds request positions ≠ [] then .unknownConflict
        else if (passOf request positions).guarded ≠ [] then .unknown else .prepared := by
  simp only [prepare, bind_eq_ok] at h
  obtain ⟨positions, hvalid, _, -, _, -, before, -, inner, hinner, h⟩ := h
  obtain rfl := Except.ok.inj h
  exact ⟨positions, inner, hvalid, mapError_eq_ok.mp hinner, rfl, rfl, rfl, rfl⟩

/-- The packet of a successful `prepare` holds the items of both loops. -/
theorem prepare_packet {P : Platform} {positions : SortedMap String ℕ} (hv : Validated request positions)
    {inner : Prepared} (h : Middleware.prepare P (packetRequest request positions) = .ok inner) :
    inner.packet = (Value.mkObject (packetFields Value.mkObject (packetRequest request positions)
        (passOf request positions).items)).mapFloats P.reparseFloat ∧
      inner.packetJson = structText P.floatText
        (packetFields .object (packetRequest request positions) (passOf request positions).items) :=
  prepare_of_required P h hv.passOf_spec.1.required

/-- A matching decision competes iff some id is listed as competing. -/
theorem Validated.competingIds_eq_nil (hv : Validated request positions) :
    competingIds request positions = [] ↔ ∀ i, Matching request i → ¬∃ j, Peers request i j := by
  have hnil : competingIds request positions = [] ↔ ∀ i ∈ matchingOf request,
      ((contextOf request positions).competingByIndex.get? i).getD [] = [] := by
    rw [competingIds, List.eq_nil_iff_forall_not_mem]
    simp only [← SortedSet.mem_def, SortedSet.mem_ofList, List.mem_flatMap, not_exists, not_and,
      List.eq_nil_iff_forall_not_mem]
    exact forall_comm.trans (forall_congr' fun i => forall_comm)
  rw [hnil]
  refine forall_congr' fun i => imp_congr mem_matchingOf ?_
  rw [← hv.competing_iff]
  rcases hget : (contextOf request positions).competingByIndex.get? i with _ | peers
  · simp
  · simp [competing_ne_nil hget]

/-- What a prepared packet quotes and what it reports. -/
theorem prepare_quotes (P : Platform) (request : Request) (prepared : PreparedHistory)
    (h : prepare P request = .ok prepared) :
    (∀ content ∈ packetContents prepared.prepared.packet, QuotesOnly request content) ∧
    (∀ request' prepared', SameButUnquotable request request' → prepare P request' = .ok prepared' →
      prepared'.prepared.packet = prepared.prepared.packet ∧
        prepared'.prepared.packetJson = prepared.prepared.packetJson) ∧
    (∀ i d, Matching request i → request.events[i]? = some d →
      (d.id ∈ prepared.guardedDecisionIds ↔ ¬Quotable request i)) ∧
    (prepared.resolution = .prepared ↔
      prepared.guardedDecisionIds = [] ∧ prepared.competingDecisionIds = []) ∧
    (prepared.resolution = .prepared ↔ ∀ i, Matching request i → Quotable request i) := by
  obtain ⟨positions, inner, hvalid, hinner, rfl, hguarded, hcompeting, hresolution⟩ := prepare_ok h
  have hv := validated_of_ok hvalid
  obtain ⟨hpass, hmem⟩ := hv.passOf_spec
  obtain ⟨hpacket, hjson⟩ := prepare_packet hv hinner
  have hresolved : prepared.resolution = .prepared ↔
      prepared.guardedDecisionIds = [] ∧ prepared.competingDecisionIds = [] := by
    rw [hresolution, hguarded, hcompeting]
    split_ifs with hc hg <;> simp_all
  have hlisted : ∀ i d, Matching request i → request.events[i]? = some d →
      (d.id ∈ prepared.guardedDecisionIds ↔ ¬Quotable request i) := by
    intro i d hi hd
    rw [hguarded, hmem]
    constructor
    · rintro ⟨j, e, -, he, hnot, hid⟩
      have hij : i = j := by rw [← hv.position_eq hd, ← hv.position_eq he, hid]
      exact hij ▸ hnot
    · exact fun hnot => ⟨i, d, hi, hd, hnot, rfl⟩
  refine ⟨?_, ?_, hlisted, hresolved, ?_⟩
  · intro content hcontent
    rw [hpacket, packetContents_packet] at hcontent
    obtain ⟨item, hitem, rfl⟩ := List.mem_map.mp hcontent
    exact (hpass.quotes item hitem).mapFloats P.reparseFloat
  · intro request' prepared' hsame h'
    obtain ⟨positions', inner', hvalid', hinner', rfl, -⟩ := prepare_ok h'
    obtain rfl := hsame.positions_eq hv (validated_of_ok hvalid')
    obtain ⟨hpacket', hjson'⟩ := prepare_packet (validated_of_ok hvalid') hinner'
    have hpasses := hsame.passOf_eq hv
    have hfields : ∀ render, packetFields render (packetRequest request' positions')
          (passOf request' positions').items =
        packetFields render (packetRequest request positions') (passOf request positions').items := by
      intro render
      simp only [packetFields, packetRequest, hpasses, hsame.stablePrefix, hsame.task]
    rw [hpacket', hjson', hpacket, hjson, hfields, hfields]
    exact ⟨rfl, rfl⟩
  · rw [hresolved, hguarded, hcompeting, hv.competingIds_eq_nil]
    constructor
    · rintro ⟨hnone, -⟩ i hi
      by_contra hnot
      obtain ⟨d, hd, -⟩ := hi.1
      have hin := (hmem d.id).mpr ⟨i, d, hi, hd, hnot, rfl⟩
      rw [hnone] at hin
      exact List.not_mem_nil hin
    · intro hall
      refine ⟨List.eq_nil_iff_forall_not_mem.mpr fun x hx => ?_, fun i hi => ?_⟩
      · obtain ⟨i, d, hi, -, hnot, -⟩ := (hmem x).mp hx
        exact hnot (hall i hi)
      · obtain ⟨⟨d, hsound⟩, -⟩ := hall i hi
        exact hsound.no_peer

/-! ## A replacement that does not apply -/

/-- A platform without a tokenizer: every text costs nothing. -/
def freePlatform : Platform where
  floatText := fun _ => "0.0"
  reparseFloat := id
  sha256Hex := fun _ => ""
  tokensText := fun _ => .ok 0

/-- A decision of one task and action without conditions or references. -/
def plainDecision (id observedAt : String) : Decision where
  id := id
  project := "innen"
  taskId := "maintenance"
  actions := ["clean"]
  statement := id ++ " statement"
  rationale := id ++ " rationale"
  conditions := ∅
  sources := [⟨id, String.ofList (List.replicate 64 'a'), none⟩]
  supersedes := []
  dependsOn := []
  lessons := [id ++ " lesson"]
  reopenWhen := []
  observedAt := observedAt

/-- A decision and its replacement, which asks for a condition the task does not state. -/
def replacedRequest : Request where
  stablePrefix := .null
  task := ⟨"maintenance", "innen", "clean", .active, ∅⟩
  budgetTokens := 10000
  events := [plainDecision "old" "2026-09-08T09:00:00Z",
    { plainDecision "current" "2026-09-08T10:00:00Z" with
      supersedes := ["old"]
      conditions := (∅ : SortedMap String String).insert "os" "linux" }]

theorem replacedRequest_prepared :
    ∃ prepared, prepare freePlatform replacedRequest = .ok prepared ∧
      prepared.guardedDecisionIds = ["current"] := by
  have hrun : (prepare freePlatform replacedRequest).toOption.map (·.guardedDecisionIds) =
      some ["current"] := by decide +kernel
  rcases h : prepare freePlatform replacedRequest with e | prepared
  · rw [h] at hrun
    cases hrun
  · rw [h] at hrun
    exact ⟨prepared, rfl, Option.some.inj hrun⟩

/-- The replacement is guarded, and no statement is quoted in its place. -/
theorem prepare_quotes_replaced : ∃ prepared, prepare freePlatform replacedRequest = .ok prepared ∧
    prepared.guardedDecisionIds = ["current"] ∧ prepared.resolution ≠ .prepared ∧
    ∀ content ∈ packetContents prepared.prepared.packet, QuotesOnly replacedRequest content := by
  obtain ⟨prepared, hok, hguarded⟩ := replacedRequest_prepared
  obtain ⟨hquotes, -, -, hresolved, -⟩ := prepare_quotes freePlatform replacedRequest prepared hok
  refine ⟨prepared, hok, hguarded, fun heq => ?_, hquotes⟩
  have hnone := (hresolved.mp heq).1
  rw [hguarded] at hnone
  cases hnone

end Innen.Middleware.History
