import Innen.Middleware.History.Model

/-!
# What a history packet may quote

A decision of a validated request is quotable when nothing supersedes it, the task meets its conditions,
no current decision competes with it, and the same holds of every decision it transitively depends on.
The packet carries the statement of quotable decisions only, and replacing the statements of all others
leaves it as it is.
-/

namespace Innen.Middleware.History

open Innen.Common Relation

/-! ## The purpose, in terms of the events -/

section Purpose

variable (request : Request)

/-- Some decision supersedes `d`. -/
def Superseded (d : Decision) : Prop := ∃ e ∈ request.events, d.id ∈ e.supersedes

/-- The task meets every condition of `d`. -/
def Applicable (d : Decision) : Prop :=
  ∀ key expected, d.conditions.get? key = some expected →
    request.task.conditions.get? key = some expected

/-- The decision at `i` names the one at `j` in the list `refs`. -/
def Refers (refs : Decision → List String) (i j : ℕ) : Prop :=
  ∃ d e, request.events[i]? = some d ∧ request.events[j]? = some e ∧ e.id ∈ refs d

/-- The decision at `i` belongs to the task and nothing supersedes it. -/
def Current (i : ℕ) : Prop :=
  ∃ d, request.events[i]? = some d ∧ d.project = request.task.project ∧ d.taskId = request.task.id ∧
    ¬Superseded request d

/-- The decision at `i` is current and concerns the action of the task. -/
def Matching (i : ℕ) : Prop :=
  Current request i ∧ ∃ d, request.events[i]? = some d ∧ request.task.action ∈ d.actions

/-- Two current decisions that share an action and, through supersession, an ancestor. -/
def Peers (i j : ℕ) : Prop :=
  i ≠ j ∧ Current request i ∧ Current request j ∧
    (∃ d e, request.events[i]? = some d ∧ request.events[j]? = some e ∧
      ∃ action ∈ d.actions, action ∈ e.actions) ∧
    ∃ a, TransGen (Refers request (·.supersedes)) i a ∧ TransGen (Refers request (·.supersedes)) j a

/-- Nothing stands against the decision at `i` itself. -/
structure Sound (i : ℕ) (d : Decision) : Prop where
  there : request.events[i]? = some d
  not_superseded : ¬Superseded request d
  applicable : Applicable request d
  no_peer : ¬∃ j, Peers request i j

/-- Nothing stands against the decision at `i` and against anything it depends on. -/
def Quotable (i : ℕ) : Prop :=
  (∃ d, Sound request i d) ∧
    ∀ j, TransGen (Refers request (·.dependsOn)) i j → ∃ d, Sound request j d

end Purpose

/-! ## Validated requests -/

/-- What validation establishes: ids and positions match, and references point backwards. -/
structure Validated (request : Request) (positions : SortedMap String ℕ) : Prop where
  position_iff : ∀ s i, positions.get? s = some i ↔ ∃ d, request.events[i]? = some d ∧ d.id = s
  backward : ∀ i d, request.events[i]? = some d → ∀ r ∈ d.supersedes ++ d.dependsOn,
    ∃ j, positions.get? r = some j ∧ j < i

theorem scan_positions {es : List (Decision × ℕ)} {scan scan' : Scan}
    (h : es.foldlM scanDecision scan = .ok scan') (s : String) (i : ℕ) :
    scan'.positions.get? s = some i ↔ scan.positions.get? s = some i ∨ ∃ d, (d, i) ∈ es ∧ d.id = s := by
  induction es generalizing scan with
  | nil =>
    obtain rfl := Except.ok.inj h
    simp
  | cons e rest ih =>
    rw [List.foldlM_cons, bind_eq_ok] at h
    obtain ⟨next, hnext, hrest⟩ := h
    rw [ih hrest]
    unfold scanDecision at hnext
    split_ifs at hnext with _ _ _ hfresh
    obtain rfl := Except.ok.inj hnext
    obtain ⟨d, index⟩ := e
    rw [Option.not_isSome_iff_eq_none] at hfresh
    simp only [SortedMap.get?_insert, List.mem_cons, Prod.mk.injEq]
    by_cases hs : s = d.id
    · subst hs
      simp only [if_pos, hfresh, Option.some.injEq, reduceCtorEq, false_or]
      constructor
      · rintro (rfl | ⟨d', hmem, hid⟩)
        · exact ⟨d, .inl ⟨rfl, rfl⟩, rfl⟩
        · exact ⟨d', .inr hmem, hid⟩
      · rintro ⟨d', ⟨rfl, rfl⟩ | hmem, hid⟩
        · exact .inl rfl
        · exact .inr ⟨d', hmem, hid⟩
    · simp only [if_neg hs]
      refine or_congr_right ⟨fun ⟨d', hmem, hid⟩ => ⟨d', .inr hmem, hid⟩, ?_⟩
      rintro ⟨d', ⟨rfl, rfl⟩ | hmem, hid⟩
      · exact absurd hid.symm hs
      · exact ⟨d', hmem, hid⟩

theorem checkReference_known {events : List Decision} {positions : SortedMap String ℕ} {index : ℕ}
    {d : Decision} {kind : Relationship} {unique unique' : SortedSet String} {reference : String}
    (h : checkReference events positions index d kind unique reference = .ok unique') :
    ∃ j, positions.get? reference = some j ∧ j < index := by
  unfold checkReference at h
  split at h
  · cases h
  · split at h
    · cases h
    · rename_i other hother
      split at h
      · cases h
      · exact ⟨other, hother, by omega⟩

theorem validated_of_ok {request : Request} {positions : SortedMap String ℕ}
    (h : validate request = .ok positions) : Validated request positions := by
  simp only [validate, bind_eq_ok] at h
  obtain ⟨_, -, _, -, scan, hscan, _, hrefs, hpositions⟩ := h
  obtain rfl := Except.ok.inj hpositions
  refine ⟨fun s i => ?_, fun i d hd r hr => ?_⟩
  · rw [scan_positions hscan]
    simp [List.mem_zipIdx_iff_getElem?, SortedMap.get?_empty]
  · have hmem : (d, i) ∈ request.events.zipIdx := List.mem_zipIdx_iff_getElem?.mpr hd
    obtain ⟨_, _, hcheck⟩ := foldlM_ok_mem hrefs hmem
    simp only [checkReferences, bind_eq_ok] at hcheck
    obtain ⟨_, hsup, _, hdep, -⟩ := hcheck
    rcases List.mem_append.mp hr with hr | hr
    · obtain ⟨_, _, hone⟩ := foldlM_ok_mem hsup hr
      exact checkReference_known hone
    · obtain ⟨_, _, hone⟩ := foldlM_ok_mem hdep hr
      exact checkReference_known hone

section Passes

variable {request : Request} {positions : SortedMap String ℕ}

/-- The position of an event's id is its index. -/
theorem Validated.position_eq (hv : Validated request positions) {j : ℕ} {e : Decision}
    (he : request.events[j]? = some e) : position positions e.id = j := by
  have hget := (hv.position_iff e.id j).mpr ⟨e, he, rfl⟩
  rw [position, hget]
  rfl

/-- A reference resolves to an earlier event. -/
theorem Validated.resolve (hv : Validated request positions) {i : ℕ} {d : Decision}
    (hd : request.events[i]? = some d) {r : String} (hr : r ∈ d.supersedes ++ d.dependsOn) :
    position positions r < i ∧ ∃ e, request.events[position positions r]? = some e ∧ e.id = r := by
  obtain ⟨j, hj, hlt⟩ := hv.backward i d hd r hr
  have hpos : position positions r = j := by
    rw [position, hj]
    rfl
  rw [hpos]
  exact ⟨hlt, (hv.position_iff r j).mp hj⟩

/-- A list of references of one kind, resolved, is the relation of that kind. -/
theorem Validated.refers_iff (hv : Validated request positions) {refs : Decision → List String}
    (hrefs : ∀ d, ∀ r ∈ refs d, r ∈ d.supersedes ++ d.dependsOn) {i j : ℕ} :
    (∃ r ∈ (request.events[i]?).elim [] refs, position positions r = j) ↔ Refers request refs i j := by
  constructor
  · rintro ⟨r, hr, rfl⟩
    rcases hd : request.events[i]? with _ | d
    · rw [hd] at hr
      exact absurd hr List.not_mem_nil
    · rw [hd] at hr
      obtain ⟨-, e, he, rfl⟩ := hv.resolve hd (hrefs d r hr)
      exact ⟨d, e, hd, he, hr⟩
  · rintro ⟨d, e, hd, he, hmem⟩
    refine ⟨e.id, ?_, hv.position_eq he⟩
    rw [hd]
    exact hmem

theorem Validated.position_lt (hv : Validated request positions) {refs : Decision → List String}
    (hrefs : ∀ d, ∀ r ∈ refs d, r ∈ d.supersedes ++ d.dependsOn) {i : ℕ} {r : String}
    (hr : r ∈ (request.events[i]?).elim [] refs) : position positions r < i := by
  rcases hd : request.events[i]? with _ | d
  · rw [hd] at hr
    exact absurd hr List.not_mem_nil
  · rw [hd] at hr
    exact (hv.resolve hd (hrefs d r hr)).1

theorem mem_supersedes {d : Decision} : ∀ r ∈ d.supersedes, r ∈ d.supersedes ++ d.dependsOn :=
  fun _ h => List.mem_append_left _ h

theorem mem_dependsOn {d : Decision} : ∀ r ∈ d.dependsOn, r ∈ d.supersedes ++ d.dependsOn :=
  fun _ h => List.mem_append_right _ h

/-! ## Supersession and applicability -/

theorem mem_supersededIds {s : String} :
    s ∈ supersededIds request.events ↔ ∃ e ∈ request.events, s ∈ e.supersedes := by
  simp [supersededIds]

theorem mem_indicesWhere {events : List Decision} {p : Decision → Bool} {i : ℕ} :
    i ∈ indicesWhere events p ↔ ∃ d, events[i]? = some d ∧ p d = true := by
  simp only [indicesWhere, List.mem_map, List.mem_filter, Prod.exists, List.mem_zipIdx_iff_getElem?]
  constructor
  · rintro ⟨d, j, ⟨hget, hp⟩, rfl⟩
    exact ⟨d, hget, hp⟩
  · rintro ⟨d, hget, hp⟩
    exact ⟨d, i, ⟨hget, hp⟩, rfl⟩

theorem mem_current {i : ℕ} :
    i ∈ indicesWhere request.events (isCurrent request.task (supersededIds request.events)) ↔
      Current request i := by
  simp only [mem_indicesWhere, isCurrent, mem_supersededIds, decide_eq_true_eq]
  rfl

theorem mem_matchingOf {i : ℕ} : i ∈ matchingOf request ↔ Matching request i := by
  simp only [matchingOf, mem_indicesWhere, isMatching, mem_supersededIds, decide_eq_true_eq]
  constructor
  · rintro ⟨d, hd, hproject, htask, haction, hsuper⟩
    exact ⟨⟨d, hd, hproject, htask, hsuper⟩, d, hd, haction⟩
  · rintro ⟨⟨d, hd, hproject, htask, hsuper⟩, d', hd', haction⟩
    obtain rfl := Option.some.inj (hd.symm.trans hd')
    exact ⟨d, hd, hproject, htask, haction, hsuper⟩

theorem applicable_foldl {task : Task} {es : List (String × String)} {a : Applicability} :
    (es.foldl (Applicability.check task) a).applicable = true ↔
      a.applicable = true ∧ ∀ e ∈ es, task.conditions.get? e.1 = some e.2 := by
  induction es generalizing a with
  | nil => simp
  | cons e rest ih =>
    have hcheck : (Applicability.check task a e).applicable = true ↔
        a.applicable = true ∧ task.conditions.get? e.1 = some e.2 := by
      unfold Applicability.check
      rcases hget : task.conditions.get? e.1 with _ | actual
      · simp [Applicability.applicable]
      · have hne : a.mismatched.insert e.1 actual ≠ ∅ := by
          intro heq
          have hlook := congrArg (SortedMap.get? · e.1) heq
          simp at hlook
        by_cases h : actual = e.2
        · simp [h]
        · simp [h, hne, Applicability.applicable]
    rw [List.foldl_cons, ih, hcheck]
    simp [and_assoc]

/-- The computed applicability is the meaning of the conditions. -/
theorem applicable_iff {d : Decision} :
    (Applicability.forDecision request.task d).applicable = true ↔ Applicable request d := by
  rw [Applicability.forDecision, applicable_foldl]
  have hstart : (⟨[], ∅⟩ : Applicability).applicable = true := by simp [Applicability.applicable]
  simp only [hstart, true_and, Prod.forall, SortedMap.mem_entries_iff]
  rfl

/-! ## Competition -/

theorem Validated.supersession_step (hv : Validated request positions) :
    Descent.Step (supersessionSteps request.events positions) = Refers request (·.supersedes) := by
  funext i j
  rw [← hv.refers_iff fun d => mem_supersedes]
  simp [Descent.Step, supersessionSteps, supersedesAt]

theorem Validated.mem_supersessionAncestors (hv : Validated request positions) {i a : ℕ}
    (hi : i < request.events.length) :
    a ∈ supersessionAncestors i request.events positions ↔
      TransGen (Refers request (·.supersedes)) i a := by
  have hback : Descent.Backward (supersessionSteps request.events positions) := by
    intro i e he
    obtain ⟨r, hr, rfl⟩ := List.mem_map.mp he
    exact hv.position_lt (fun d => mem_supersedes) hr
  rw [supersessionAncestors, Descent.mem_visit hback hi.le, hv.supersession_step]

theorem Current.lt_length {i : ℕ} (h : Current request i) : i < request.events.length := by
  obtain ⟨d, hd, -⟩ := h
  exact (List.getElem?_eq_some_iff.mp hd).1

theorem share_action_iff {i j : ℕ} :
    (∃ action ∈ actionsAt request.events i, action ∈ actionsAt request.events j) ↔
      ∃ d e, request.events[i]? = some d ∧ request.events[j]? = some e ∧
        ∃ action ∈ d.actions, action ∈ e.actions := by
  unfold actionsAt
  rcases request.events[i]? with _ | d <;> rcases request.events[j]? with _ | e <;> simp

theorem Validated.mem_peersOf (hv : Validated request positions) {i j : ℕ} (hi : Current request i) :
    j ∈ peersOf request.events
        (SortedMap.tabulate (fun index => some (supersessionAncestors index request.events positions))
          (indicesWhere request.events (isCurrent request.task (supersededIds request.events))))
        (indicesWhere request.events (isCurrent request.task (supersededIds request.events))) i ↔
      Peers request i j := by
  have hset : ∀ k, Current request k → ∀ a,
      a ∈ ((SortedMap.tabulate (fun index => some (supersessionAncestors index request.events positions))
        (indicesWhere request.events (isCurrent request.task (supersededIds request.events)))).get? k).getD ∅
      ↔ TransGen (Refers request (·.supersedes)) k a := by
    intro k hk a
    rw [SortedMap.get?_tabulate, if_pos (mem_current.mpr hk), Option.getD_some,
      hv.mem_supersessionAncestors hk.lt_length]
  simp only [peersOf, List.mem_filter, mem_current, decide_eq_true_eq, share_action_iff]
  constructor
  · rintro ⟨hj, hne, hshare, a, hia, hja⟩
    exact ⟨hne.symm, hi, hj, hshare, a, (hset i hi a).mp hia, (hset j hj a).mp hja⟩
  · rintro ⟨hne, -, hj, hshare, a, hia, hja⟩
    exact ⟨hj, hne.symm, hshare, a, (hset i hi a).mpr hia, (hset j hj a).mpr hja⟩

/-- A decision has an entry in the table of competition iff it has a peer. -/
theorem Validated.competing_iff (hv : Validated request positions) {i : ℕ} :
    ((contextOf request positions).competingByIndex.get? i).isSome ↔ ∃ j, Peers request i j := by
  simp only [contextOf, competingByIndex, SortedMap.get?_tabulate]
  by_cases hi : Current request i
  · rw [if_pos (mem_current.mpr hi), ← not_iff_not]
    have hnil := List.eq_nil_iff_forall_not_mem (l := peersOf request.events
      (SortedMap.tabulate (fun index => some (supersessionAncestors index request.events positions))
        (indicesWhere request.events (isCurrent request.task (supersededIds request.events))))
      (indicesWhere request.events (isCurrent request.task (supersededIds request.events))) i)
    simp only [hv.mem_peersOf hi] at hnil
    rw [not_exists, ← hnil]
    split <;> simp_all
  · rw [if_neg (mt mem_current.mp hi)]
    simp only [Option.isSome_none, Bool.false_eq_true, false_iff]
    rintro ⟨j, -, hcurrent, -⟩
    exact hi hcurrent

theorem competing_ne_nil {i : ℕ} {peers : List String}
    (h : (contextOf request positions).competingByIndex.get? i = some peers) : peers ≠ [] := by
  simp only [contextOf, competingByIndex, SortedMap.get?_tabulate] at h
  split at h
  · split at h
    · cases h
    · rename_i hne
      obtain rfl := Option.some.inj h
      simpa using hne
  · cases h

/-! ## Guarded dependencies -/

/-- Guarded dependencies are those something stands against. -/
theorem Validated.guards_iff (hv : Validated request positions) {i : ℕ} {d : Decision}
    (hd : request.events[i]? = some d) {r : String} (hr : r ∈ d.dependsOn) :
    (contextOf request positions).guards r = true ↔ ¬∃ e, Sound request (position positions r) e := by
  obtain ⟨-, e, he, hid⟩ := hv.resolve hd (mem_dependsOn r hr)
  have hsuper : r ∈ supersededIds request.events ↔ Superseded request e := by
    rw [mem_supersededIds, ← hid]
    rfl
  have happ : (request.events[position positions r]?).any
      (fun d => !(Applicability.forDecision request.task d).applicable) = true ↔ ¬Applicable request e := by
    rw [he, ← applicable_iff]
    simp
  have hguards : (contextOf request positions).guards r = true ↔
      Superseded request e ∨ ¬Applicable request e ∨ ∃ j, Peers request (position positions r) j := by
    rw [← hsuper, ← happ, ← hv.competing_iff]
    exact decide_eq_true_iff
  rw [hguards]
  constructor
  · rintro h ⟨e', hsound⟩
    obtain rfl := Option.some.inj (he.symm.trans hsound.there)
    rcases h with h | h | h
    · exact hsound.not_superseded h
    · exact h hsound.applicable
    · exact hsound.no_peer h
  · intro h
    by_contra hno
    simp only [not_or, not_not] at hno
    exact h ⟨e, he, hno.1, hno.2.1, hno.2.2⟩

theorem Validated.guard_step (hv : Validated request positions) :
    Descent.Step (contextOf request positions).guardSteps = Refers request (·.dependsOn) := by
  funext i j
  rw [← hv.refers_iff fun d => mem_dependsOn]
  simp only [Descent.Step, Context.guardSteps, dependsOnAt, List.mem_map, Prod.mk.injEq, eq_iff_iff]
  constructor
  · rintro ⟨_, r, hr, hpos, -⟩
    exact ⟨r, hr, hpos⟩
  · rintro ⟨r, hr, hpos⟩
    exact ⟨_, r, hr, hpos, rfl⟩

/-- Some contribution is met below `i` iff something stands against a dependency. -/
theorem Validated.contributes_iff (hv : Validated request positions) {i : ℕ} :
    (∃ x, Descent.Contributes (contextOf request positions).guardSteps i x) ↔
      ∃ j, TransGen (Refers request (·.dependsOn)) i j ∧ ¬∃ e, Sound request j e := by
  constructor
  · rintro ⟨x, j, k, hreach, hmem⟩
    rw [hv.guard_step] at hreach
    obtain ⟨r, hr, heq⟩ := List.mem_map.mp hmem
    obtain ⟨rfl, hown⟩ := Prod.mk.inj heq
    have hstep : Refers request (·.dependsOn) j (position positions r) :=
      (hv.refers_iff fun d => mem_dependsOn).mp ⟨r, hr, rfl⟩
    refine ⟨_, TransGen.tail' hreach hstep, ?_⟩
    obtain ⟨d, e, hd, he, hmem⟩ := hstep
    have hgr : (contextOf request positions).guards r = true := by
      by_contra hno
      rw [if_neg hno] at hown
      cases hown
    have hrd : r ∈ d.dependsOn := by
      have hat : dependsOnAt request.events j = d.dependsOn := by
        rw [dependsOnAt, hd]
        rfl
      exact hat ▸ hr
    exact (hv.guards_iff hd hrd).mp hgr
  · rintro ⟨j, hreach, hbad⟩
    obtain ⟨m, hm, d, e, hd, he, hmem⟩ := TransGen.tail'_iff.mp hreach
    refine ⟨e.id, m, position positions e.id, hv.guard_step ▸ hm, List.mem_map.mpr ⟨e.id, ?_, ?_⟩⟩
    · show e.id ∈ dependsOnAt request.events m
      rw [dependsOnAt, hd]
      exact hmem
    · rw [if_pos]
      · rfl
      · rw [hv.guards_iff hd hmem, hv.position_eq he]
        exact hbad

/-- The guards of a dependency walk are empty iff nothing stands against any dependency. -/
theorem Validated.dependencyGuardIds_spec (hv : Validated request positions) {i : ℕ}
    (hi : i < request.events.length) {memo : Descent.Memo String}
    (hmemo : Descent.MemoSound (contextOf request positions).guardSteps memo) :
    ((dependencyGuardIds (contextOf request positions) i memo).1.elems = [] ↔
        ∀ j, TransGen (Refers request (·.dependsOn)) i j → ∃ e, Sound request j e) ∧
      Descent.MemoSound (contextOf request positions).guardSteps
        (dependencyGuardIds (contextOf request positions) i memo).2 := by
  have hback : Descent.Backward (contextOf request positions).guardSteps := by
    intro i e he
    obtain ⟨r, hr, rfl⟩ := List.mem_map.mp he
    exact hv.position_lt (fun d => mem_dependsOn) hr
  obtain ⟨hmem, hsound⟩ := Descent.gather_spec hback hi hmemo
  refine ⟨?_, hsound⟩
  rw [List.eq_nil_iff_forall_not_mem]
  have hall : (∀ x, x ∉ (dependencyGuardIds (contextOf request positions) i memo).1.elems) ↔
      ¬∃ x, Descent.Contributes (contextOf request positions).guardSteps i x := by
    rw [not_exists]
    exact forall_congr' fun x => not_congr (hmem x)
  rw [hall, hv.contributes_iff]
  simp only [not_exists, not_and, not_forall, not_not]

/-- The guards of an index are empty iff its own dependencies give none and it has no peer. -/
theorem Validated.guardsOf_eq_nil (hv : Validated request positions) {i : ℕ} {guards : SortedSet String} :
    (contextOf request positions).guardsOf i guards = [] ↔
      guards.elems = [] ∧ ¬∃ j, Peers request i j := by
  rw [← hv.competing_iff, Context.guardsOf]
  rcases hget : (contextOf request positions).competingByIndex.get? i with _ | peers
  · simp
  · have hne := competing_ne_nil hget
    obtain ⟨p, hp⟩ := List.exists_mem_of_ne_nil _ hne
    have hmem : p ∈ guards.union (SortedSet.ofList peers) := by simp [hp]
    simp only [Option.isSome_some, not_true_eq_false, and_false, iff_false]
    exact List.ne_nil_of_mem hmem

end Passes

end Innen.Middleware.History
