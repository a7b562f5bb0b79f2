import Innen.Common.Worklist

/-!
# Breadth-first search that may stop

A queue of pending elements, each with its depth. The front element is skipped when it was visited
before, else it is expanded: the expansion may stop the whole search with an error, or it yields
successors, which are queued one level deeper, and an updated trace.

Every expansion that succeeds is of an element of one finite set, so the search ends. A search that
ends well has expanded everything it visited (`run_explored`); one that stops does so at the first
expansion that fails (`run_error_iff`); and two searches whose expansions agree step by step agree on
the whole run (`run_related`).
-/

namespace Innen.Common.BreadthFirst

variable {α τ τ' ε : Type*}

/-- Queue entries one level below `depth`. -/
def below (depth : ℕ) (succs : List α) : List (α × ℕ) := succs.map fun b => (b, depth + 1)

theorem mem_below {depth : ℕ} {succs : List α} {b : α} (h : b ∈ succs) :
    (b, depth + 1) ∈ below depth succs := List.mem_map.mpr ⟨b, h, rfl⟩

variable [LinearOrder α]

/-- How elements are expanded, given what is visited by then, the depth and the trace so far. -/
structure Search (α τ ε : Type*) [LinearOrder α] where
  /-- The finite set of the elements that can be expanded. -/
  known : List α
  expand : SortedSet α → α → ℕ → τ → Except ε (List α × τ)
  mem_known : ∀ {visited a depth t r}, expand visited a depth t = .ok r → a ∈ known

/-- The search: visited elements, trace and queue. -/
def run (S : Search α τ ε) (visited : SortedSet α) (t : τ) :
    List (α × ℕ) → Except ε (SortedSet α × τ)
  | [] => .ok (visited, t)
  | (a, depth) :: rest =>
    if a ∈ visited then run S visited t rest
    else
      match _h : S.expand (visited.insert a) a depth t with
      | .error e => .error e
      | .ok r => run S (visited.insert a) r.2 (rest ++ below depth r.1)
termination_by queue => (Worklist.unmarked S.known visited, queue.length)
decreasing_by
  · exact Prod.Lex.right _ (Nat.lt_succ_self _)
  · rename_i hfresh
    exact Prod.Lex.left _ _ (Worklist.unmarked_insert_lt (S.mem_known _h) hfresh)

section Equations

variable {S : Search α τ ε} {visited : SortedSet α} {t : τ} {a : α} {depth : ℕ} {rest : List (α × ℕ)}

theorem run_skip (hseen : a ∈ visited) : run S visited t ((a, depth) :: rest) = run S visited t rest := by
  rw [run, if_pos hseen]

theorem run_stop (hfresh : a ∉ visited) {e : ε} (h : S.expand (visited.insert a) a depth t = .error e) :
    run S visited t ((a, depth) :: rest) = .error e := by
  rw [run, if_neg hfresh]
  split <;> simp_all

theorem run_go (hfresh : a ∉ visited) {r : List α × τ}
    (h : S.expand (visited.insert a) a depth t = .ok r) :
    run S visited t ((a, depth) :: rest) = run S (visited.insert a) r.2 (rest ++ below depth r.1) := by
  rw [run, if_neg hfresh]
  split <;> simp_all

end Equations

/-! ## A run that ends well -/

/-- What a search that ended with `visited'` found out, started with `visited` and a queue. -/
structure Explored (S : Search α τ ε) (visited : SortedSet α) (queue : List (α × ℕ))
    (visited' : SortedSet α) : Prop where
  kept : ∀ a ∈ visited, a ∈ visited'
  queued : ∀ e ∈ queue, e.1 ∈ visited'
  expanded : ∀ a ∈ visited', a ∈ visited ∨ ∃ v depth t r, a ∈ v ∧ (∀ b ∈ v, b ∈ visited') ∧
    S.expand v a depth t = .ok r ∧ ∀ b ∈ r.1, b ∈ visited'

theorem run_explored {S : Search α τ ε} {visited visited' : SortedSet α} {t t' : τ}
    {queue : List (α × ℕ)} (h : run S visited t queue = .ok (visited', t')) :
    Explored S visited queue visited' := by
  induction visited, t, queue using run.induct S with
  | case1 visited t =>
    rw [run] at h
    obtain ⟨rfl, rfl⟩ := Prod.mk.inj (Except.ok.inj h)
    exact ⟨fun _ ha => ha, by simp, fun _ ha => .inl ha⟩
  | case2 visited t a depth rest hseen ih =>
    rw [run_skip hseen] at h
    have hrest := ih h
    refine ⟨hrest.kept, fun e he => ?_, hrest.expanded⟩
    rcases List.mem_cons.mp he with rfl | he
    · exact hrest.kept a hseen
    · exact hrest.queued e he
  | case3 visited t a depth rest hfresh e hexpand =>
    rw [run_stop hfresh hexpand] at h
    cases h
  | case4 visited t a depth rest hfresh r hexpand ih =>
    rw [run_go hfresh hexpand] at h
    have hrest := ih h
    have hin : ∀ b ∈ visited.insert a, b ∈ visited' := hrest.kept
    have ha : a ∈ visited' := hin a (SortedSet.mem_insert.mpr (.inl rfl))
    have hsucc : ∀ b ∈ r.1, b ∈ visited' := fun b hb =>
      hrest.queued (b, depth + 1) (List.mem_append_right _ (mem_below hb))
    refine ⟨fun b hb => hin b (SortedSet.mem_insert.mpr (.inr hb)), fun e he => ?_, fun b hb => ?_⟩
    · rcases List.mem_cons.mp he with rfl | he
      · exact ha
      · exact hrest.queued e (List.mem_append_left _ he)
    · rcases hrest.expanded b hb with hb | hb
      · rcases SortedSet.mem_insert.mp hb with rfl | hb
        · exact .inr ⟨_, depth, t, r, SortedSet.mem_insert.mpr (.inl rfl), hin, hexpand, hsucc⟩
        · exact .inl hb
      · exact .inr hb

/-! ## A run that stops -/

/-- The states a search passes through without stopping. -/
inductive Passes (S : Search α τ ε) :
    SortedSet α × τ × List (α × ℕ) → SortedSet α × τ × List (α × ℕ) → Prop
  | refl (s) : Passes S s s
  | skip {visited t a depth rest s} : a ∈ visited → Passes S (visited, t, rest) s →
      Passes S (visited, t, (a, depth) :: rest) s
  | expand {visited t a depth rest r s} : a ∉ visited → S.expand (visited.insert a) a depth t = .ok r →
      Passes S (visited.insert a, r.2, rest ++ below depth r.1) s →
      Passes S (visited, t, (a, depth) :: rest) s

/-- A search stops with `e` iff it passes to a state whose front element is new and fails with `e`. -/
theorem run_error_iff {S : Search α τ ε} {visited : SortedSet α} {t : τ} {queue : List (α × ℕ)} {e : ε} :
    run S visited t queue = .error e ↔ ∃ v u a depth rest, Passes S (visited, t, queue)
      (v, u, (a, depth) :: rest) ∧ a ∉ v ∧ S.expand (v.insert a) a depth u = .error e := by
  induction visited, t, queue using run.induct S with
  | case1 visited t =>
    rw [run]
    constructor
    · exact fun h => nomatch h
    · rintro ⟨v, u, a, depth, rest, hpass, -⟩
      cases hpass
  | case2 visited t a depth rest hseen ih =>
    rw [run_skip hseen, ih]
    constructor
    · rintro ⟨v, u, b, d, q, hpass, hb, hfail⟩
      exact ⟨v, u, b, d, q, .skip hseen hpass, hb, hfail⟩
    · rintro ⟨v, u, b, d, q, hpass, hb, hfail⟩
      cases hpass with
      | refl => exact absurd hseen hb
      | skip _ hpass => exact ⟨v, u, b, d, q, hpass, hb, hfail⟩
      | expand hfresh _ _ => exact absurd hseen hfresh
  | case3 visited t a depth rest hfresh e' hexpand =>
    rw [run_stop hfresh hexpand]
    constructor
    · intro h
      obtain rfl := Except.error.inj h
      exact ⟨visited, t, a, depth, rest, .refl _, hfresh, hexpand⟩
    · rintro ⟨v, u, b, d, q, hpass, hb, hfail⟩
      cases hpass with
      | refl => exact congrArg Except.error (Except.error.inj (hexpand.symm.trans hfail))
      | skip hseen _ => exact absurd hseen hfresh
      | expand _ hok _ => exact absurd (hexpand.symm.trans hok) (by simp)
  | case4 visited t a depth rest hfresh r hexpand ih =>
    rw [run_go hfresh hexpand, ih]
    constructor
    · rintro ⟨v, u, b, d, q, hpass, hb, hfail⟩
      exact ⟨v, u, b, d, q, .expand hfresh hexpand hpass, hb, hfail⟩
    · rintro ⟨v, u, b, d, q, hpass, hb, hfail⟩
      cases hpass with
      | refl => exact absurd (hexpand.symm.trans hfail) (by simp)
      | skip hseen _ => exact absurd hseen hfresh
      | expand _ hok hpass =>
        obtain rfl := Except.ok.inj (hexpand.symm.trans hok)
        exact ⟨v, u, b, d, q, hpass, hb, hfail⟩

/-! ## Two runs -/

/-- Both stop with the same error, or both end well with related results. -/
inductive SameResult {β β' : Type*} (R : β → β' → Prop) : Except ε β → Except ε β' → Prop
  | error (e : ε) : SameResult R (.error e) (.error e)
  | ok {b b'} : R b b' → SameResult R (.ok b) (.ok b')

/-- Searches whose expansions stop alike, with the same successors and related traces, do so as a
whole. -/
theorem run_related {S : Search α τ ε} {S' : Search α τ' ε} {R : τ → τ' → Prop}
    (hexpand : ∀ v a depth t t', R t t' →
      SameResult (fun r r' => r'.1 = r.1 ∧ R r.2 r'.2) (S.expand v a depth t) (S'.expand v a depth t'))
    {visited : SortedSet α} {t : τ} {t' : τ'} (ht : R t t') {queue : List (α × ℕ)} :
    SameResult (fun r r' => r'.1 = r.1 ∧ R r.2 r'.2) (run S visited t queue) (run S' visited t' queue) := by
  induction visited, t, queue using run.induct S generalizing t' with
  | case1 visited t =>
    rw [run, run]
    exact .ok ⟨rfl, ht⟩
  | case2 visited t a depth rest hseen ih =>
    rw [run_skip hseen, run_skip hseen]
    exact ih ht
  | case3 visited t a depth rest hfresh e hfail =>
    have hsame := hexpand (visited.insert a) a depth t t' ht
    rw [hfail] at hsame
    rw [run_stop hfresh hfail]
    rcases hfail' : S'.expand (visited.insert a) a depth t' with e' | r' <;> rw [hfail'] at hsame
    · rw [run_stop hfresh hfail']
      cases hsame
      exact .error e
    · cases hsame
  | case4 visited t a depth rest hfresh r hok ih =>
    have hsame := hexpand (visited.insert a) a depth t t' ht
    rw [hok] at hsame
    rw [run_go hfresh hok]
    rcases hok' : S'.expand (visited.insert a) a depth t' with e' | r' <;> rw [hok'] at hsame
    · cases hsame
    · obtain ⟨hsucc, hrel⟩ : r'.1 = r.1 ∧ R r.2 r'.2 := by
        cases hsame
        assumption
      rw [run_go hfresh hok', hsucc]
      exact ih hrel

end Innen.Common.BreadthFirst
