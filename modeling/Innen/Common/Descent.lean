import Innen.Common.SortedMap
import Mathlib.Logic.Relation

/-!
# Recursion along references that point backwards

Records stand in a list and refer to earlier ones only. Two recursive walks follow such references:
`visit` collects what lies below a record, marking as it goes, and `gather` unites what the references
met on the way contribute, keeping the result of every record in a memo table.

Both take the references as a function of the index. The recursion is on fuel; because references
point backwards, an index is enough fuel for everything below it.
-/

namespace Innen.Common.Descent

open Relation

variable {ρ β : Type*}

/-- Every reference points to an earlier index. -/
def Backward (next : ℕ → List (ℕ × ρ)) : Prop := ∀ i, ∀ e ∈ next i, e.1 < i

/-- One reference, whatever its label. -/
def Step (next : ℕ → List (ℕ × ρ)) (i j : ℕ) : Prop := ∃ r, (j, r) ∈ next i

theorem step_of_mem {next : ℕ → List (ℕ × ρ)} {i : ℕ} {e : ℕ × ρ} (h : e ∈ next i) :
    Step next i e.1 := ⟨e.2, h⟩

/-! ## Collecting with marks -/

/-- The marked indices, and the references along which they were marked, in that order. -/
structure Visited (ρ : Type*) where
  seen : SortedSet ℕ
  output : List (ℕ × ρ)

/-- Mark the target of a reference. -/
def Visited.mark (v : Visited ρ) (e : ℕ × ρ) : Visited ρ := ⟨v.seen.insert e.1, v.output ++ [e]⟩

/-- Follow every reference whose target is not marked yet. -/
def visit (next : ℕ → List (ℕ × ρ)) : ℕ → ℕ → Visited ρ → Visited ρ
  | 0, _, v => v
  | fuel + 1, i, v =>
    (next i).foldl (fun v e => if e.1 ∈ v.seen then v else visit next fuel e.1 (v.mark e)) v

/-- What a walk from `i` along the references `es` does to the marks. -/
structure Walked (next : ℕ → List (ℕ × ρ)) (i : ℕ) (es : List (ℕ × ρ)) (v v' : Visited ρ) : Prop where
  kept : ∀ j ∈ v.seen, j ∈ v'.seen
  covered : ∀ e ∈ es, e.1 ∈ v'.seen
  closed : ∀ j, j ∈ v'.seen → j ∉ v.seen → ∀ k, Step next j k → k ∈ v'.seen
  below : ∀ j, j ∈ v'.seen → j ∈ v.seen ∨ TransGen (Step next) i j
  output : ∀ e ∈ v'.output, e ∈ v.output ∨ ∃ j, ReflTransGen (Step next) i j ∧ e ∈ next j

theorem Walked.refl (next : ℕ → List (ℕ × ρ)) (i : ℕ) (v : Visited ρ) : Walked next i [] v v where
  kept := fun _ h => h
  covered := by simp
  closed := fun _ h hn => absurd h hn
  below := fun _ h => .inl h
  output := fun _ h => .inl h

/-- A reference to a marked target changes nothing. -/
theorem Walked.skip {next : ℕ → List (ℕ × ρ)} {i : ℕ} {e : ℕ × ρ} {es : List (ℕ × ρ)} {v v' : Visited ρ}
    (he : e.1 ∈ v.seen) (h : Walked next i es v v') : Walked next i (e :: es) v v' where
  kept := h.kept
  covered := by
    intro e' he'
    rcases List.mem_cons.mp he' with rfl | he'
    · exact h.kept _ he
    · exact h.covered e' he'
  closed := h.closed
  below := h.below
  output := h.output

/-- Marking a target, walking on from it and then along the other references. -/
theorem Walked.descend {next : ℕ → List (ℕ × ρ)} {i : ℕ} {e : ℕ × ρ} {es : List (ℕ × ρ)}
    {v w v' : Visited ρ} (he : e ∈ next i) (hlow : Walked next e.1 (next e.1) (v.mark e) w)
    (h : Walked next i es w v') : Walked next i (e :: es) v v' where
  kept := fun j hj => h.kept j (hlow.kept j (SortedSet.mem_insert.mpr (.inr hj)))
  covered := by
    intro e' he'
    rcases List.mem_cons.mp he' with rfl | he'
    · exact h.kept _ (hlow.kept _ (SortedSet.mem_insert.mpr (.inl rfl)))
    · exact h.covered e' he'
  closed := by
    intro j hj hn k hstep
    by_cases hw : j ∈ w.seen
    · refine h.kept k ?_
      by_cases hje : j = e.1
      · -- the target itself: its references were all walked
        obtain ⟨r, hr⟩ := hstep
        exact hlow.covered (k, r) (hje ▸ hr)
      · exact hlow.closed j hw (fun hm => (SortedSet.mem_insert.mp hm).elim hje hn) k hstep
    · exact h.closed j hj hw k hstep
  below := by
    intro j hj
    rcases h.below j hj with hw | hreach
    · rcases hlow.below j hw with hm | hreach
      · rcases SortedSet.mem_insert.mp hm with rfl | hv
        · exact .inr (.single (step_of_mem he))
        · exact .inl hv
      · exact .inr (.head (step_of_mem he) hreach)
    · exact .inr hreach
  output := by
    intro e' he'
    rcases h.output e' he' with hw | hfrom
    · rcases hlow.output e' hw with hm | ⟨j, hj, hmem⟩
      · rcases List.mem_append.mp hm with hv | hone
        · exact .inl hv
        · obtain rfl := List.mem_singleton.mp hone
          exact .inr ⟨i, .refl, he⟩
      · exact .inr ⟨j, .head (step_of_mem he) hj, hmem⟩
    · exact .inr hfrom

/-- A walk with enough fuel covers everything below its start. -/
theorem visit_walked {next : ℕ → List (ℕ × ρ)} (hback : Backward next) {fuel i : ℕ} (hfuel : i ≤ fuel)
    (v : Visited ρ) : Walked next i (next i) v (visit next fuel i v) := by
  induction fuel generalizing i v with
  | zero =>
    obtain rfl : i = 0 := by omega
    have hnone : next 0 = [] := by
      apply List.eq_nil_iff_forall_not_mem.mpr
      intro e he
      have := hback 0 e he
      omega
    rw [hnone, visit]
    exact .refl next 0 v
  | succ fuel ih =>
    rw [visit]
    suffices h : ∀ es, (∀ e ∈ es, e ∈ next i) → ∀ v, Walked next i es v
        (es.foldl (fun v e => if e.1 ∈ v.seen then v else visit next fuel e.1 (v.mark e)) v) from
      h (next i) (fun _ h => h) v
    intro es
    induction es with
    | nil => exact fun _ v => .refl next i v
    | cons e es ihes =>
      intro hes v
      have hrest := ihes fun e' he' => hes e' (List.mem_cons_of_mem e he')
      have hmem := hes e List.mem_cons_self
      rw [List.foldl_cons]
      split
      · rename_i hseen
        exact (hrest v).skip hseen
      · have hlt := hback i e hmem
        have hlow : e.1 ≤ fuel := by omega
        exact (ih hlow (v.mark e)).descend hmem (hrest _)

/-- Started without marks, the walk marks what lies below its start. -/
theorem mem_visit {next : ℕ → List (ℕ × ρ)} (hback : Backward next) {fuel i j : ℕ} (hfuel : i ≤ fuel) :
    j ∈ (visit next fuel i ⟨∅, []⟩).seen ↔ TransGen (Step next) i j := by
  have h := visit_walked hback hfuel ⟨∅, []⟩
  refine ⟨fun hj => (h.below j hj).resolve_left (SortedSet.not_mem_empty j), fun hreach => ?_⟩
  induction hreach with
  | single hstep =>
    obtain ⟨r, hr⟩ := hstep
    exact h.covered _ hr
  | tail _ hstep ih => exact h.closed _ ih (SortedSet.not_mem_empty _) _ hstep

/-- What a walk marks along the way is below its start. -/
theorem Walked.output_below {next : ℕ → List (ℕ × ρ)} {i : ℕ} {es : List (ℕ × ρ)} {v v' : Visited ρ}
    (h : Walked next i es v v') {e : ℕ × ρ} (he : e ∈ v'.output) :
    e ∈ v.output ∨ TransGen (Step next) i e.1 := by
  refine (h.output e he).imp id ?_
  rintro ⟨j, hj, hmem⟩
  exact TransGen.tail' hj (step_of_mem hmem)

/-- Several walks one after the other, each from one of the `starts`. -/
theorem foldl_visit_below {next : ℕ → List (ℕ × ρ)} (hback : Backward next) {fuel : ℕ} {starts : List ℕ}
    (hfuel : ∀ i ∈ starts, i ≤ fuel) {v : Visited ρ} {e : ℕ × ρ}
    (he : e ∈ (starts.foldl (fun v i => visit next fuel i v) v).output) :
    e ∈ v.output ∨ ∃ i ∈ starts, TransGen (Step next) i e.1 := by
  induction starts generalizing v with
  | nil => exact .inl he
  | cons i rest ih =>
    rw [List.foldl_cons] at he
    rcases ih (fun j hj => hfuel j (List.mem_cons_of_mem i hj)) he with hv | ⟨j, hj, hreach⟩
    · have hwalked := visit_walked hback (hfuel i List.mem_cons_self) v
      exact (hwalked.output_below hv).imp id fun hreach => ⟨i, List.mem_cons_self, hreach⟩
    · exact .inr ⟨j, List.mem_cons_of_mem i hj, hreach⟩

/-- A path of two kinds of steps takes the first kind only, or ends with steps of the first kind behind
one of the second. -/
theorem transGen_or {α : Type*} {R S : α → α → Prop} {a c : α} (h : TransGen (fun x y => R x y ∨ S x y) a c) :
    TransGen R a c ∨ ∃ b b', ReflTransGen (fun x y => R x y ∨ S x y) a b ∧ S b b' ∧ ReflTransGen R b' c := by
  induction h with
  | single hstep => exact hstep.imp .single fun hs => ⟨_, _, .refl, hs, .refl⟩
  | tail hpath hstep ih =>
    rcases hstep with hr | hs
    · rcases ih with hall | ⟨b, b', hb, hs, hrest⟩
      · exact .inl (hall.tail hr)
      · exact .inr ⟨b, b', hb, hs, hrest.tail hr⟩
    · exact .inr ⟨_, _, hpath.to_reflTransGen, hs, .refl⟩

/-! ## Gathering with a memo table -/

/-- Some reference met below `i` contributes `x`. -/
def Contributes (next : ℕ → List (ℕ × Option β)) (i : ℕ) (x : β) : Prop :=
  ∃ j k, ReflTransGen (Step next) i j ∧ (k, some x) ∈ next j

/-- A contribution comes from a reference of the record itself or from below one of them. -/
theorem contributes_iff {next : ℕ → List (ℕ × Option β)} {i : ℕ} {x : β} :
    Contributes next i x ↔ ∃ e ∈ next i, e.2 = some x ∨ Contributes next e.1 x := by
  constructor
  · rintro ⟨j, k, hreach, hmem⟩
    rcases ReflTransGen.cases_head hreach with rfl | ⟨m, ⟨r, hr⟩, hrest⟩
    · exact ⟨_, hmem, .inl rfl⟩
    · exact ⟨_, hr, .inr ⟨j, k, hrest, hmem⟩⟩
  · rintro ⟨⟨m, r⟩, he, rfl | ⟨j, k, hreach, hmem⟩⟩
    · exact ⟨i, m, .refl, he⟩
    · exact ⟨j, k, .head (step_of_mem he) hreach, hmem⟩

variable [LinearOrder β]

/-- The results of the records done so far. -/
abbrev Memo (β : Type*) [LinearOrder β] := SortedMap ℕ (SortedSet β)

/-- Take in the own contribution of a reference and what is gathered below it. -/
def unite (acc : SortedSet β × Memo β) (own : Option β) (lower : SortedSet β × Memo β) :
    SortedSet β × Memo β :=
  ((own.elim acc.1 acc.1.insert).union lower.1, lower.2)

/-- Unite what the references of `i` contribute with what is gathered below each of them. -/
def gather (next : ℕ → List (ℕ × Option β)) : ℕ → ℕ → Memo β → SortedSet β × Memo β
  | 0, _, memo => (∅, memo)
  | fuel + 1, i, memo =>
    match memo.get? i with
    | some cached => (cached, memo)
    | none =>
      let gathered :=
        (next i).foldl (fun acc e => unite acc e.2 (gather next fuel e.1 acc.2)) (∅, memo)
      (gathered.1, gathered.2.insert i gathered.1)

/-- Every stored result is the right one. -/
def MemoSound (next : ℕ → List (ℕ × Option β)) (memo : Memo β) : Prop :=
  ∀ i result, memo.get? i = some result → ∀ x, x ∈ result ↔ Contributes next i x

theorem memoSound_empty (next : ℕ → List (ℕ × Option β)) : MemoSound next ∅ :=
  fun _ _ h => nomatch h

theorem MemoSound.insert {next : ℕ → List (ℕ × Option β)} {memo : Memo β} (h : MemoSound next memo)
    {i : ℕ} {result : SortedSet β} (hi : ∀ x, x ∈ result ↔ Contributes next i x) :
    MemoSound next (memo.insert i result) := by
  intro j stored hget
  rw [SortedMap.get?_insert] at hget
  split at hget
  · rename_i hj
    obtain rfl := Option.some.inj hget
    exact hj ▸ hi
  · exact h j stored hget

theorem mem_unite {acc lower : SortedSet β × Memo β} {own : Option β} {x : β} :
    x ∈ (unite acc own lower).1 ↔ (x ∈ acc.1 ∨ own = some x) ∨ x ∈ lower.1 := by
  rw [unite, SortedSet.mem_union]
  rcases own with _ | y
  · simp
  · simp [eq_comm, or_comm]

/-- The references `es` one after the other, given that the walk below each of them is right. -/
theorem foldl_unite {next : ℕ → List (ℕ × Option β)} {lower : ℕ → Memo β → SortedSet β × Memo β}
    {es : List (ℕ × Option β)}
    (hlower : ∀ e ∈ es, ∀ memo, MemoSound next memo →
      (∀ x, x ∈ (lower e.1 memo).1 ↔ Contributes next e.1 x) ∧ MemoSound next (lower e.1 memo).2)
    (acc : SortedSet β × Memo β) (hacc : MemoSound next acc.2) :
    (∀ x, x ∈ (es.foldl (fun acc e => unite acc e.2 (lower e.1 acc.2)) acc).1 ↔
      x ∈ acc.1 ∨ ∃ e ∈ es, e.2 = some x ∨ Contributes next e.1 x) ∧
    MemoSound next (es.foldl (fun acc e => unite acc e.2 (lower e.1 acc.2)) acc).2 := by
  induction es generalizing acc with
  | nil => exact ⟨by simp, hacc⟩
  | cons e es ih =>
    obtain ⟨hmem, hsound⟩ := hlower e List.mem_cons_self acc.2 hacc
    obtain ⟨hrest, hfinal⟩ := ih (fun e' he' => hlower e' (List.mem_cons_of_mem e he'))
      (unite acc e.2 (lower e.1 acc.2)) hsound
    refine ⟨fun x => ?_, hfinal⟩
    rw [List.foldl_cons, hrest x, mem_unite, hmem x]
    simp only [List.mem_cons, exists_eq_or_imp, or_assoc]

/-- With enough fuel the gathered set is the contributions met, whatever the table held. -/
theorem gather_spec {next : ℕ → List (ℕ × Option β)} (hback : Backward next) {fuel i : ℕ}
    (hfuel : i < fuel) {memo : Memo β} (hmemo : MemoSound next memo) :
    (∀ x, x ∈ (gather next fuel i memo).1 ↔ Contributes next i x) ∧
      MemoSound next (gather next fuel i memo).2 := by
  induction fuel generalizing i memo with
  | zero => omega
  | succ fuel ih =>
    rw [gather]
    split
    · rename_i cached hcached
      exact ⟨hmemo i cached hcached, hmemo⟩
    · have hlower : ∀ e ∈ next i, ∀ memo, MemoSound next memo →
          (∀ x, x ∈ (gather next fuel e.1 memo).1 ↔ Contributes next e.1 x) ∧
            MemoSound next (gather next fuel e.1 memo).2 := by
        intro e he memo hsound
        have hlt := hback i e he
        exact ih (by omega) hsound
      obtain ⟨hmem, hsound⟩ := foldl_unite hlower (∅, memo) hmemo
      have hresult : ∀ x, x ∈ ((next i).foldl (fun acc e => unite acc e.2 (gather next fuel e.1 acc.2))
          (∅, memo)).1 ↔ Contributes next i x := by
        intro x
        rw [hmem x, contributes_iff]
        simp
      exact ⟨hresult, hsound.insert hresult⟩

end Innen.Common.Descent
