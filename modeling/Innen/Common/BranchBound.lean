import Mathlib.Data.Finset.Card
import Mathlib.Data.Set.Card

/-!
# Branch and bound over layers of alternatives

A choice takes one alternative from every layer and joins them, one after the other, onto a start
value. The search walks the choices depth first, remembers each (depth, partial value) pair it has
entered, and keeps the cheapest complete value within a budget as the incumbent. A partial value may
be given a lower bound of all its completions; it is dropped when that bound is over the budget or no
better than the incumbent.

What makes the search exact is one fact about entered pairs: a pair that is entered and left again is
`Covered`, i.e. every affordable completion of it costs at least as much as the incumbent. A pair that
is met a second time has been left, since the pairs still on the path down have smaller depth.
-/

namespace Innen.Common.BranchBound

variable {S A ε : Type*}

/-- `t` completes `s` by taking one alternative of each layer. -/
inductive Completes (join : S → A → S) : List (List A) → S → S → Prop
  | done (s : S) : Completes join [] s s
  | pick {alts : List A} {rest : List (List A)} {s t : S} {a : A} (ha : a ∈ alts)
      (h : Completes join rest (join s a) t) : Completes join (alts :: rest) s t

theorem completes_nil {join : S → A → S} {s t : S} : Completes join [] s t ↔ t = s := by
  constructor
  · rintro ⟨⟩
    rfl
  · rintro rfl
    exact .done t

theorem completes_cons {join : S → A → S} {alts : List A} {rest : List (List A)} {s t : S} :
    Completes join (alts :: rest) s t ↔ ∃ a ∈ alts, Completes join rest (join s a) t := by
  constructor
  · rintro (_ | ⟨ha, h⟩)
    exact ⟨_, ha, h⟩
  · rintro ⟨a, ha, h⟩
    exact .pick ha h

/-- One more layer at the end of a choice. -/
theorem Completes.snoc {join : S → A → S} {front : List (List A)} {alts : List A} {s t : S} {a : A}
    (h : Completes join front s t) (ha : a ∈ alts) :
    Completes join (front ++ [alts]) s (join t a) := by
  induction h with
  | done s => exact .pick ha (.done _)
  | pick hb _ ih => exact .pick hb ih

/-- What the search is given. -/
structure Problem (S A ε : Type*) where
  /-- Take one more alternative. -/
  join : S → A → S
  /-- What is computed at a value with these layers to go: nothing, or a bound (the cost itself when
  no layer is left), or a failure of the whole search. -/
  bound : List (List A) → S → Except ε (Option ℕ)
  /-- The largest cost that is accepted. -/
  budget : ℕ
  /-- The number of pairs that may be entered. -/
  limit : ℕ
  /-- The failure reported when that number is used up. -/
  full : ε

/-- What the search has done so far. -/
structure Progress (S : Type*) where
  /-- The number of pairs entered. -/
  states : ℕ
  /-- The incumbent and its cost. -/
  best : Option (S × ℕ)
  /-- The pairs entered. -/
  visited : Finset (ℕ × S)

/-- A cost is of no use when it is over the budget or no better than the incumbent. -/
def useless (budget : ℕ) (best : Option (S × ℕ)) (c : ℕ) : Prop :=
  budget < c ∨ ∃ b ∈ best, b.2 ≤ c

instance (budget : ℕ) (best : Option (S × ℕ)) (c : ℕ) : Decidable (useless budget best c) := by
  unfold useless
  cases best with
  | none => exact decidable_of_iff (budget < c) (by simp)
  | some b => exact decidable_of_iff (budget < c ∨ b.2 ≤ c) (by simp)

/-- The depth-first search below a partial value. -/
def visit [DecidableEq S] (P : Problem S A ε) : List (List A) → ℕ → S → Progress S → Except ε (Progress S)
  | rest, index, s, p =>
    if (index, s) ∈ p.visited then .ok p
    else if P.limit ≤ p.states then .error P.full
    else
      let entered : Progress S := ⟨p.states + 1, p.best, insert (index, s) p.visited⟩
      match P.bound rest s with
      | .error e => .error e
      | .ok c =>
        if ∃ d ∈ c, useless P.budget p.best d then .ok entered
        else
          match rest with
          | [] => .ok { entered with best := c.map fun d => (s, d) }
          | alts :: rest => alts.foldlM (fun q a => visit P rest (index + 1) (P.join s a) q) entered

/-- The bounds of a problem speak about the prices of its complete values. -/
structure Priced (P : Problem S A ε) (price : S → ℕ) : Prop where
  /-- A bound is a lower bound of every completion. -/
  lower : ∀ {rest s c t}, P.bound rest s = .ok (some c) → Completes P.join rest s t → c ≤ price t
  /-- A complete value gets its price. -/
  leaf : ∀ {s c}, P.bound [] s = .ok c → c = some (price s)

/-! ## The invariant of the search -/

section Invariant

variable (P : Problem S A ε) (price : S → ℕ) (layers : List (List A)) (start : S)

/-- A partial value of the choices: what one alternative from each of the first layers gives. -/
def Partial (x : ℕ × S) : Prop :=
  x.1 ≤ layers.length ∧ Completes P.join (layers.take x.1) start x.2

/-- Every affordable completion costs at least as much as the incumbent. -/
def Covered (best : Option (S × ℕ)) (x : ℕ × S) : Prop :=
  ∀ t, Completes P.join (layers.drop x.1) x.2 t → price t ≤ P.budget → ∃ b ∈ best, b.2 ≤ price t

/-- What holds between any two steps: the count is the number of entered pairs, these are partial
values, and the incumbent is an affordable complete value with its price. -/
structure Sane (p : Progress S) : Prop where
  count : p.states = p.visited.card
  reached : ∀ x ∈ p.visited, Partial P layers start x
  sound : ∀ b ∈ p.best, Completes P.join layers start b.1 ∧ b.2 = price b.1 ∧ b.2 ≤ P.budget

/-- The later incumbent is at least as good. -/
def Improves (best best' : Option (S × ℕ)) : Prop :=
  ∀ b ∈ best, ∃ b' ∈ best', b'.2 ≤ b.2

/-- Entered pairs from some depth on have been left again. -/
def Left (depth : ℕ) (p : Progress S) : Prop :=
  ∀ x ∈ p.visited, depth ≤ x.1 → Covered P price layers p.best x

/-- A search below depth `depth` went through: the step from `p` to `q`. -/
structure Ran (depth : ℕ) (p q : Progress S) : Prop where
  sane : Sane P price layers start q
  left : Left P price layers depth q
  kept : p.visited ⊆ q.visited
  deeper : ∀ x ∈ q.visited, x ∈ p.visited ∨ depth ≤ x.1
  improves : Improves p.best q.best

/-- A search failed: more pairs than the limit can be entered, or a bound failed at a partial value. -/
def Failed (e : ε) : Prop :=
  (e = P.full ∧ ∃ seen : Finset (ℕ × S), P.limit < seen.card ∧ ∀ x ∈ seen, Partial P layers start x) ∨
    ∃ x, Partial P layers start x ∧ P.bound (layers.drop x.1) x.2 = .error e

end Invariant

variable {P : Problem S A ε} {price : S → ℕ} {layers : List (List A)} {start : S}

theorem Improves.refl (best : Option (S × ℕ)) : Improves best best := fun b hb => ⟨b, hb, le_rfl⟩

theorem Improves.trans {best best' best'' : Option (S × ℕ)} (h : Improves best best')
    (h' : Improves best' best'') : Improves best best'' := by
  intro b hb
  obtain ⟨b', hb', hle⟩ := h b hb
  obtain ⟨b'', hb'', hle'⟩ := h' b' hb'
  exact ⟨b'', hb'', hle'.trans hle⟩

/-- A better incumbent keeps what was covered. -/
theorem Covered.mono {best best' : Option (S × ℕ)} {x : ℕ × S} (h : Covered P price layers best x)
    (himp : Improves best best') : Covered P price layers best' x := by
  intro t ht hbudget
  obtain ⟨b, hb, hle⟩ := h t ht hbudget
  obtain ⟨b', hb', hle'⟩ := himp b hb
  exact ⟨b', hb', hle'.trans hle⟩

theorem Ran.refl {depth : ℕ} {p : Progress S} (hsane : Sane P price layers start p)
    (hleft : Left P price layers depth p) : Ran P price layers start depth p p :=
  ⟨hsane, hleft, Finset.Subset.refl _, fun _ hx => .inl hx, Improves.refl _⟩

theorem Ran.trans {depth : ℕ} {p q r : Progress S} (h : Ran P price layers start depth p q)
    (h' : Ran P price layers start depth q r) : Ran P price layers start depth p r where
  sane := h'.sane
  left := h'.left
  kept := h.kept.trans h'.kept
  deeper x hx := (h'.deeper x hx).elim (h.deeper x) .inr
  improves := h.improves.trans h'.improves

/-- A useless bound covers everything below it. -/
theorem covered_of_useless (hP : Priced P price) {index : ℕ} {s : S} {best : Option (S × ℕ)} {c : ℕ}
    (hc : P.bound (layers.drop index) s = .ok (some c)) (huse : useless P.budget best c) :
    Covered P price layers best (index, s) := by
  intro t ht hbudget
  have hle : c ≤ price t := hP.lower hc ht
  rcases huse with hover | ⟨b, hb, hbc⟩
  · omega
  · exact ⟨b, hb, hbc.trans hle⟩

/-- With at most `limit` partial values there is no running out of states. -/
theorem Failed.bound_failed {e : ε} (h : Failed P layers start e)
    (hlimit : {x | Partial P layers start x}.encard ≤ P.limit) :
    ∃ x, Partial P layers start x ∧ P.bound (layers.drop x.1) x.2 = .error e := by
  rcases h with ⟨-, seen, hcard, hseen⟩ | h
  · have hle : (seen : Set (ℕ × S)).encard ≤ {x | Partial P layers start x}.encard :=
      Set.encard_le_encard fun x hx => hseen x hx
    have := hle.trans hlimit
    rw [Set.encard_coe_eq_coe_finsetCard, Nat.cast_le] at this
    omega
  · exact h

variable [DecidableEq S]

/-- Entering a new partial value keeps the count and the incumbent sound. -/
theorem Sane.enter {p : Progress S} (h : Sane P price layers start p) {x : ℕ × S}
    (hx : Partial P layers start x) (hnew : x ∉ p.visited) :
    Sane P price layers start ⟨p.states + 1, p.best, insert x p.visited⟩ where
  count := by
    simp only
    rw [Finset.card_insert_of_notMem hnew, h.count]
  reached y hy := (Finset.mem_insert.mp hy).elim (fun heq => heq ▸ hx) (h.reached y)
  sound := h.sound

/-- A pair entered at some depth does not disturb what was left at greater depths. -/
theorem Left.enter {depth : ℕ} {p : Progress S} (h : Left P price layers depth p) {s : S} :
    Left P price layers (depth + 1) ⟨p.states + 1, p.best, insert (depth, s) p.visited⟩ := by
  intro x hx hdepth
  rcases Finset.mem_insert.mp hx with rfl | hx
  · simp at hdepth
  · exact h x hx (Nat.le_of_succ_le hdepth)

/-- Leaving a covered pair again. -/
theorem Ran.leave {depth : ℕ} {p q : Progress S} {s : S} (hleft : Left P price layers depth p)
    (h : Ran P price layers start (depth + 1) ⟨p.states + 1, p.best, insert (depth, s) p.visited⟩ q)
    (hcov : Covered P price layers q.best (depth, s)) : Ran P price layers start depth p q where
  sane := h.sane
  left := by
    intro x hx hdepth
    rcases h.deeper x hx with hin | hdeep
    · rcases Finset.mem_insert.mp hin with rfl | hin
      · exact hcov
      · exact (hleft x hin hdepth).mono h.improves
    · exact h.left x hx hdeep
  kept := (Finset.subset_insert _ _).trans h.kept
  deeper := by
    intro x hx
    rcases h.deeper x hx with hin | hdeep
    · rcases Finset.mem_insert.mp hin with rfl | hin
      · exact .inr le_rfl
      · exact .inl hin
    · exact .inr (Nat.le_of_succ_le hdeep)
  improves := h.improves

/-- Entering one pair too many is a failure that the limit accounts for. -/
theorem failed_of_full {p : Progress S} (h : Sane P price layers start p) {x : ℕ × S}
    (hx : Partial P layers start x) (hnew : x ∉ p.visited) (hfull : P.limit ≤ p.states) :
    Failed P layers start P.full := by
  have henter := h.enter hx hnew
  refine .inl ⟨rfl, insert x p.visited, ?_, henter.reached⟩
  have hcount := henter.count
  simp only at hcount
  omega

/-- What a call of the search at some pair does. -/
def Spec (P : Problem S A ε) (price : S → ℕ) (layers : List (List A)) (start : S) (index : ℕ) (s : S)
    (p : Progress S) : Except ε (Progress S) → Prop
  | .ok q => Ran P price layers start index p q ∧ (index, s) ∈ q.visited
  | .error e => Failed P layers start e

/-- Running through the alternatives of a layer, given what each single one does. -/
theorem foldlM_spec {rest : List (List A)} {index : ℕ} {s : S} {alts : List A}
    (step : ∀ a ∈ alts, ∀ p, Sane P price layers start p → Left P price layers (index + 1) p →
      Spec P price layers start (index + 1) (P.join s a) p (visit P rest (index + 1) (P.join s a) p))
    {p : Progress S} (hsane : Sane P price layers start p)
    (hleft : Left P price layers (index + 1) p) :
    match alts.foldlM (fun q a => visit P rest (index + 1) (P.join s a) q) p with
    | .ok q => Ran P price layers start (index + 1) p q ∧ ∀ a ∈ alts, (index + 1, P.join s a) ∈ q.visited
    | .error e => Failed P layers start e := by
  induction alts generalizing p with
  | nil => exact ⟨Ran.refl hsane hleft, by simp⟩
  | cons a others ih =>
    have hfirst := step a List.mem_cons_self p hsane hleft
    rw [List.foldlM_cons]
    rcases hv : visit P rest (index + 1) (P.join s a) p with e | q
    · rw [hv] at hfirst
      exact hfirst
    · rw [hv] at hfirst
      obtain ⟨hran, hmem⟩ := hfirst
      have hothers := ih (fun b hb => step b (List.mem_cons_of_mem a hb)) hran.sane hran.left
      simp only [bind, Except.bind]
      split at hothers
      · rename_i r hr
        rw [hr]
        refine ⟨hran.trans hothers.1, fun b hb => ?_⟩
        rcases List.mem_cons.mp hb with rfl | hb
        · exact hothers.1.kept hmem
        · exact hothers.2 b hb
      · rename_i e he
        rw [he]
        exact hothers

/-- The search at a partial value leaves it covered, or fails for one of the two reasons. -/
theorem visit_spec (hP : Priced P price) {rest : List (List A)} {index : ℕ} {s : S} {p : Progress S}
    (hrest : layers.drop index = rest) (hpart : Partial P layers start (index, s))
    (hsane : Sane P price layers start p) (hleft : Left P price layers index p) :
    Spec P price layers start index s p (visit P rest index s p) := by
  induction rest generalizing index s p with
  | nil =>
    have hindex : index = layers.length := le_antisymm hpart.1 (List.drop_eq_nil_iff.mp hrest)
    rw [visit]
    split
    · exact ⟨Ran.refl hsane hleft, ‹_›⟩
    rename_i hnew
    split
    · exact failed_of_full hsane hpart hnew ‹_›
    rcases hbound : P.bound [] s with e | c
    · exact .inr ⟨(index, s), hpart, by rw [hrest]; exact hbound⟩
    obtain rfl := hP.leaf hbound
    have henter := hsane.enter hpart hnew
    simp only [Option.mem_def, Option.some.injEq, exists_eq_left', Option.map_some]
    split
    · rename_i huse
      have hcov : Covered P price layers p.best (index, s) :=
        covered_of_useless hP (by rw [hrest]; exact hbound) huse
      exact ⟨(Ran.refl henter hleft.enter).leave hleft hcov, Finset.mem_insert_self _ _⟩
    · -- the value becomes the incumbent
      rename_i huse
      have huse' : price s ≤ P.budget ∧ ∀ b ∈ p.best, price s < b.2 := by
        unfold useless at huse
        push Not at huse
        exact huse
      have hcomplete : Completes P.join layers start s := by
        have := hpart.2
        rwa [hindex, List.take_length] at this
      have himp : Improves p.best (some (s, price s)) := by
        intro b hb
        exact ⟨(s, price s), rfl, (huse'.2 b hb).le⟩
      have hran : Ran P price layers start (index + 1)
          ⟨p.states + 1, p.best, insert (index, s) p.visited⟩
          ⟨p.states + 1, some (s, price s), insert (index, s) p.visited⟩ :=
        { sane := ⟨henter.count, henter.reached, by
            rintro b ⟨⟩
            exact ⟨hcomplete, rfl, huse'.1⟩⟩
          left := fun x hx hdepth => (hleft.enter x hx hdepth).mono himp
          kept := Finset.Subset.refl _
          deeper := fun x hx => .inl hx
          improves := himp }
      refine ⟨hran.leave hleft fun t ht _ => ?_, Finset.mem_insert_self _ _⟩
      rw [hrest, completes_nil] at ht
      exact ⟨(s, price s), rfl, ht ▸ le_rfl⟩
  | cons alts rest ih =>
    have hlt : index < layers.length := by
      by_contra hge
      rw [List.drop_eq_nil_of_le (not_lt.mp hge)] at hrest
      exact List.cons_ne_nil _ _ hrest.symm
    have hdrop : layers.drop (index + 1) = rest := by
      rw [← List.tail_drop, hrest, List.tail_cons]
    have htake : layers.take (index + 1) = layers.take index ++ [alts] := by
      have hget : layers[index] = alts := by
        have := List.drop_eq_getElem_cons hlt
        rw [hrest, List.cons.injEq] at this
        exact this.1.symm
      rw [List.take_succ_eq_append_getElem hlt, hget]
    rw [visit]
    split
    · exact ⟨Ran.refl hsane hleft, ‹_›⟩
    rename_i hnew
    split
    · exact failed_of_full hsane hpart hnew ‹_›
    rcases hbound : P.bound (alts :: rest) s with e | c
    · exact .inr ⟨(index, s), hpart, by rw [hrest]; exact hbound⟩
    have henter := hsane.enter hpart hnew
    simp only
    split
    · rename_i huse
      obtain ⟨d, hd, huse⟩ := huse
      have hcov : Covered P price layers p.best (index, s) :=
        covered_of_useless hP (by rw [hrest, hbound, hd]) huse
      exact ⟨(Ran.refl henter hleft.enter).leave hleft hcov, Finset.mem_insert_self _ _⟩
    · have hstep : ∀ a ∈ alts, ∀ q, Sane P price layers start q → Left P price layers (index + 1) q →
          Spec P price layers start (index + 1) (P.join s a) q
            (visit P rest (index + 1) (P.join s a) q) := by
        intro a ha q hq hql
        refine ih hdrop ⟨hlt, ?_⟩ hq hql
        rw [htake]
        exact hpart.2.snoc ha
      have hfold := foldlM_spec hstep henter hleft.enter
      split at hfold
      · rename_i q hq
        rw [hq]
        refine ⟨hfold.1.leave hleft fun t ht hbudget => ?_,
          hfold.1.kept (Finset.mem_insert_self _ _)⟩
        -- a completion takes one of the alternatives just run through, and that pair was left
        rw [hrest] at ht
        obtain ⟨a, ha, hcompl⟩ := completes_cons.mp ht
        refine hfold.1.left _ (hfold.2 a ha) le_rfl t ?_ hbudget
        rw [hdrop]
        exact hcompl
      · rename_i e he
        rw [he]
        exact hfold

/-! ## What a finished search returns -/

variable (layers start) in
/-- A search that returns has found a cheapest affordable choice, or there is no affordable one; a
search that fails does so for one of the two reasons. -/
theorem visit_exact (hP : Priced P price) :
    match visit P layers 0 start ⟨0, none, ∅⟩ with
    | .ok q =>
      (∀ b ∈ q.best, Completes P.join layers start b.1 ∧ b.2 = price b.1 ∧ b.2 ≤ P.budget ∧
        ∀ t, Completes P.join layers start t → b.2 ≤ price t) ∧
      (q.best = none → ∀ t, Completes P.join layers start t → P.budget < price t)
    | .error e => Failed P layers start e := by
  have hsane : Sane P price layers start ⟨0, none, ∅⟩ := ⟨rfl, by simp, by simp⟩
  have hleft : Left P price layers 0 ⟨0, none, ∅⟩ := by
    intro x hx
    exact absurd hx (Finset.notMem_empty x)
  have hpart : Partial P layers start (0, start) := ⟨Nat.zero_le _, .done start⟩
  have hspec := visit_spec hP (List.drop_zero) hpart hsane hleft
  split
  · rename_i q hq
    rw [hq] at hspec
    obtain ⟨hran, hmem⟩ := hspec
    have hcov : ∀ t, Completes P.join layers start t → price t ≤ P.budget →
        ∃ b ∈ q.best, b.2 ≤ price t := hran.left _ hmem le_rfl
    refine ⟨fun b hb => ?_, fun hnone t ht => ?_⟩
    · obtain ⟨hcompl, hprice, hbudget⟩ := hran.sane.sound b hb
      refine ⟨hcompl, hprice, hbudget, fun t ht => ?_⟩
      by_cases hle : price t ≤ P.budget
      · obtain ⟨b', hb', hle'⟩ := hcov t ht hle
        obtain rfl : b' = b := Option.some.inj (hb'.symm.trans hb)
        exact hle'
      · omega
    · by_contra hle
      obtain ⟨b, hb, -⟩ := hcov t ht (not_lt.mp hle)
      rw [hnone] at hb
      simp at hb
  · rename_i e he
    rw [he] at hspec
    exact hspec

end Innen.Common.BranchBound
