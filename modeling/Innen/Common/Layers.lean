import Innen.Common.BreadthFirst

/-!
# Layers of a breadth-first search

From some roots every step leads to the successors of an element. The layers list what is reached: the roots, then what
they lead to and what is new, and so on, each element where it is seen first. So the elements before layer `n` are those
that fewer than `n` steps reach (`mem_seen`), and a layer holds those that need exactly as many (`mem_layer`).

A search that refuses to leave the elements of some depth, unless it goes to what it has visited, goes through the
layers up to that depth (`run_bounded`).
-/

namespace Innen.Common.Layers

variable {α : Type*} {next : α → List α} {roots : List α}

/-- What is reached from the roots in this many steps. -/
inductive Hops (next : α → List α) (roots : List α) : ℕ → α → Prop
  | root {a : α} : a ∈ roots → Hops next roots 0 a
  | step {n : ℕ} {a b : α} : Hops next roots n a → b ∈ next a → Hops next roots (n + 1) b

/-- The same steps are there for larger successor lists. -/
theorem Hops.mono {next' : α → List α} (h : ∀ a, ∀ b ∈ next a, b ∈ next' a) {n : ℕ} {a : α}
    (ha : Hops next roots n a) : Hops next' roots n a := by
  induction ha with
  | root hroot => exact .root hroot
  | step _ hb ih => exact .step ih (h _ _ hb)

/-- What is reached lies in every list that holds the roots and the successors of its elements. -/
theorem Hops.mem_of_closed {l : List α} (hroots : ∀ a ∈ roots, a ∈ l) (hnext : ∀ a ∈ l, ∀ b ∈ next a, b ∈ l) {n : ℕ}
    {a : α} (ha : Hops next roots n a) : a ∈ l := by
  induction ha with
  | root hroot => exact hroots _ hroot
  | step _ hb ih => exact hnext _ ih _ hb

variable [LinearOrder α]

/-! ## First places -/

/-- The elements of a list that are not seen yet, each at its first place. -/
def firsts (seen : SortedSet α) : List α → List α
  | [] => []
  | a :: rest => if a ∈ seen then firsts seen rest else a :: firsts (seen.insert a) rest

theorem mem_firsts {seen : SortedSet α} {l : List α} {a : α} : a ∈ firsts seen l ↔ a ∈ l ∧ a ∉ seen := by
  induction l generalizing seen with
  | nil => simp [firsts]
  | cons b rest ih =>
    rw [firsts]
    split_ifs with hb
    · rw [ih, List.mem_cons]
      exact ⟨fun h => ⟨.inr h.1, h.2⟩, fun h => ⟨h.1.resolve_left fun heq => h.2 (heq ▸ hb), h.2⟩⟩
    · rw [List.mem_cons, ih, SortedSet.mem_insert, List.mem_cons]
      constructor
      · rintro (rfl | ⟨hrest, hnew⟩)
        · exact ⟨.inl rfl, hb⟩
        · exact ⟨.inr hrest, fun h => hnew (.inr h)⟩
      · rintro ⟨rfl | hrest, hnew⟩
        · exact .inl rfl
        · by_cases hab : a = b
          · exact .inl hab
          · exact .inr ⟨hrest, fun h => h.elim hab hnew⟩

theorem nodup_firsts (seen : SortedSet α) (l : List α) : (firsts seen l).Nodup := by
  induction l generalizing seen with
  | nil => exact List.nodup_nil
  | cons b rest ih =>
    rw [firsts]
    split_ifs
    · exact ih seen
    · exact List.nodup_cons.mpr ⟨fun h => (mem_firsts.mp h).2 (SortedSet.mem_insert.mpr (.inl rfl)), ih _⟩

theorem firsts_append (seen : SortedSet α) (l l' : List α) :
    firsts seen (l ++ l') = firsts seen l ++ firsts (l.foldl SortedSet.insert seen) l' := by
  induction l generalizing seen with
  | nil => rfl
  | cons b rest ih =>
    rw [List.cons_append, firsts, firsts, List.foldl_cons]
    split_ifs with hb
    · have hsame : seen.insert b = seen := SortedSet.ext_mem fun c => by
        rw [SortedSet.mem_insert]
        exact ⟨fun h => h.elim (fun heq => heq ▸ hb) id, .inr⟩
      rw [ih, hsame]
    · rw [ih, List.cons_append]

/-- What is seen already may be left out. -/
theorem firsts_filter {seen : SortedSet α} {l : List α} {p : α → Bool} (h : ∀ a ∈ l, p a = false → a ∈ seen) :
    firsts seen (l.filter p) = firsts seen l := by
  induction l generalizing seen with
  | nil => rfl
  | cons b rest ih =>
    have hrest : ∀ a ∈ rest, p a = false → a ∈ seen := fun a ha => h a (List.mem_cons_of_mem b ha)
    cases hb : p b with
    | false => rw [List.filter_cons_of_neg (by simp [hb]), firsts, if_pos (h b List.mem_cons_self hb), ih hrest]
    | true =>
      rw [List.filter_cons_of_pos hb, firsts, firsts]
      split_ifs
      · exact ih hrest
      · rw [ih fun a ha hp => SortedSet.mem_insert.mpr (.inr (hrest a ha hp))]

/-! ## The layers -/

/-- What is seen before layer `n`, and the layer in the order in which its elements are seen. -/
def layers (next : α → List α) (roots : List α) : ℕ → SortedSet α × List α
  | 0 => (∅, firsts ∅ roots)
  | n + 1 =>
    let seen := (layers next roots n).2.foldl SortedSet.insert (layers next roots n).1
    (seen, firsts seen ((layers next roots n).2.flatMap next))

/-- The elements before layer `n`. -/
def seen (next : α → List α) (roots : List α) (n : ℕ) : SortedSet α := (layers next roots n).1

/-- Layer `n`. -/
def layer (next : α → List α) (roots : List α) (n : ℕ) : List α := (layers next roots n).2

theorem seen_succ (n : ℕ) : seen next roots (n + 1) = (layer next roots n).foldl SortedSet.insert (seen next roots n) :=
  rfl

theorem layer_succ (n : ℕ) :
    layer next roots (n + 1) = firsts (seen next roots (n + 1)) ((layer next roots n).flatMap next) := rfl

theorem nodup_layer (n : ℕ) : (layer next roots n).Nodup := by
  cases n <;> exact nodup_firsts _ _

theorem mem_seen_succ {n : ℕ} {a : α} :
    a ∈ seen next roots (n + 1) ↔ a ∈ seen next roots n ∨ a ∈ layer next roots n := by
  rw [seen_succ, SortedSet.mem_foldl_insert, or_comm]

theorem not_mem_seen_of_layer {n : ℕ} {a : α} (ha : a ∈ layer next roots n) : a ∉ seen next roots n := by
  cases n with
  | zero => exact SortedSet.not_mem_empty a
  | succ n => exact (mem_firsts.mp ha).2

/-- A layer is reached in as many steps. -/
theorem hops_of_layer {n : ℕ} {a : α} (ha : a ∈ layer next roots n) : Hops next roots n a := by
  induction n generalizing a with
  | zero => exact .root (mem_firsts.mp ha).1
  | succ n ih =>
    obtain ⟨b, hb, hab⟩ := List.mem_flatMap.mp (mem_firsts.mp ha).1
    exact .step (ih hb) hab

/-- What is seen before a layer has its successors in the layer or before it. -/
theorem next_of_seen {n : ℕ} {a b : α} (ha : a ∈ seen next roots n) (hb : b ∈ next a) :
    b ∈ seen next roots n ∨ b ∈ layer next roots n := by
  induction n with
  | zero => exact absurd ha (SortedSet.not_mem_empty a)
  | succ n ih =>
    rcases mem_seen_succ.mp ha with ha | ha
    · exact .inl (mem_seen_succ.mpr (ih ha))
    · by_cases hseen : b ∈ seen next roots (n + 1)
      · exact .inl hseen
      · exact .inr (mem_firsts.mpr ⟨List.mem_flatMap.mpr ⟨a, ha, hb⟩, hseen⟩)

/-- What so many steps reach is in that layer or before it. -/
theorem mem_seen_of_hops {n : ℕ} {a : α} (h : Hops next roots n a) : a ∈ seen next roots (n + 1) := by
  induction h with
  | root hroot => exact mem_seen_succ.mpr (.inr (mem_firsts.mpr ⟨hroot, SortedSet.not_mem_empty _⟩))
  | step _ hb ih => exact mem_seen_succ.mpr (next_of_seen ih hb)

theorem seen_mono {n m : ℕ} (h : n ≤ m) {a : α} (ha : a ∈ seen next roots n) : a ∈ seen next roots m := by
  induction h with
  | refl => exact ha
  | step _ ih => exact mem_seen_succ.mpr (.inl ih)

/-- The elements before a layer are those that fewer steps reach. -/
theorem mem_seen {n : ℕ} {a : α} : a ∈ seen next roots n ↔ ∃ m < n, Hops next roots m a := by
  constructor
  · intro ha
    induction n with
    | zero => exact absurd ha (SortedSet.not_mem_empty a)
    | succ n ih =>
      rcases mem_seen_succ.mp ha with ha | ha
      · obtain ⟨m, hm, h⟩ := ih ha
        exact ⟨m, Nat.lt_succ_of_lt hm, h⟩
      · exact ⟨n, Nat.lt_succ_self n, hops_of_layer ha⟩
  · rintro ⟨m, hm, h⟩
    exact seen_mono hm (mem_seen_of_hops h)

/-- A layer holds the elements that need exactly as many steps. -/
theorem mem_layer {n : ℕ} {a : α} : a ∈ layer next roots n ↔ Hops next roots n a ∧ ∀ m < n, ¬Hops next roots m a := by
  constructor
  · intro ha
    refine ⟨hops_of_layer ha, fun m hm h => not_mem_seen_of_layer ha (mem_seen.mpr ⟨m, hm, h⟩)⟩
  · rintro ⟨h, hmin⟩
    refine (mem_seen_succ.mp (mem_seen_of_hops h)).resolve_left fun hseen => ?_
    obtain ⟨m, hm, h'⟩ := mem_seen.mp hseen
    exact hmin m hm h'

/-! ## A bounded search -/

/-- A search that goes on to all successors but those it has visited, and stops where it would have to leave the
elements at the bound. -/
structure Bounded {τ ε : Type*} (S : BreadthFirst.Search α τ ε) (next : α → List α) (bound : ℕ) (record : τ → α → τ)
    (good : α → Prop) : Prop where
  good_next : ∀ {a b}, good a → b ∈ next a → good b
  go : ∀ {v a depth t}, good a → (depth < bound ∨ ∀ b ∈ next a, b ∈ v) →
    S.expand v a depth t = .ok ((next a).filter fun b => decide (b ∉ v), record t a)
  stop : ∀ {v a depth t}, good a → bound ≤ depth → (∃ b ∈ next a, b ∉ v) → ∃ e, S.expand v a depth t = .error e

/-- Queue entries at one depth. -/
def pending (depth : ℕ) (l : List α) : List (α × ℕ) := l.map fun a => (a, depth)

section

variable {τ ε : Type*} {S : BreadthFirst.Search α τ ε} {bound : ℕ} {record : τ → α → τ} {good : α → Prop}

/-- What the elements of a layer above the bound leave in the queue are the successors of those that are new. -/
theorem run_layer (hS : Bounded S next bound record good) {depth : ℕ} (hdepth : depth < bound) {l : List α}
    (hl : ∀ a ∈ l, good a) (v : SortedSet α) (t : τ) (later : List α) :
    ∃ found, (∀ b ∈ found, good b) ∧
      BreadthFirst.run S v t (pending depth l ++ pending (depth + 1) later) =
        BreadthFirst.run S ((firsts v l).foldl SortedSet.insert v) ((firsts v l).foldl record t)
          (pending (depth + 1) (later ++ found)) ∧
      ∀ u, (∀ a ∈ (firsts v l).foldl SortedSet.insert v, a ∈ u) →
        firsts u found = firsts u ((firsts v l).flatMap next) := by
  induction l generalizing v t later with
  | nil => exact ⟨[], by simp, by rw [List.append_nil]; rfl, fun _ _ => rfl⟩
  | cons a rest ih =>
    have hrest : ∀ b ∈ rest, good b := fun b hb => hl b (List.mem_cons_of_mem a hb)
    have ha := hl a List.mem_cons_self
    by_cases hseen : a ∈ v
    · obtain ⟨found, hgood, hrun, hfirsts⟩ := ih hrest v t later
      refine ⟨found, hgood, ?_, ?_⟩
      · rw [firsts, if_pos hseen, ← hrun]
        exact BreadthFirst.run_skip hseen
      · rwa [firsts, if_pos hseen]
    · -- The successors that are not visited go to the end of the queue.
      have hok := hS.go (v := v.insert a) (t := t) ha (.inl hdepth)
      obtain ⟨found, hgood, hrun, hfirsts⟩ := ih hrest (v.insert a) (record t a)
        (later ++ (next a).filter fun b => decide (b ∉ v.insert a))
      refine ⟨(next a).filter (fun b => decide (b ∉ v.insert a)) ++ found, ?_, ?_, ?_⟩
      · intro b hb
        rcases List.mem_append.mp hb with hb | hb
        · exact hS.good_next ha (List.mem_of_mem_filter hb)
        · exact hgood b hb
      · have hqueue : pending depth rest ++ pending (depth + 1) (later ++ (next a).filter fun b => decide (b ∉ v.insert a)) =
            pending depth rest ++ pending (depth + 1) later ++
              BreadthFirst.below depth ((next a).filter fun b => decide (b ∉ v.insert a)) := by
          rw [pending, pending, pending, List.map_append, List.append_assoc]
          rfl
        rw [firsts, if_neg hseen, List.foldl_cons, List.foldl_cons, ← List.append_assoc, ← hrun, hqueue]
        exact BreadthFirst.run_go hseen hok
      · rw [firsts, if_neg hseen, List.foldl_cons]
        intro u hu
        have hin : ∀ b ∈ v.insert a, b ∈ u := fun b hb => hu b (SortedSet.mem_foldl_insert.mpr (.inr hb))
        rw [List.flatMap_cons, firsts_append, firsts_append,
          firsts_filter fun b _ hb => hin b (not_not.mp (of_decide_eq_false hb))]
        have hsame : ((next a).filter fun b => decide (b ∉ v.insert a)).foldl SortedSet.insert u =
            (next a).foldl SortedSet.insert u := SortedSet.ext_mem fun b => by
          rw [SortedSet.mem_foldl_insert, SortedSet.mem_foldl_insert, List.mem_filter, decide_eq_true_eq]
          by_cases hb : b ∈ v.insert a
          · exact iff_of_true (.inr (hin b hb)) (.inr (hin b hb))
          · tauto
        rw [hsame, hfirsts _ fun b hb => SortedSet.mem_foldl_insert.mpr (.inr (hu b hb))]

/-- At the bound the search ends well when every new element leads to visited ones only. -/
theorem run_last (hS : Bounded S next bound record good) {l : List α} (hl : ∀ a ∈ l, good a) (v : SortedSet α) (t : τ) :
    ((∃ r, BreadthFirst.run S v t (pending bound l) = .ok r) ↔
        ∀ before a later, firsts v l = before ++ a :: later → ∀ b ∈ next a, b ∈ v ∨ b ∈ before ∨ b = a) ∧
      ∀ r, BreadthFirst.run S v t (pending bound l) = .ok r →
        r = ((firsts v l).foldl SortedSet.insert v, (firsts v l).foldl record t) := by
  induction l generalizing v t with
  | nil =>
    have hrun : BreadthFirst.run S v t (pending bound []) = .ok (v, t) := by rw [pending, List.map_nil, BreadthFirst.run]
    refine ⟨iff_of_true ⟨_, hrun⟩ fun before a later h => absurd h (by simp [firsts]), fun r hr => ?_⟩
    exact (Except.ok.inj (hrun.symm.trans hr)).symm
  | cons a rest ih =>
    have hrest : ∀ b ∈ rest, good b := fun b hb => hl b (List.mem_cons_of_mem a hb)
    have ha := hl a List.mem_cons_self
    by_cases hseen : a ∈ v
    · rw [firsts, if_pos hseen]
      have hskip : BreadthFirst.run S v t (pending bound (a :: rest)) = BreadthFirst.run S v t (pending bound rest) :=
        BreadthFirst.run_skip hseen
      rw [hskip]
      exact ih hrest v t
    · rw [firsts, if_neg hseen]
      by_cases hinside : ∀ b ∈ next a, b ∈ v.insert a
      · have hok : S.expand (v.insert a) a bound t = .ok ((next a).filter fun b => decide (b ∉ v.insert a), record t a) :=
          hS.go ha (.inr hinside)
        have hnone : (next a).filter (fun b => decide (b ∉ v.insert a)) = [] := by
          refine List.filter_eq_nil_iff.mpr fun b hb => ?_
          simp [hinside b hb]
        have hgo : BreadthFirst.run S v t (pending bound (a :: rest)) =
            BreadthFirst.run S (v.insert a) (record t a) (pending bound rest) := by
          refine (BreadthFirst.run_go hseen hok).trans ?_
          rw [hnone]
          exact congrArg _ (List.append_nil _)
        obtain ⟨hiff, hresult⟩ := ih hrest (v.insert a) (record t a)
        rw [hgo]
        refine ⟨hiff.trans ⟨fun h => ?_, fun h => ?_⟩, hresult⟩
        · intro before c later heq b hb
          cases before with
          | nil =>
            obtain ⟨rfl, -⟩ := List.cons.inj heq
            exact (SortedSet.mem_insert.mp (hinside b hb)).elim (fun h => .inr (.inr h)) .inl
          | cons d before =>
            obtain ⟨rfl, hrest⟩ := List.cons.inj heq
            rcases h before c later hrest b hb with hv | hbefore | rfl
            · rcases SortedSet.mem_insert.mp hv with rfl | hv
              · exact .inr (.inl List.mem_cons_self)
              · exact .inl hv
            · exact .inr (.inl (List.mem_cons_of_mem _ hbefore))
            · exact .inr (.inr rfl)
        · intro before c later heq b hb
          rcases h (a :: before) c later (by rw [heq]; rfl) b hb with hv | hbefore | rfl
          · exact .inl (SortedSet.mem_insert.mpr (.inr hv))
          · rcases List.mem_cons.mp hbefore with rfl | hbefore
            · exact .inl (SortedSet.mem_insert.mpr (.inl rfl))
            · exact .inr (.inl hbefore)
          · exact .inr (.inr rfl)
      · have hleave : ∃ b ∈ next a, b ∉ v.insert a := by
          simpa only [not_forall, exists_prop] using hinside
        obtain ⟨e, he⟩ := hS.stop (t := t) ha le_rfl hleave
        have hstop : BreadthFirst.run S v t (pending bound (a :: rest)) = .error e := BreadthFirst.run_stop hseen he
        rw [hstop]
        refine ⟨iff_of_false (by simp) fun h => ?_, fun r hr => by cases hr⟩
        obtain ⟨b, hb, hnew⟩ := hleave
        rcases h [] a _ rfl b hb with hv | hbefore | rfl
        · exact hnew (SortedSet.mem_insert.mpr (.inr hv))
        · exact absurd hbefore List.not_mem_nil
        · exact hnew (SortedSet.mem_insert.mpr (.inl rfl))

/-- The elements before layer `n` in the order in which they are visited. -/
def visits (next : α → List α) (roots : List α) : ℕ → List α
  | 0 => []
  | n + 1 => visits next roots n ++ layer next roots n

theorem mem_visits {n : ℕ} {a : α} : a ∈ visits next roots n ↔ a ∈ seen next roots n := by
  induction n with
  | zero => exact iff_of_false List.not_mem_nil (SortedSet.not_mem_empty a)
  | succ n ih => rw [visits, List.mem_append, ih, mem_seen_succ]

/-- Up to the bound a search goes from layer to layer. -/
theorem run_to_layer (hS : Bounded S next bound record good) (hroots : ∀ a ∈ roots, good a) (t : τ) {n : ℕ}
    (hn : n ≤ bound) : ∃ l, (∀ a ∈ l, good a) ∧
      BreadthFirst.run S ∅ t (pending 0 roots) =
        BreadthFirst.run S (seen next roots n) ((visits next roots n).foldl record t) (pending n l) ∧
      firsts (seen next roots n) l = layer next roots n := by
  induction n with
  | zero => exact ⟨roots, hroots, rfl, rfl⟩
  | succ n ih =>
    obtain ⟨l, hl, hrun, hlayer⟩ := ih (Nat.le_of_succ_le hn)
    obtain ⟨found, hfound, hnext, hfirsts⟩ :=
      run_layer hS hn hl (seen next roots n) ((visits next roots n).foldl record t) []
    rw [hlayer, ← seen_succ, ← List.foldl_append, List.nil_append] at hnext
    rw [hlayer, ← seen_succ] at hfirsts
    refine ⟨found, hfound, ?_, ?_⟩
    · rw [hrun, visits, ← hnext]
      exact congrArg _ (List.append_nil _).symm
    · rw [hfirsts _ fun _ ha => ha, layer_succ]

/-- No element of this layer leads to one that is not in an earlier layer or seen before it in its own. -/
def Stays (next : α → List α) (roots : List α) (n : ℕ) : Prop :=
  ∀ before a later, layer next roots n = before ++ a :: later →
    ∀ b ∈ next a, b ∈ seen next roots n ∨ b ∈ before ∨ b = a

/-- The search ends well when nothing leads on from the layer at the bound, and then has visited all layers. -/
theorem run_bounded (hS : Bounded S next bound record good) (hroots : ∀ a ∈ roots, good a) (t : τ) :
    ((∃ r, BreadthFirst.run S ∅ t (pending 0 roots) = .ok r) ↔ Stays next roots bound) ∧
      ∀ r, BreadthFirst.run S ∅ t (pending 0 roots) = .ok r →
        r = (seen next roots (bound + 1), (visits next roots (bound + 1)).foldl record t) := by
  obtain ⟨l, hl, hrun, hlayer⟩ := run_to_layer hS hroots t le_rfl
  have hlast := run_last hS hl (seen next roots bound) ((visits next roots bound).foldl record t)
  rw [hlayer, ← seen_succ, ← List.foldl_append] at hlast
  rw [hrun]
  exact hlast

end

/-- An element of the layer leads to one that is seen after it in the layer. -/
def Forward (next : α → List α) (roots : List α) (n : ℕ) : Prop :=
  ∃ before a later, layer next roots n = before ++ a :: later ∧ ∃ b ∈ later, b ∈ next a

/-- Nothing leads on from a layer when it and what is before it hold all that is reached, and nothing in it leads
forward. -/
theorem stays_iff {n : ℕ} :
    Stays next roots n ↔ (∀ m a, Hops next roots m a → ∃ k ≤ n, Hops next roots k a) ∧ ¬Forward next roots n := by
  have hseen : ∀ {a : α}, a ∈ seen next roots (n + 1) ↔ ∃ k ≤ n, Hops next roots k a := by
    intro a
    rw [mem_seen]
    simp only [Nat.lt_succ_iff]
  constructor
  · intro hstays
    refine ⟨fun m a ha => ?_, ?_⟩
    · rw [← hseen]
      induction ha with
      | root hroot => exact hseen.mpr ⟨0, Nat.zero_le n, .root hroot⟩
      | @step _ a b _ hb ih =>
        rcases mem_seen_succ.mp ih with ha | ha
        · exact mem_seen_succ.mpr (next_of_seen ha hb)
        · obtain ⟨before, later, heq⟩ := List.append_of_mem ha
          rcases hstays before a later heq b hb with hb | hb | rfl
          · exact mem_seen_succ.mpr (.inl hb)
          · exact mem_seen_succ.mpr (.inr (heq ▸ List.mem_append_left _ hb))
          · exact ih
    · rintro ⟨before, a, later, heq, b, hlater, hb⟩
      have hnodup : (layer next roots n).Nodup := nodup_layer n
      rw [heq, List.nodup_append] at hnodup
      obtain ⟨-, htail, hdisjoint⟩ := hnodup
      have hmem : b ∈ layer next roots n := heq ▸ List.mem_append_right _ (List.mem_cons_of_mem a hlater)
      rcases hstays before a later heq b hb with hseen | hbefore | rfl
      · exact not_mem_seen_of_layer hmem hseen
      · exact hdisjoint b hbefore b (List.mem_cons_of_mem a hlater) rfl
      · exact (List.nodup_cons.mp htail).1 hlater
  · rintro ⟨hwithin, hforward⟩ before a later heq b hb
    have ha : a ∈ layer next roots n := heq ▸ List.mem_append_right _ List.mem_cons_self
    have hreach := hseen.mpr (hwithin _ b (.step (hops_of_layer ha) hb))
    rcases mem_seen_succ.mp hreach with hseen | hlayer
    · exact .inl hseen
    · rw [heq, List.mem_append, List.mem_cons] at hlayer
      rcases hlayer with hbefore | rfl | hlater
      · exact .inr (.inl hbefore)
      · exact .inr (.inr rfl)
      · exact absurd ⟨before, a, later, heq, b, hlater, hb⟩ hforward

end Innen.Common.Layers
