import Innen.Common.Layers
import Mathlib.Data.Nat.Find

/-!
# Distances by breadth-first search

A queue starts with the roots at depth zero. The element at its front gives its successors without a depth the next depth
and a place at the end, unless its own depth has come to a bound. What has a depth in the end is what lies within the
bound, and the depth is the distance from the roots (`get?_search`).
-/

namespace Innen.Common.Distances

open Layers

variable {α : Type*} {next : α → List α} {roots : List α}

/-! ## Distances -/

/-- The least number of steps from the roots. -/
def IsDistance (next : α → List α) (roots : List α) (n : ℕ) (a : α) : Prop :=
  Hops next roots n a ∧ ∀ m < n, ¬Hops next roots m a

theorem IsDistance.unique {n m : ℕ} {a : α} (hn : IsDistance next roots n a) (hm : IsDistance next roots m a) : n = m := by
  rcases lt_trichotomy n m with hlt | heq | hgt
  · exact absurd hn.1 (hm.2 n hlt)
  · exact heq
  · exact absurd hm.1 (hn.2 m hgt)

/-- What is reached in some steps has a distance that is no greater. -/
theorem exists_distance {n : ℕ} {a : α} (h : Hops next roots n a) : ∃ m ≤ n, IsDistance next roots m a := by
  classical
  have hex : ∃ m, Hops next roots m a := ⟨n, h⟩
  exact ⟨Nat.find hex, Nat.find_min' hex h, Nat.find_spec hex, fun _ hm => Nat.find_min hex hm⟩

theorem isDistance_zero {a : α} : IsDistance next roots 0 a ↔ a ∈ roots := by
  constructor
  · rintro ⟨⟨hroot⟩, -⟩
    exact hroot
  · exact fun hroot => ⟨.root hroot, fun m hm => absurd hm (Nat.not_lt_zero m)⟩

/-- The step before the last is one nearer. -/
theorem IsDistance.pred {n : ℕ} {b : α} (h : IsDistance next roots (n + 1) b) :
    ∃ a, IsDistance next roots n a ∧ b ∈ next a := by
  obtain ⟨hhops, hleast⟩ := h
  cases hhops with
  | @step _ a _ ha hb =>
    refine ⟨a, ⟨ha, fun m hm hnear => ?_⟩, hb⟩
    exact hleast (m + 1) (Nat.succ_lt_succ hm) (.step hnear hb)

/-- On the way to an element every smaller distance occurs. -/
theorem IsDistance.exists_of_le {n m : ℕ} {a : α} (h : IsDistance next roots n a) (hm : m ≤ n) :
    ∃ b, IsDistance next roots m b := by
  induction hm using Nat.decreasingInduction with
  | self => exact ⟨a, h⟩
  | of_succ k hk ih =>
    obtain ⟨b, hb⟩ := ih
    obtain ⟨c, hc, -⟩ := hb.pred
    exact ⟨c, hc⟩

/-- Larger successor lists only shorten distances. -/
theorem IsDistance.mono {next' : α → List α} (hnext : ∀ a, ∀ b ∈ next a, b ∈ next' a) {n : ℕ} {a : α}
    (h : IsDistance next roots n a) : ∃ m ≤ n, IsDistance next' roots m a :=
  exists_distance (h.1.mono hnext)

/-! ## The search -/

variable [LinearOrder α]

/-- Give a depth and a place at the end of the queue to the elements that have no depth. -/
def discover (depth : SortedMap α ℕ) (queue : List α) (d : ℕ) : List α → SortedMap α ℕ × List α
  | [] => (depth, queue)
  | b :: rest =>
    if (depth.get? b).isSome then discover depth queue d rest
    else discover (depth.insert b d) (queue ++ [b]) d rest

/-- The elements that have a depth. -/
def placed (depth : SortedMap α ℕ) : SortedSet α := SortedSet.ofList depth.keys

theorem mem_placed {depth : SortedMap α ℕ} {a : α} : a ∈ placed depth ↔ (depth.get? a).isSome := by
  rw [placed, SortedSet.mem_ofList, SortedMap.mem_keys_iff]

theorem placed_insert (depth : SortedMap α ℕ) (b : α) (d : ℕ) : placed (depth.insert b d) = (placed depth).insert b := by
  refine SortedSet.ext_mem fun a => ?_
  rw [mem_placed, SortedSet.mem_insert, mem_placed, SortedMap.get?_insert]
  by_cases hab : a = b
  · rw [if_pos hab]
    exact iff_of_true rfl (.inl hab)
  · rw [if_neg hab]
    exact ⟨.inr, fun h => h.resolve_left hab⟩

/-- Every place in the queue is paid for by an element that had no depth. -/
theorem unmarked_discover {known : List α} {l : List α} (hl : ∀ b ∈ l, b ∈ known) (depth : SortedMap α ℕ) (queue : List α)
    (d : ℕ) : Worklist.unmarked known (placed (discover depth queue d l).1) + (discover depth queue d l).2.length ≤
      Worklist.unmarked known (placed depth) + queue.length := by
  induction l generalizing depth queue with
  | nil => exact le_rfl
  | cons b rest ih =>
    have hrest : ∀ c ∈ rest, c ∈ known := fun c hc => hl c (List.mem_cons_of_mem b hc)
    rw [discover]
    split_ifs with hplaced
    · exact ih hrest depth queue
    · have hlt := Worklist.unmarked_insert_lt (hl b List.mem_cons_self) (mem_placed.not.mpr hplaced)
      have hle := ih hrest (depth.insert b d) (queue ++ [b])
      rw [List.length_append, List.length_singleton, placed_insert] at hle
      omega

/-- The loop: the front of the queue discovers its successors one deeper, unless it lies at the bound. -/
def search (known : List α) (next : α → List α) (hnext : ∀ a, ∀ b ∈ next a, b ∈ known) (bound : ℕ)
    (depth : SortedMap α ℕ) : List α → SortedMap α ℕ
  | [] => depth
  | a :: queue =>
    if bound ≤ (depth.get? a).getD 0 then search known next hnext bound depth queue
    else search known next hnext bound (discover depth queue ((depth.get? a).getD 0 + 1) (next a)).1
      (discover depth queue ((depth.get? a).getD 0 + 1) (next a)).2
termination_by queue => Worklist.unmarked known (placed depth) + queue.length
decreasing_by
  · exact Nat.add_lt_add_left (Nat.lt_succ_self _) _
  · have hle := unmarked_discover (hnext a) depth queue ((depth.get? a).getD 0 + 1)
    rw [List.length_cons]
    omega

section Discovery

variable {depth : SortedMap α ℕ} {queue l : List α} {d : ℕ}

/-- What is discovered gets the new depth, and nothing else changes its depth. -/
theorem get?_discover {a : α} {k : ℕ} : (discover depth queue d l).1.get? a = some k ↔
    depth.get? a = some k ∨ (depth.get? a = none ∧ a ∈ l ∧ k = d) := by
  induction l generalizing depth queue with
  | nil => simp [discover]
  | cons b rest ih =>
    rw [discover]
    split_ifs with hplaced
    · have hb : depth.get? a = none → a ≠ b := by
        rintro hnone rfl
        rw [hnone] at hplaced
        exact absurd hplaced (by simp)
      rw [ih, List.mem_cons]
      exact or_congr_right (and_congr_right fun hnone => and_congr_left fun _ => ⟨.inr, fun h => h.resolve_left (hb hnone)⟩)
    · have hnone : depth.get? b = none := Option.not_isSome_iff_eq_none.mp hplaced
      rw [ih, SortedMap.get?_insert, List.mem_cons]
      by_cases hab : a = b
      · rw [if_pos hab, hab, hnone]
        simp [eq_comm]
      · rw [if_neg hab]
        simp [hab]

/-- The queue grows by what had no depth. -/
theorem discover_queue (depth : SortedMap α ℕ) (queue l : List α) (d : ℕ) :
    ∃ new, (discover depth queue d l).2 = queue ++ new ∧ ∀ a, a ∈ new ↔ a ∈ l ∧ depth.get? a = none := by
  induction l generalizing depth queue with
  | nil => exact ⟨[], (List.append_nil queue).symm, by simp⟩
  | cons b rest ih =>
    rw [discover]
    split_ifs with hplaced
    · obtain ⟨new, hnew, hmem⟩ := ih depth queue
      refine ⟨new, hnew, fun a => ?_⟩
      rw [hmem, List.mem_cons]
      refine and_congr_left fun hnone => ⟨.inr, fun h => h.resolve_left ?_⟩
      rintro rfl
      rw [hnone] at hplaced
      exact absurd hplaced (by simp)
    · have hnone : depth.get? b = none := Option.not_isSome_iff_eq_none.mp hplaced
      obtain ⟨new, hnew, hmem⟩ := ih (depth.insert b d) (queue ++ [b])
      refine ⟨b :: new, ?_, fun a => ?_⟩
      · rw [hnew, List.append_assoc, List.singleton_append]
      · rw [List.mem_cons, List.mem_cons, hmem, SortedMap.get?_insert]
        by_cases hab : a = b
        · rw [if_pos hab, hab, hnone]
          simp
        · rw [if_neg hab]
          simp [hab]

end Discovery

/-! ## What the search finds -/

/-- The state inside a layer: the queue holds the rest of one layer and what is discovered of the next, and the depths are
the distances up to there. -/
structure InLayer (next : α → List α) (roots : List α) (bound n : ℕ) (depth : SortedMap α ℕ) (todo new : List α) : Prop where
  depth_iff : ∀ a k, depth.get? a = some k ↔ (k ≤ n ∧ IsDistance next roots k a) ∨ (k = n + 1 ∧ a ∈ new)
  todo_distance : ∀ a ∈ todo, IsDistance next roots n a
  new_distance : ∀ a ∈ new, IsDistance next roots (n + 1) a
  /-- What is one step further is discovered already or a successor of what is left. -/
  pending : ∀ b, n < bound → IsDistance next roots (n + 1) b → b ∈ new ∨ ∃ a ∈ todo, b ∈ next a
  le_bound : n ≤ bound
  new_nil : n = bound → new = []

namespace InLayer

variable {bound n : ℕ} {depth : SortedMap α ℕ} {todo new : List α}

/-- An element of the layer passes its depth on. -/
theorem step {a : α} (h : InLayer next roots bound n depth (a :: todo) new) (hn : n < bound) {fresh : List α}
    (hfresh : ∀ b, b ∈ fresh ↔ b ∈ next a ∧ depth.get? b = none) {queue : List α} :
    InLayer next roots bound n (discover depth queue (n + 1) (next a)).1 todo (new ++ fresh) := by
  have hdistance : ∀ b ∈ fresh, IsDistance next roots (n + 1) b := by
    intro b hb
    obtain ⟨hnext, hnone⟩ := (hfresh b).mp hb
    obtain ⟨m, hm, hdist⟩ := exists_distance (.step (h.todo_distance a List.mem_cons_self).1 hnext)
    rcases hm.lt_or_eq with hlt | rfl
    · have hsome := (h.depth_iff b m).mpr (.inl ⟨Nat.lt_succ_iff.mp hlt, hdist⟩)
      rw [hnone] at hsome
      exact absurd hsome (by simp)
    · exact hdist
  refine ⟨fun b k => ?_, fun b hb => h.todo_distance b (List.mem_cons_of_mem a hb), fun b hb => ?_, fun b hlt hb => ?_,
    h.le_bound, fun heq => absurd heq hn.ne⟩
  · rw [get?_discover, h.depth_iff, List.mem_append, hfresh]
    constructor
    · rintro ((hold | ⟨rfl, hnew⟩) | ⟨hnone, hnext, rfl⟩)
      · exact .inl hold
      · exact .inr ⟨rfl, .inl hnew⟩
      · exact .inr ⟨rfl, .inr ⟨hnext, hnone⟩⟩
    · rintro (hold | ⟨rfl, hnew | ⟨hnext, hnone⟩⟩)
      · exact .inl (.inl hold)
      · exact .inl (.inr ⟨rfl, hnew⟩)
      · exact .inr ⟨hnone, hnext, rfl⟩
  · rcases List.mem_append.mp hb with hb | hb
    · exact h.new_distance b hb
    · exact hdistance b hb
  · rcases h.pending b hlt hb with hnew | ⟨c, hc, hbc⟩
    · exact .inl (List.mem_append_left _ hnew)
    · rcases List.mem_cons.mp hc with rfl | hc
      · by_cases hnone : depth.get? b = none
        · exact .inl (List.mem_append_right _ ((hfresh b).mpr ⟨hbc, hnone⟩))
        · obtain ⟨k, hk⟩ := Option.ne_none_iff_exists'.mp hnone
          rcases (h.depth_iff b k).mp hk with ⟨hle, hdist⟩ | ⟨-, hnew⟩
          · have heq := hdist.unique hb
            omega
          · exact .inl (List.mem_append_left _ hnew)
      · exact .inr ⟨c, hc, hbc⟩

/-- Behind the last element of a layer comes the next layer. -/
theorem turn (h : InLayer next roots bound n depth [] new) (hn : n < bound) :
    InLayer next roots bound (n + 1) depth new [] := by
  have hall : ∀ b, IsDistance next roots (n + 1) b → b ∈ new := by
    intro b hb
    rcases h.pending b hn hb with hnew | ⟨a, ha, -⟩
    · exact hnew
    · exact absurd ha List.not_mem_nil
  refine ⟨fun a k => ?_, h.new_distance, fun a ha => absurd ha List.not_mem_nil, fun b hlt hb => ?_, hn, fun _ => rfl⟩
  · rw [h.depth_iff]
    constructor
    · rintro (⟨hle, hdist⟩ | ⟨rfl, hnew⟩)
      · exact .inl ⟨Nat.le_succ_of_le hle, hdist⟩
      · exact .inl ⟨le_rfl, h.new_distance a hnew⟩
    · rintro (⟨hle, hdist⟩ | ⟨-, hnil⟩)
      · rcases hle.lt_or_eq with hlt | rfl
        · exact .inl ⟨Nat.lt_succ_iff.mp hlt, hdist⟩
        · exact .inr ⟨rfl, hall a hdist⟩
      · exact absurd hnil List.not_mem_nil
  · obtain ⟨a, ha, hab⟩ := hb.pred
    exact .inr ⟨a, hall a ha, hab⟩

/-- With nothing left, the depths are the distances up to the bound. -/
theorem done (h : InLayer next roots bound n depth [] []) {a : α} {k : ℕ} :
    depth.get? a = some k ↔ k ≤ bound ∧ IsDistance next roots k a := by
  rw [h.depth_iff]
  constructor
  · rintro (⟨hle, hdist⟩ | ⟨-, hnil⟩)
    · exact ⟨hle.trans h.le_bound, hdist⟩
    · exact absurd hnil List.not_mem_nil
  · rintro ⟨hle, hdist⟩
    refine .inl ⟨?_, hdist⟩
    by_contra hlt
    obtain ⟨b, hb⟩ := hdist.exists_of_le (show n + 1 ≤ k by omega)
    rcases h.pending b (by omega) hb with hnil | ⟨c, hc, -⟩
    · exact absurd hnil List.not_mem_nil
    · exact absurd hc List.not_mem_nil

/-- At the bound an element of the layer is only taken off. -/
theorem skip {a : α} (h : InLayer next roots bound n depth (a :: todo) []) (hn : n = bound) :
    InLayer next roots bound n depth todo [] :=
  ⟨h.depth_iff, fun b hb => h.todo_distance b (List.mem_cons_of_mem a hb), h.new_distance,
    fun _ hlt => absurd hn hlt.ne, h.le_bound, h.new_nil⟩

/-- The front of the queue belongs to a layer of which it is the first that is left. -/
theorem front (h : InLayer next roots bound n depth todo new) {b : α} {queue : List α} (hqueue : todo ++ new = b :: queue) :
    ∃ n' todo' new', InLayer next roots bound n' depth (b :: todo') new' ∧ queue = todo' ++ new' := by
  cases todo with
  | cons c todo =>
    rw [List.cons_append, List.cons.injEq] at hqueue
    obtain ⟨rfl, rfl⟩ := hqueue
    exact ⟨n, todo, new, h, rfl⟩
  | nil =>
    rw [List.nil_append] at hqueue
    have hn : n < bound := by
      refine lt_of_le_of_ne h.le_bound fun heq => ?_
      rw [h.new_nil heq] at hqueue
      exact absurd hqueue (by simp)
    subst hqueue
    exact ⟨n + 1, queue, [], h.turn hn, (List.append_nil queue).symm⟩

theorem front_depth {b : α} (h : InLayer next roots bound n depth (b :: todo) new) : (depth.get? b).getD 0 = n := by
  rw [(h.depth_iff b n).mpr (.inl ⟨le_rfl, h.todo_distance b List.mem_cons_self⟩), Option.getD_some]

end InLayer

/-- The search finds what lies within the bound, with its distance. -/
theorem get?_search {known : List α} {hnext : ∀ a, ∀ b ∈ next a, b ∈ known} {bound n : ℕ} {depth : SortedMap α ℕ}
    {todo new : List α} (h : InLayer next roots bound n depth todo new) {a : α} {k : ℕ} :
    (search known next hnext bound depth (todo ++ new)).get? a = some k ↔ k ≤ bound ∧ IsDistance next roots k a := by
  generalize hqueue : todo ++ new = queue
  induction depth, queue using search.induct known next hnext bound generalizing n todo new with
  | case1 depth =>
    obtain ⟨rfl, rfl⟩ := List.append_eq_nil_iff.mp hqueue
    rw [search, h.done]
  | case2 depth b queue hbound ih =>
    obtain ⟨n', todo', new', hlayer, rfl⟩ := h.front hqueue
    rw [search, if_pos hbound]
    rw [hlayer.front_depth] at hbound
    have heq : n' = bound := le_antisymm hlayer.le_bound hbound
    obtain rfl := hlayer.new_nil heq
    exact ih (hlayer.skip heq) rfl
  | case3 depth b queue hbound ih =>
    obtain ⟨n', todo', new', hlayer, rfl⟩ := h.front hqueue
    obtain ⟨fresh, hfresh, hmem⟩ := discover_queue depth (todo' ++ new') (next b) (n' + 1)
    rw [search, if_neg hbound]
    rw [hlayer.front_depth] at hbound ih ⊢
    refine ih (hlayer.step (not_le.mp hbound) hmem) ?_
    rw [hfresh, List.append_assoc]

/-- The search from the roots: each gets depth zero and a place in the queue. -/
def distances (known : List α) (next : α → List α) (hnext : ∀ a, ∀ b ∈ next a, b ∈ known) (bound : ℕ) (roots : List α) :
    SortedMap α ℕ :=
  search known next hnext bound (discover ∅ [] 0 roots).1 (discover ∅ [] 0 roots).2

/-- The depths are the distances up to the bound. -/
theorem get?_distances {known : List α} {hnext : ∀ a, ∀ b ∈ next a, b ∈ known} {bound : ℕ} {a : α} {k : ℕ} :
    (distances known next hnext bound roots).get? a = some k ↔ k ≤ bound ∧ IsDistance next roots k a := by
  have hempty : ∀ b : α, (∅ : SortedMap α ℕ).get? b = none := fun _ => rfl
  obtain ⟨fresh, hfresh, hmem⟩ := discover_queue (∅ : SortedMap α ℕ) [] roots 0
  have hroots : ∀ b, b ∈ fresh ↔ IsDistance next roots 0 b := by
    intro b
    rw [hmem, isDistance_zero]
    exact and_iff_left (hempty b)
  rw [distances, hfresh, List.nil_append, ← List.append_nil fresh]
  refine get?_search (n := 0) ⟨fun b m => ?_, fun b hb => (hroots b).mp hb, fun b hb => absurd hb List.not_mem_nil,
    fun b _ hb => ?_, Nat.zero_le bound, fun _ => rfl⟩
  · rw [get?_discover, hempty]
    constructor
    · rintro (hnone | ⟨-, hb, rfl⟩)
      · exact absurd hnone (by simp)
      · exact .inl ⟨le_rfl, isDistance_zero.mpr hb⟩
    · rintro (⟨hle, hdist⟩ | ⟨-, hnil⟩)
      · obtain rfl := Nat.le_zero.mp hle
        exact .inr ⟨rfl, isDistance_zero.mp hdist, rfl⟩
      · exact absurd hnil List.not_mem_nil
  · obtain ⟨c, hc, hcb⟩ := hb.pred
    exact .inr ⟨c, (hroots c).mpr hc, hcb⟩

end Innen.Common.Distances
