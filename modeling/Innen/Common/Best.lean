import Mathlib.Data.List.Sort

/-!
# The best few

A list is kept in order and no longer than a limit. What was offered is in the list, or the list is full of items that
come before it (`Placed`); offering further items keeps this. So the list is always the front of all that was offered,
sorted at once (`bestOf_concat`).
-/

namespace Innen.Common

variable {α : Type*} (le : α → α → Prop)

/-- An item is among the best, or the limit is reached by items that come before it. -/
def Placed (limit : ℕ) (best : List α) (a : α) : Prop := a ∈ best ∨ (limit ≤ best.length ∧ ∀ b ∈ best, le b a)

variable [DecidableRel le]

/-- Take an item in and keep the best ones. -/
def keepBest (limit : ℕ) (best : List α) (a : α) : List α := ((best ++ [a]).insertionSort le).take limit

variable {le} {limit : ℕ} {best : List α} {a x : α}

theorem length_keepBest : (keepBest le limit best a).length = min limit (best.length + 1) := by
  rw [keepBest, List.length_take, List.length_insertionSort, List.length_append, List.length_singleton]

theorem mem_of_mem_keepBest (h : x ∈ keepBest le limit best a) : x ∈ best ∨ x = a := by
  have hmem := (List.mem_insertionSort le).mp (List.mem_of_mem_take h)
  rwa [List.mem_append, List.mem_singleton] at hmem

/-- Where there is room nothing is lost. -/
theorem mem_keepBest (hroom : best.length < limit) : x ∈ keepBest le limit best a ↔ x ∈ best ∨ x = a := by
  refine ⟨mem_of_mem_keepBest, fun h => ?_⟩
  rw [keepBest, List.take_of_length_le (by rw [List.length_insertionSort, List.length_append]; exact hroom),
    List.mem_insertionSort, List.mem_append, List.mem_singleton]
  exact h

/-- What is kept once and dropped once was there before. -/
theorem mem_of_kept_and_dropped (hkept : a ∈ keepBest le limit best a)
    (hdropped : a ∈ ((best ++ [a]).insertionSort le).drop limit) : a ∈ best := by
  classical
  have hperm := (List.perm_insertionSort le (best ++ [a])).count_eq a
  rw [← List.take_append_drop limit ((best ++ [a]).insertionSort le), List.count_append, List.count_append,
    List.count_singleton_self] at hperm
  have h₁ := List.count_pos_iff.mpr hkept
  have h₂ := List.count_pos_iff.mpr hdropped
  rw [keepBest] at h₁
  exact List.count_pos_iff.mp (by omega)

variable [Std.Total le] [IsTrans α le]

theorem pairwise_keepBest : (keepBest le limit best a).Pairwise le :=
  (List.pairwise_insertionSort le _).sublist (List.take_sublist _ _)

/-- What is taken in, and what was there before, is placed. -/
theorem placed_of_mem (h : x ∈ best ∨ x = a) : Placed le limit (keepBest le limit best a) x := by
  have hmem : x ∈ (best ++ [a]).insertionSort le := by
    rwa [List.mem_insertionSort, List.mem_append, List.mem_singleton]
  rw [← List.take_append_drop limit ((best ++ [a]).insertionSort le)] at hmem
  rcases List.mem_append.mp hmem with hkept | hdropped
  · exact .inl hkept
  · refine .inr ⟨?_, fun b hb => ?_⟩
    · have hlong : limit < ((best ++ [a]).insertionSort le).length := by
        have := List.length_pos_of_mem hdropped
        rw [List.length_drop] at this
        omega
      exact le_of_eq (List.length_take_of_le hlong.le).symm
    · have hsorted := List.pairwise_insertionSort le (best ++ [a])
      rw [← List.take_append_drop limit ((best ++ [a]).insertionSort le)] at hsorted
      exact (List.pairwise_append.mp hsorted).2.2 b hb x hdropped

/-- What was placed stays placed. -/
theorem Placed.keepBest (h : Placed le limit best x) : Placed le limit (keepBest le limit best a) x := by
  rcases h with hmem | ⟨hfull, hbefore⟩
  · exact placed_of_mem (.inl hmem)
  · refine .inr ⟨by rw [length_keepBest]; omega, fun b hb => ?_⟩
    rcases mem_of_mem_keepBest hb with hold | rfl
    · exact hbefore b hold
    · -- the new item is kept, so another one was dropped
      obtain ⟨d, hd⟩ := List.exists_mem_of_length_pos (l := ((best ++ [b]).insertionSort le).drop limit) (by
        rw [List.length_drop, List.length_insertionSort, List.length_append, List.length_singleton]
        omega)
      have hsorted := List.pairwise_insertionSort le (best ++ [b])
      rw [← List.take_append_drop limit ((best ++ [b]).insertionSort le)] at hsorted
      have hbd : le b d := (List.pairwise_append.mp hsorted).2.2 b hb d hd
      have hd' := (List.mem_insertionSort le).mp (List.mem_of_mem_drop hd)
      rcases List.mem_append.mp hd' with hd' | hd'
      · exact IsTrans.trans _ _ _ hbd (hbefore d hd')
      · rw [List.mem_singleton.mp hd'] at hd
        exact hbefore b (mem_of_kept_and_dropped hb hd)

/-! ## All that was offered -/

section

variable (le) in
/-- The first of a list, in order. -/
def bestOf (limit : ℕ) (l : List α) : List α := (l.insertionSort le).take limit

variable (le) in
/-- Put an item behind those that come before it or are equal to it. -/
def insertBehind (a : α) : List α → List α
  | [] => [a]
  | b :: rest => if le b a then b :: insertBehind a rest else a :: b :: rest

/-- Putting one item in front of its equals and another one behind its equals may be done in either order. -/
theorem orderedInsert_insertBehind (x a : α) (s : List α) :
    (insertBehind le a s).orderedInsert le x = insertBehind le a (s.orderedInsert le x) := by
  induction s with
  | nil =>
    simp only [insertBehind, List.orderedInsert]
  | cons b s ih =>
    by_cases hxb : le x b
    · by_cases hba : le b a
      · have hxa : le x a := IsTrans.trans _ _ _ hxb hba
        simp only [insertBehind, List.orderedInsert, if_pos hxb, if_pos hba, if_pos hxa]
      · by_cases hxa : le x a
        · simp only [insertBehind, List.orderedInsert, if_pos hxb, if_neg hba, if_pos hxa]
        · simp only [insertBehind, List.orderedInsert, if_pos hxb, if_neg hba, if_neg hxa]
    · by_cases hba : le b a
      · simp only [insertBehind, List.orderedInsert, if_neg hxb, if_pos hba, ih]
      · have hab : le a b := (Std.Total.total a b).resolve_right hba
        have hxa : ¬le x a := fun hxa => hxb (IsTrans.trans _ _ _ hxa hab)
        simp only [insertBehind, List.orderedInsert, if_neg hxb, if_neg hba, if_neg hxa]

/-- The last item of a list is sorted in behind its equals. -/
theorem insertionSort_concat (l : List α) (a : α) :
    (l ++ [a]).insertionSort le = insertBehind le a (l.insertionSort le) := by
  induction l with
  | nil => rfl
  | cons x l ih =>
    rw [List.cons_append, List.insertionSort_cons, ih, List.insertionSort_cons, orderedInsert_insertBehind]

omit [Std.Total le] [IsTrans α le] in
/-- Whether an item gets to the front of a list depends on the front only. -/
theorem take_insertBehind (limit : ℕ) (a : α) (s : List α) :
    (insertBehind le a (s.take limit)).take limit = (insertBehind le a s).take limit := by
  induction s generalizing limit with
  | nil => rw [List.take_nil]
  | cons b s ih =>
    cases limit with
    | zero => rw [List.take_zero, List.take_zero]
    | succ limit =>
      rw [List.take_succ_cons, insertBehind, insertBehind]
      split_ifs
      · rw [List.take_succ_cons, List.take_succ_cons, ih]
      · cases limit with
        | zero => rfl
        | succ limit => simp only [List.take_succ_cons, List.take_take, Nat.min_eq_left (Nat.le_succ _)]

omit [Std.Total le] [IsTrans α le] in
theorem insertBehind_of_all {s : List α} (h : ∀ b ∈ s, le b a) : insertBehind le a s = s ++ [a] := by
  induction s with
  | nil => rfl
  | cons b s ih =>
    rw [insertBehind, if_pos (h b List.mem_cons_self), ih fun x hx => h x (List.mem_cons_of_mem _ hx)]
    rfl

/-- Keeping the best of what was kept and of one more item gives the best of all. -/
theorem bestOf_concat (limit : ℕ) (l : List α) (a : α) :
    bestOf le limit (l ++ [a]) = keepBest le limit (bestOf le limit l) a := by
  have hsorted : (bestOf le limit l).insertionSort le = bestOf le limit l :=
    ((List.pairwise_insertionSort le l).sublist (List.take_sublist _ _)).insertionSort_eq
  rw [keepBest, insertionSort_concat, hsorted, bestOf, bestOf, take_insertBehind, insertionSort_concat]

/-- An item that comes behind all of a full list is not taken in. -/
theorem bestOf_concat_of_behind {l : List α} (hfull : limit ≤ (bestOf le limit l).length)
    (hbehind : ∀ b ∈ bestOf le limit l, le b a) : bestOf le limit (l ++ [a]) = bestOf le limit l := by
  have hlength : (bestOf le limit l).length ≤ limit := List.length_take_le _ _
  rw [bestOf, insertionSort_concat, ← take_insertBehind]
  change (insertBehind le a (bestOf le limit l)).take limit = _
  rw [insertBehind_of_all hbehind, List.take_append_of_le_length hfull, List.take_of_length_le hlength]

end

end Innen.Common
