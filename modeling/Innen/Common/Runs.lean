import Mathlib.Data.List.Destutter
import Mathlib.Data.List.Nodup
import Mathlib.Data.List.Permutation
import Mathlib.Data.List.Sort
import Mathlib.Order.Basic

/-!
# Sorting by one key and removing neighbours by another

A list is sorted by a label, and of neighbours with one id the first stays. The sort is stable, so an id stays more than
once exactly when, in the list before the sort, an element with another id and the same label stands between two of its
elements (`nodup_sortRuns_iff`).
-/

namespace Innen.Common

variable {α ι κ : Type*}

/-! ## Removing neighbours -/

section Destutter

variable [DecidableEq ι] {w c : List ι} {a : ι}

/-- What has no equal neighbours survives the removal of equal neighbours. -/
theorem sublist_destutter' (hc : c.IsChain (· ≠ ·)) (h : c.Sublist (a :: w)) : c.Sublist (w.destutter' (· ≠ ·) a) := by
  induction w generalizing a c with
  | nil => simpa using h
  | cons b w ih =>
    by_cases hab : a = b
    · subst hab
      rw [List.destutter'_cons_neg _ (not_not.mpr rfl)]
      refine ih hc ?_
      rcases List.sublist_cons_iff.mp h with h | ⟨r, rfl, hr⟩
      · exact h
      · rcases List.sublist_cons_iff.mp hr with hr | ⟨r', rfl, -⟩
        · exact hr.cons_cons a
        · exact absurd rfl (List.isChain_cons_cons.mp hc).1
    · rw [List.destutter'_cons_pos _ hab]
      rcases List.sublist_cons_iff.mp h with h | ⟨r, rfl, hr⟩
      · exact (ih hc h).cons a
      · exact (ih hc.tail hr).cons_cons a

theorem sublist_destutter (hc : c.IsChain (· ≠ ·)) (h : c.Sublist w) : c.Sublist (w.destutter (· ≠ ·)) := by
  cases w with
  | nil => exact h
  | cons a w =>
    rw [List.destutter_cons']
    exact sublist_destutter' hc h

theorem mem_destutter : a ∈ w.destutter (· ≠ ·) ↔ a ∈ w := by
  refine ⟨fun h => (List.destutter_sublist _ w).subset h, fun h => ?_⟩
  exact List.singleton_sublist.mp (sublist_destutter (List.isChain_singleton a) (List.singleton_sublist.mpr h))

omit [DecidableEq ι] in
/-- Where no neighbours are equal, something stands between two equal elements. -/
theorem between_of_isChain (hc : c.IsChain (· ≠ ·)) (h : [a, a].Sublist c) : ∃ b, b ≠ a ∧ [a, b, a].Sublist c := by
  induction c with
  | nil => exact absurd h.length_le (by simp)
  | cons d c ih =>
    rcases List.sublist_cons_iff.mp h with h | ⟨r, heq, hr⟩
    · obtain ⟨b, hb, hsub⟩ := ih hc.tail h
      exact ⟨b, hb, hsub.cons d⟩
    · obtain ⟨rfl, rfl⟩ := List.cons.inj heq
      cases c with
      | nil => exact absurd hr.length_le (by simp)
      | cons e c =>
        have hne : a ≠ e := (List.isChain_cons_cons.mp hc).1
        have hmem : a ∈ c := (List.mem_cons.mp (List.singleton_sublist.mp hr)).resolve_left hne
        exact ⟨e, hne.symm, ((List.singleton_sublist.mpr hmem).cons_cons e).cons_cons a⟩

/-- An element stays twice iff another one stands between two of its occurrences. -/
theorem nodup_destutter_iff : (w.destutter (· ≠ ·)).Nodup ↔ ¬∃ a b, b ≠ a ∧ [a, b, a].Sublist w := by
  rw [← not_iff_not, not_not, List.nodup_iff_sublist, not_forall]
  constructor
  · rintro ⟨a, h⟩
    obtain ⟨b, hb, hsub⟩ := between_of_isChain (List.isChain_destutter _ w) (not_not.mp h)
    exact ⟨a, b, hb, hsub.trans (List.destutter_sublist _ w)⟩
  · rintro ⟨a, b, hb, hsub⟩
    have hchain : [a, b, a].IsChain (· ≠ ·) := by simp [hb, hb.symm]
    refine ⟨a, not_not.mpr (List.Sublist.trans ?_ (sublist_destutter hchain hsub))⟩
    exact ((List.Sublist.refl [a]).cons b).cons_cons a

end Destutter

/-! ## The sort before it -/

variable [DecidableEq ι] [LinearOrder κ] (label : α → κ) (id : α → ι) (l : List α)

/-- Sort by the label. -/
def sortByLabel : List α := l.mergeSort fun a b => decide (label a ≤ label b)

/-- Sort by the label, and keep the first of neighbours with one id. -/
def sortRuns : List α := (sortByLabel label l).destutter fun a b => id a ≠ id b

/-- Between two elements with one id stands one with another id and the same label. -/
def Separated : Prop := ∃ a b c, [a, b, c].Sublist l ∧ id c = id a ∧ id b ≠ id a ∧ label b = label a

theorem perm_sortByLabel : (sortByLabel label l).Perm l := List.mergeSort_perm l _

theorem label_le_trans (a b c : α) (hab : decide (label a ≤ label b) = true) (hbc : decide (label b ≤ label c) = true) :
    decide (label a ≤ label c) = true :=
  decide_eq_true ((of_decide_eq_true hab).trans (of_decide_eq_true hbc))

theorem label_le_total (a b : α) : (decide (label a ≤ label b) || decide (label b ≤ label a)) = true := by
  rw [Bool.or_eq_true, decide_eq_true_eq, decide_eq_true_eq]
  exact le_total _ _

theorem pairwise_sortByLabel : (sortByLabel label l).Pairwise fun a b => label a ≤ label b :=
  (List.pairwise_mergeSort (label_le_trans label) (label_le_total label) l).imp of_decide_eq_true

/-- The elements with one label keep their order. -/
theorem filter_sortByLabel (k : κ) : (sortByLabel label l).filter (label · = k) = l.filter (label · = k) := by
  have hpair : (l.filter (label · = k)).Pairwise fun a b => decide (label a ≤ label b) = true := by
    refine List.pairwise_of_forall_mem_list fun a ha b hb => decide_eq_true (le_of_eq ?_)
    exact (of_decide_eq_true (List.mem_filter.mp ha).2).trans (of_decide_eq_true (List.mem_filter.mp hb).2).symm
  have hsub := List.sublist_mergeSort (label_le_trans label) (label_le_total label) hpair List.filter_sublist
  have hfilter := hsub.filter (label · = k)
  rw [List.filter_filter] at hfilter
  simp only [Bool.and_self] at hfilter
  exact (hfilter.eq_of_length ((perm_sortByLabel label l).filter _).length_eq.symm).symm

theorem pairwise_sortRuns : (sortRuns label id l).Pairwise fun a b => label a ≤ label b :=
  (pairwise_sortByLabel label l).sublist (List.destutter_sublist _ _)

theorem sortRuns_subset {a : α} (h : a ∈ sortRuns label id l) : a ∈ l :=
  (perm_sortByLabel label l).subset ((List.destutter_sublist _ _).subset h)

theorem map_sortRuns : (sortRuns label id l).map id = ((sortByLabel label l).map id).destutter (· ≠ ·) :=
  List.map_destutter fun _ _ _ _ => Iff.rfl

/-- Every id stays. -/
theorem mem_map_sortRuns {x : ι} : x ∈ (sortRuns label id l).map id ↔ x ∈ l.map id := by
  rw [map_sortRuns, mem_destutter]
  exact ((perm_sortByLabel label l).map id).mem_iff

/-- Every id stays once iff no two elements with one id are separated, when the id tells the label. -/
theorem nodup_sortRuns_iff (hlabel : ∀ a ∈ l, ∀ b ∈ l, id a = id b → label a = label b) :
    ((sortRuns label id l).map id).Nodup ↔ ¬Separated label id l := by
  rw [map_sortRuns, nodup_destutter_iff, not_iff_not]
  constructor
  · rintro ⟨x, y, hne, hsub⟩
    obtain ⟨r, hr, heq⟩ := List.sublist_map_iff.mp hsub
    obtain ⟨a, r₁, rfl, rfl, h₁⟩ := List.map_eq_cons_iff.mp heq.symm
    obtain ⟨b, r₂, rfl, rfl, h₂⟩ := List.map_eq_cons_iff.mp h₁
    obtain ⟨c, r₃, rfl, hca, h₃⟩ := List.map_eq_cons_iff.mp h₂
    obtain rfl := List.map_eq_nil_iff.mp h₃
    have hmem : ∀ d ∈ [a, b, c], d ∈ l := fun d hd => (perm_sortByLabel label l).subset (hr.subset hd)
    have hac := hlabel c (hmem c (by simp)) a (hmem a (by simp)) hca
    have hpair := (pairwise_sortByLabel label l).sublist hr
    have hb : label b = label a := by
      simp only [List.pairwise_cons, List.mem_cons, forall_eq_or_imp] at hpair
      exact le_antisymm (hac ▸ hpair.2.1.1) hpair.1.1
    -- the three have one label, and those keep their order
    have hfilter := hr.filter fun d => decide (label d = label a)
    rw [filter_sortByLabel] at hfilter
    have hall : [a, b, c].filter (fun d => decide (label d = label a)) = [a, b, c] := by simp [hb, hac]
    rw [hall] at hfilter
    exact ⟨a, b, c, hfilter.trans List.filter_sublist, hca, hne, hb⟩
  · rintro ⟨a, b, c, hsub, hca, hne, hb⟩
    have hac := hlabel c (hsub.subset (by simp)) a (hsub.subset (by simp)) hca
    have hpair : [a, b, c].Pairwise fun d e => decide (label d ≤ label e) = true := by simp [hb, hac]
    have hsort := List.sublist_mergeSort (label_le_trans label) (label_le_total label) hpair hsub
    refine ⟨id a, id b, hne, ?_⟩
    have hmap := hsort.map id
    rw [List.map_cons, List.map_cons, List.map_cons, List.map_nil, hca] at hmap
    exact hmap

/-! ## Every order of the list -/

/-- An id is listed twice, and another one with the same label is listed too. -/
def Shared : Prop := ∃ a b c, [a, c].Sublist l ∧ b ∈ l ∧ id c = id a ∧ id b ≠ id a ∧ label b = label a

omit [DecidableEq ι] [LinearOrder κ] in
/-- In some order of a list two elements with one id are separated iff there are two of them and another one. -/
theorem exists_perm_separated_iff (hlabel : ∀ a ∈ l, ∀ b ∈ l, id a = id b → label a = label b) :
    (∃ l', l'.Perm l ∧ Separated label id l') ↔ Shared label id l := by
  constructor
  · rintro ⟨l', hperm, a, b, c, hsub, hca, hne, hb⟩
    have hmem : b ∈ l := hperm.subset (hsub.subset (by simp))
    have hac : [a, c].Sublist l' := (((List.Sublist.refl [c]).cons b).cons_cons a).trans hsub
    obtain ⟨r, hr, hrl⟩ := hac.subperm.trans hperm.subperm
    rcases List.perm_pair.mp hr with rfl | rfl
    · exact ⟨a, b, c, hrl, hmem, hca, hne, hb⟩
    · exact ⟨c, b, a, hrl, hmem, hca.symm, fun h => hne (h.trans hca), hb.trans (hlabel a (hrl.subset (by simp)) c
        (hrl.subset (by simp)) hca.symm)⟩
  · rintro ⟨a, b, c, hsub, hmem, hca, hne, hb⟩
    obtain ⟨rest, hrest⟩ := hsub.exists_perm_append
    have hb' : b ∈ rest := by
      rcases List.mem_append.mp (hrest.subset hmem) with hac | hb'
      · rcases List.mem_pair.mp hac with rfl | rfl
        · exact absurd rfl hne
        · exact absurd hca hne
      · exact hb'
    obtain ⟨xs, ys, rfl⟩ := List.append_of_mem hb'
    refine ⟨a :: b :: c :: (xs ++ ys), ?_, a, b, c, ?_, hca, hne, hb⟩
    · have hswap : (b :: c :: (xs ++ ys)).Perm (c :: (xs ++ b :: ys)) :=
        (List.Perm.swap c b _).trans (List.perm_middle.symm.cons c)
      exact (hswap.cons a).trans hrest.symm
    · exact ((((List.nil_sublist _).cons_cons c).cons_cons b).cons_cons a)

end Innen.Common
