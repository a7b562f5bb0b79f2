import Mathlib.Data.List.DropRight
import Mathlib.Data.List.Infix

/-!
# Texts in segments

A text split at a separator, such as a path: what stands before and after the last separator, the pieces of the split,
and the leading pieces that several texts share.
-/

namespace Innen.Common.Segments

variable {α : Type*} [DecidableEq α]

/-- What stands before the last separator, nothing without one. -/
def before (sep : α) (cs : List α) : List α := (cs.rdropWhile (· ≠ sep)).dropLast

/-- What stands after the last separator, all of it without one. -/
def after (sep : α) (cs : List α) : List α := cs.rtakeWhile (· ≠ sep)

/-! ## Around the last separator -/

theorem not_mem_after (sep : α) (cs : List α) : sep ∉ after sep cs := by
  intro h
  simpa using List.mem_rtakeWhile_imp h

theorem after_of_not_mem {sep : α} {cs : List α} (h : sep ∉ cs) : after sep cs = cs := by
  refine List.rtakeWhile_eq_self_iff.mpr fun x hx => ?_
  simpa using fun heq : x = sep => h (heq ▸ hx)

theorem before_of_not_mem {sep : α} {cs : List α} (h : sep ∉ cs) : before sep cs = [] := by
  rw [before, List.rdropWhile_eq_nil_iff.mpr fun x hx => ?_, List.dropLast_nil]
  simpa using fun heq : x = sep => h (heq ▸ hx)

theorem before_append_after {sep : α} {cs : List α} (h : sep ∈ cs) : before sep cs ++ sep :: after sep cs = cs := by
  have hne : cs.rdropWhile (· ≠ sep) ≠ [] := by
    intro hnil
    simpa using List.rdropWhile_eq_nil_iff.mp hnil sep h
  have hlast : (cs.rdropWhile (· ≠ sep)).getLast hne = sep := by simpa using List.rdropWhile_last_not _ _ hne
  have hjoin : before sep cs ++ [sep] = cs.rdropWhile (· ≠ sep) := by
    have happend := List.dropLast_append_getLast hne
    rwa [hlast] at happend
  calc before sep cs ++ sep :: after sep cs
      = (before sep cs ++ [sep]) ++ after sep cs := by rw [List.append_assoc, List.singleton_append]
    _ = cs.rdropWhile (· ≠ sep) ++ cs.rtakeWhile (· ≠ sep) := by rw [hjoin, after]
    _ = cs := List.rdropWhile_append_rtakeWhile

/-- The last separator is the one that no other follows. -/
theorem before_after_append {sep : α} {dir name : List α} (h : sep ∉ name) :
    before sep (dir ++ sep :: name) = dir ∧ after sep (dir ++ sep :: name) = name := by
  induction name using List.reverseRecOn with
  | nil => simp [before, after]
  | append_singleton name c ih =>
    have hc : c ≠ sep := fun heq => h (by simp [heq])
    have hname : sep ∉ name := fun hmem => h (by simp [hmem])
    have hsplit : dir ++ sep :: (name ++ [c]) = (dir ++ sep :: name) ++ [c] := by simp
    obtain ⟨hbefore, hafter⟩ := ih hname
    rw [hsplit, before, after, List.rdropWhile_concat_pos _ _ _ (by simpa using hc),
      List.rtakeWhile_concat_pos _ _ _ (by simpa using hc)]
    exact ⟨hbefore, by rw [← after, hafter]⟩

theorem splitOn_eq_before_after {sep : α} {cs : List α} (h : sep ∈ cs) :
    cs.splitOn sep = (before sep cs).splitOn sep ++ [after sep cs] := by
  conv_lhs => rw [← before_append_after h]
  rw [List.splitOn_append_cons_self, List.splitOn_eq_singleton (not_mem_after sep cs)]

/-! ## Pieces -/

theorem not_mem_of_mem_splitOn {sep : α} {cs piece : List α} (h : piece ∈ cs.splitOn sep) : sep ∉ piece := by
  induction cs generalizing piece with
  | nil =>
    rw [List.splitOn_nil, List.mem_singleton] at h
    simp [h]
  | cons c cs ih =>
    rw [List.splitOn_cons_eq_if_modifyHead] at h
    split at h
    · obtain rfl | h := List.mem_cons.mp h
      · exact List.not_mem_nil
      · exact ih h
    · rename_i hc
      obtain ⟨hd, tl, htl⟩ := List.exists_cons_of_ne_nil (List.splitOn_ne_nil sep cs)
      rw [htl, List.modifyHead_cons] at h
      obtain rfl | h := List.mem_cons.mp h
      · rintro (_ | ⟨_, hmem⟩)
        · simp at hc
        · exact ih (htl ▸ List.mem_cons_self) hmem
      · exact ih (htl ▸ List.mem_cons_of_mem _ h)

/-- Pieces written one after the other, each behind a separator. -/
theorem splitOn_append_flatMap {sep : α} {x : List α} {pieces : List (List α)} (hx : sep ∉ x)
    (h : ∀ p ∈ pieces, sep ∉ p) : (x ++ pieces.flatMap (sep :: ·)).splitOn sep = x :: pieces := by
  induction pieces generalizing x with
  | nil => simpa using List.splitOn_eq_singleton hx
  | cons p pieces ih =>
    rw [List.flatMap_cons, List.cons_append, List.splitOn_append_cons_self_of_not_mem hx,
      ih (h p List.mem_cons_self) fun q hq => h q (List.mem_cons_of_mem _ hq)]

omit [DecidableEq α] in
theorem intercalate_append (sep : α) {xs ys : List (List α)} (hx : xs ≠ []) (hy : ys ≠ []) :
    [sep].intercalate (xs ++ ys) = [sep].intercalate xs ++ sep :: [sep].intercalate ys := by
  induction xs with
  | nil => exact absurd rfl hx
  | cons x xs ih =>
    cases xs with
    | nil => simp [List.intercalate_cons_of_ne_nil hy]
    | cons x' xs =>
      have hnext := ih (List.cons_ne_nil x' xs)
      rw [List.cons_append, List.intercalate_cons_of_ne_nil (by simp), hnext,
        List.intercalate_cons_of_ne_nil (List.cons_ne_nil x' xs)]
      simp only [List.append_assoc, List.cons_append, List.nil_append]

/-- A text whose pieces go on from given ones is their text, or goes on behind a separator. -/
theorem eq_or_append_of_prefix {sep : α} {parts : List (List α)} {cs : List α} (hne : parts ≠ [])
    (h : parts <+: cs.splitOn sep) :
    cs = [sep].intercalate parts ∨ ∃ rest, rest ≠ [] ∧ cs.splitOn sep = parts ++ rest ∧
      cs = [sep].intercalate parts ++ sep :: [sep].intercalate rest := by
  obtain ⟨rest, hrest⟩ := h
  have hcs : cs = [sep].intercalate (parts ++ rest) := by rw [hrest, List.intercalate_splitOn]
  by_cases hnil : rest = []
  · rw [hnil, List.append_nil] at hcs
    exact .inl hcs
  · rw [intercalate_append sep hne hnil] at hcs
    exact .inr ⟨rest, hnil, hrest.symm, hcs⟩

/-! ## Shared pieces -/

/-- The leading elements that two lists share. -/
def common (xs ys : List α) : List α := xs.take ((xs.zip ys).takeWhile fun p => p.1 = p.2).length

theorem common_prefix_left (xs ys : List α) : common xs ys <+: xs := List.take_prefix _ _

theorem common_prefix_right (xs ys : List α) : common xs ys <+: ys := by
  induction xs generalizing ys with
  | nil => exact List.nil_prefix
  | cons x xs ih =>
    cases ys with
    | nil => exact List.prefix_rfl
    | cons y ys =>
      by_cases h : x = y
      · subst h
        have hstep : common (x :: xs) (x :: ys) = x :: common xs ys := by simp [common]
        rw [hstep]
        exact List.cons_prefix_cons.mpr ⟨rfl, ih ys⟩
      · have hstep : common (x :: xs) (y :: ys) = [] := by simp [common, h]
        rw [hstep]
        exact List.nil_prefix

/-- What all lists share leads each of them. -/
theorem foldl_common_leads (lists : List (List α)) (start : List α) :
    lists.foldl common start <+: start ∧ ∀ l ∈ lists, lists.foldl common start <+: l := by
  induction lists generalizing start with
  | nil => exact ⟨List.prefix_rfl, fun l hl => absurd hl List.not_mem_nil⟩
  | cons l lists ih =>
    obtain ⟨hstart, hall⟩ := ih (common start l)
    refine ⟨hstart.trans (common_prefix_left start l), fun l' hl' => ?_⟩
    obtain rfl | hl' := List.mem_cons.mp hl'
    · exact hstart.trans (common_prefix_right start l')
    · exact hall l' hl'

end Innen.Common.Segments
