import Innen.Common.SortedMap

/-!
# Greedy admission

Candidates come one after the other, and each is taken when the set with it is still admissible. No order and no
monotonicity of what is admissible is assumed: whether a candidate is taken is told by the candidates taken before it
(`mem_foldl_letIn_iff`).
-/

namespace Innen.Common

variable {α : Type*} [LinearOrder α] {fits : SortedSet α → Bool} {s : SortedSet α} {l pre post : List α} {a b : α}

/-- Take a candidate when the set with it is admissible. -/
def letIn (fits : SortedSet α → Bool) (s : SortedSet α) (a : α) : SortedSet α :=
  if fits (s.insert a) then s.insert a else s

theorem mem_letIn : b ∈ letIn fits s a ↔ b ∈ s ∨ b = a ∧ fits (s.insert a) = true := by
  rw [letIn]
  split
  · rename_i hfits
    rw [SortedSet.mem_insert]
    exact ⟨fun h => h.elim (fun h => .inr ⟨h, hfits⟩) .inl, fun h => h.elim .inr fun h => .inl h.1⟩
  · rename_i hfits
    exact ⟨.inl, fun h => h.elim id fun h => absurd h.2 hfits⟩

/-- What is taken stays taken. -/
theorem subset_foldl_letIn (hb : b ∈ s) : b ∈ l.foldl (letIn fits) s := by
  induction l generalizing s with
  | nil => exact hb
  | cons a rest ih => exact ih (mem_letIn.mpr (.inl hb))

/-- What is not a candidate is not taken. -/
theorem mem_of_mem_foldl_letIn (hb : b ∈ l.foldl (letIn fits) s) : b ∈ s ∨ b ∈ l := by
  induction l generalizing s with
  | nil => exact .inl hb
  | cons a rest ih =>
    rcases ih hb with hb | hb
    · rcases mem_letIn.mp hb with hb | ⟨rfl, -⟩
      · exact .inl hb
      · exact .inr List.mem_cons_self
    · exact .inr (List.mem_cons_of_mem a hb)

/-- The set stays admissible. -/
theorem fits_foldl_letIn (hs : fits s = true) : fits (l.foldl (letIn fits) s) = true := by
  induction l generalizing s with
  | nil => exact hs
  | cons a rest ih =>
    refine ih ?_
    rw [letIn]
    split
    · assumption
    · exact hs

/-- What comes later does not matter to what was a candidate before. -/
theorem mem_foldl_letIn_append (hb : b ∉ post) :
    b ∈ (pre ++ post).foldl (letIn fits) s ↔ b ∈ pre.foldl (letIn fits) s := by
  rw [List.foldl_append]
  exact ⟨fun h => (mem_of_mem_foldl_letIn h).resolve_right hb, subset_foldl_letIn⟩

/-- A candidate is taken iff it is admissible with what was taken before it. -/
theorem mem_foldl_letIn_iff (hs : a ∉ s) (hpre : a ∉ pre) (hpost : a ∉ post) :
    a ∈ (pre ++ a :: post).foldl (letIn fits) s ↔ fits ((pre.foldl (letIn fits) s).insert a) = true := by
  have hbefore : a ∉ pre.foldl (letIn fits) s := fun h => (mem_of_mem_foldl_letIn h).elim hs hpre
  rw [List.append_cons, mem_foldl_letIn_append hpost, List.foldl_append, List.foldl_cons, List.foldl_nil, mem_letIn]
  exact ⟨fun h => (h.resolve_left hbefore).2, fun h => .inr ⟨rfl, h⟩⟩

end Innen.Common
