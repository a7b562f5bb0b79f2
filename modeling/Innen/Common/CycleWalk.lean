import Innen.Common.Chains
import Innen.Common.Worklist

/-!
# Looking for a cycle with a stack

A map gives every known element the elements it points to. From a root everything it leads to is visited with a stack;
the walk fails at the root itself and at an element the map does not know. When the walk ends well from every known
element, every target is known and the map has no cycle (`acyclic_of_walks`).
-/

namespace Innen.Common.CycleWalk

open Relation

variable {α ε : Type*} [LinearOrder α]

/-- The loop: take the top of the stack off, and push what it points to when it is seen for the first time. -/
def walk (edges : SortedMap α (List α)) (cycle missing : ε) (root : α) (seen : SortedSet α) : List α → Except ε Unit
  | [] => .ok ()
  | id :: pending =>
    if id = root then .error cycle
    else match _hnext : edges.get? id with
      | none => .error missing
      | some next =>
        if _hseen : id ∈ seen then walk edges cycle missing root seen pending
        else walk edges cycle missing root (seen.insert id) (next.reverse ++ pending)
termination_by pending => (Worklist.unmarked edges.keys seen, pending.length)
decreasing_by
  · exact Prod.Lex.right _ (by simp)
  · apply Prod.Lex.left
    exact Worklist.unmarked_insert_lt (edges.mem_keys_iff.mpr (by simp [_hnext])) _hseen

variable {edges : SortedMap α (List α)} {cycle missing : ε} {root : α}

/-- One element points to another one. -/
def Points (edges : SortedMap α (List α)) (a b : α) : Prop := ∃ next, edges.get? a = some next ∧ b ∈ next

/-- The element is known, is not the root, and leads to such elements only. -/
def Clear (edges : SortedMap α (List α)) (root a : α) : Prop :=
  ∀ b, ReflTransGen (Points edges) a b → b ≠ root ∧ (edges.get? b).isSome

/-- What was seen is known and is not the root, and what it points to was seen or is pending. -/
def Explored (edges : SortedMap α (List α)) (root : α) (seen : SortedSet α) (pending : List α) : Prop :=
  ∀ a ∈ seen, a ≠ root ∧ ∃ next, edges.get? a = some next ∧ ∀ b ∈ next, b ∈ seen ∨ b ∈ pending

/-- With nothing pending, everything seen is clear. -/
theorem Explored.clear {seen : SortedSet α} (h : Explored edges root seen []) {a : α} (ha : a ∈ seen) :
    Clear edges root a := by
  intro b hab
  have hb : b ∈ seen := by
    induction hab with
    | refl => exact ha
    | tail _ hstep ih =>
      obtain ⟨next, hnext, hmem⟩ := hstep
      obtain ⟨-, next', hnext', hall⟩ := h _ ih
      obtain rfl : next = next' := Option.some.inj (hnext.symm.trans hnext')
      exact (hall _ hmem).resolve_right List.not_mem_nil
  obtain ⟨hne, next, hnext, -⟩ := h b hb
  exact ⟨hne, by simp [hnext]⟩

/-- A walk that ends well leaves everything seen and everything pending clear. -/
theorem clear_of_walk {seen : SortedSet α} {pending : List α} (hseen : Explored edges root seen pending)
    (h : walk edges cycle missing root seen pending = .ok ()) : ∀ a, a ∈ seen ∨ a ∈ pending → Clear edges root a := by
  induction seen, pending using walk.induct edges root with
  | case1 seen =>
    intro a ha
    exact hseen.clear (ha.resolve_right List.not_mem_nil)
  | case2 seen pending => simp [walk] at h
  | case3 seen id pending hroot hnext =>
    rw [walk, if_neg hroot] at h
    split at h
    · exact absurd h (by simp)
    · rename_i next heq
      exact absurd (hnext.symm.trans heq) (by simp)
  | case4 seen id pending hroot next hnext hmem ih =>
    rw [walk, if_neg hroot] at h
    split at h
    · exact absurd h (by simp)
    · rw [dif_pos hmem] at h
      have hexplored : Explored edges root seen pending := by
        intro a ha
        obtain ⟨hne, targets, htargets, hall⟩ := hseen a ha
        refine ⟨hne, targets, htargets, fun b hb => ?_⟩
        rcases hall b hb with hb | hb
        · exact .inl hb
        · rcases List.mem_cons.mp hb with rfl | hb
          · exact .inl hmem
          · exact .inr hb
      intro a ha
      refine ih hexplored h a (ha.elim .inl fun ha => ?_)
      rcases List.mem_cons.mp ha with rfl | ha
      · exact .inl hmem
      · exact .inr ha
  | case5 seen id pending hroot next hnext hfresh ih =>
    rw [walk, if_neg hroot] at h
    split at h
    · exact absurd h (by simp)
    · rename_i next' heq
      obtain rfl : next = next' := Option.some.inj (hnext.symm.trans heq)
      rw [dif_neg hfresh] at h
      have hexplored : Explored edges root (seen.insert id) (next.reverse ++ pending) := by
        intro a ha
        rcases SortedSet.mem_insert.mp ha with rfl | ha
        · exact ⟨hroot, next, hnext, fun b hb => .inr (List.mem_append_left _ (List.mem_reverse.mpr hb))⟩
        · obtain ⟨hne, targets, htargets, hall⟩ := hseen a ha
          refine ⟨hne, targets, htargets, fun b hb => ?_⟩
          rcases hall b hb with hb | hb
          · exact .inl (SortedSet.mem_insert.mpr (.inr hb))
          · rcases List.mem_cons.mp hb with rfl | hb
            · exact .inl (SortedSet.mem_insert.mpr (.inl rfl))
            · exact .inr (List.mem_append_right _ hb)
      intro a ha
      refine ih hexplored h a ?_
      rcases ha with ha | ha
      · exact .inl (SortedSet.mem_insert.mpr (.inr ha))
      · rcases List.mem_cons.mp ha with rfl | ha
        · exact .inl (SortedSet.mem_insert.mpr (.inl rfl))
        · exact .inr (List.mem_append_right _ ha)

/-- The walk from the root over its own targets, as it starts. -/
theorem clear_targets_of_walk {targets : List α}
    (h : walk edges cycle missing root ∅ targets.reverse = .ok ()) {b : α} (hb : b ∈ targets) : Clear edges root b :=
  clear_of_walk (fun a ha => absurd ha List.not_mem_nil) h b (.inr (List.mem_reverse.mpr hb))

/-- If the walk from every known element ends well, all targets are known and there is no cycle. -/
theorem acyclic_of_walks
    (h : ∀ a targets, edges.get? a = some targets → walk edges cycle missing a ∅ targets.reverse = .ok ()) :
    (∀ a b, Points edges a b → (edges.get? b).isSome) ∧ Acyclic (Points edges) := by
  have hclear : ∀ a b, Points edges a b → Clear edges a b := by
    rintro a b ⟨targets, htargets, hb⟩
    exact clear_targets_of_walk (h a targets htargets) hb
  refine ⟨fun a b hab => (hclear a b hab b .refl).2, ?_⟩
  intro a hcycle
  obtain ⟨b, hab, hba⟩ := TransGen.head'_iff.mp hcycle
  exact (hclear a b hab a hba).1 rfl

end Innen.Common.CycleWalk
