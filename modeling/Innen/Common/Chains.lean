import Mathlib.Logic.ExistsUnique
import Mathlib.Logic.Relation

/-!
# Chains of replacements

A relation says what replaces what. Following it backwards from an element leads to the elements that nothing
replaces, its heads. One more replacement keeps the relation without cycles iff it does not replace something above
the replacement (`acyclic_addEdge_iff`), and then it keeps heads unique iff what it replaces was a head itself, or
belongs to a chain with the same head already (`uniqueHeads_addEdge_iff`).
-/

namespace Innen.Common

open Relation

variable {α : Type*} {r : α → α → Prop} {a b h h' x y : α}

/-- A relation without cycles. -/
def Acyclic (r : α → α → Prop) : Prop := ∀ x, ¬TransGen r x x

/-- An element at the end of the chain from `x` upwards. -/
structure IsHead (r : α → α → Prop) (h x : α) : Prop where
  reaches : ReflTransGen r h x
  top : ∀ y, ¬r y h

/-- A relation with one more pair. -/
def addEdge (r : α → α → Prop) (a b x y : α) : Prop := r x y ∨ x = a ∧ y = b

theorem isHead_self (htop : ∀ y, ¬r y x) : IsHead r x x := ⟨.refl, htop⟩

/-- Nothing but itself is above an element that nothing replaces. -/
theorem IsHead.eq_of_reaches (hh : IsHead r h x) (hy : ReflTransGen r y h) : y = h := by
  rcases ReflTransGen.cases_tail hy with heq | ⟨z, -, hz⟩
  · exact heq.symm
  · exact absurd hz (hh.top z)

theorem IsHead.mono_right (hh : IsHead r h x) (hxy : ReflTransGen r x y) : IsHead r h y :=
  ⟨hh.reaches.trans hxy, hh.top⟩

/-- A way that may use the new pair uses it once at most. -/
theorem reflTransGen_addEdge_iff :
    ReflTransGen (addEdge r a b) x y ↔ ReflTransGen r x y ∨ ReflTransGen r x a ∧ ReflTransGen r b y := by
  constructor
  · intro hxy
    induction hxy with
    | refl => exact .inl .refl
    | tail _ hstep ih =>
      rcases hstep with hstep | ⟨rfl, rfl⟩
      · exact ih.imp (.tail · hstep) fun h => ⟨h.1, h.2.tail hstep⟩
      · exact .inr ⟨ih.elim id And.left, .refl⟩
  · have hmono : ∀ {x y}, ReflTransGen r x y → ReflTransGen (addEdge r a b) x y :=
      fun h => ReflTransGen.mono (fun _ _ => .inl) _ _ h
    rintro (hxy | ⟨hxa, hby⟩)
    · exact hmono hxy
    · exact ((hmono hxa).tail (.inr ⟨rfl, rfl⟩)).trans (hmono hby)

theorem acyclic_addEdge_iff : Acyclic (addEdge r a b) ↔ Acyclic r ∧ ¬ReflTransGen r b a := by
  constructor
  · intro hacyclic
    refine ⟨fun x hx => hacyclic x (TransGen.mono (fun _ _ => .inl) _ _ hx), fun hba => hacyclic a ?_⟩
    exact TransGen.head' (.inr ⟨rfl, rfl⟩) (ReflTransGen.mono (fun _ _ => .inl) _ _ hba)
  · rintro ⟨hacyclic, hba⟩ x hx
    obtain ⟨y, hxy, hyx⟩ := TransGen.head'_iff.mp hx
    rw [reflTransGen_addEdge_iff] at hyx
    rcases hxy with hxy | ⟨rfl, rfl⟩
    · rcases hyx with hyx | ⟨hya, hbx⟩
      · exact hacyclic x (TransGen.head' hxy hyx)
      · exact hba ((hbx.tail hxy).trans hya)
    · exact hba (hyx.elim id And.left)

/-- The heads with one more pair: those there were, but for what is replaced now. -/
theorem isHead_addEdge_iff : IsHead (addEdge r a b) h x ↔
    h ≠ b ∧ (IsHead r h x ∨ IsHead r h a ∧ ReflTransGen r b x) := by
  constructor
  · rintro ⟨hreaches, htop⟩
    have htop' : ∀ y, ¬r y h := fun y hy => htop y (.inl hy)
    refine ⟨fun heq => htop a (.inr ⟨rfl, heq⟩), ?_⟩
    exact (reflTransGen_addEdge_iff.mp hreaches).imp (⟨·, htop'⟩) fun hr => ⟨⟨hr.1, htop'⟩, hr.2⟩
  · rintro ⟨hne, hh⟩
    refine ⟨reflTransGen_addEdge_iff.mpr (hh.imp IsHead.reaches fun hh => ⟨hh.1.reaches, hh.2⟩), ?_⟩
    rintro y (hy | ⟨-, rfl⟩)
    · exact hh.elim (·.top y hy) (·.1.top y hy)
    · exact hne rfl

/-- With one more pair every element still has one head, if what is replaced was a head or had the same one. -/
theorem uniqueHead_addEdge (hr : ∀ x, ∃! h, IsHead r h x) (hba : ¬ReflTransGen r b a)
    (hb : (∀ y, ¬r y b) ∨ ∃ h, IsHead r h a ∧ IsHead r h b) (x : α) : ∃! h, IsHead (addEdge r a b) h x := by
  obtain ⟨top, htop, -⟩ := hr a
  have hne : top ≠ b := fun heq => hba (heq ▸ htop.reaches)
  obtain ⟨g, hg, hguniq⟩ := hr x
  simp only [isHead_addEdge_iff]
  rcases hb with hb | ⟨h, hha, hhb⟩
  · -- What is replaced was a head: its chain is continued by the one above.
    by_cases hgb : g = b
    · subst hgb
      refine ⟨top, ⟨hne, .inr ⟨htop, hg.reaches⟩⟩, ?_⟩
      rintro h ⟨hhb, hh | hh⟩
      · exact absurd (hguniq h hh) hhb
      · exact (hr a).unique hh.1 htop
    · refine ⟨g, ⟨hgb, .inl hg⟩, ?_⟩
      rintro h ⟨-, hh | hh⟩
      · exact hguniq h hh
      · exact absurd (hguniq b ⟨hh.2, hb⟩).symm hgb
  · -- What is replaced has the same head: no chain gets another one.
    have htop' : IsHead r top b := (hr a).unique hha htop ▸ hhb
    have hgb : g ≠ b := by
      rintro rfl
      exact hne (hg.eq_of_reaches htop'.reaches)
    refine ⟨g, ⟨hgb, .inl hg⟩, ?_⟩
    rintro h ⟨-, hh | hh⟩
    · exact hguniq h hh
    · have heq : h = top := (hr a).unique hh.1 htop
      exact hguniq h (heq ▸ htop'.mono_right hh.2)

/-- If what is replaced has one head afterwards, it was a head or had the same one. -/
theorem head_of_uniqueHead_addEdge (hra : ∃ h, IsHead r h a) (hrb : ∃ h, IsHead r h b) (hba : ¬ReflTransGen r b a)
    (hunique : ∃! h, IsHead (addEdge r a b) h b) :
    (∀ y, ¬r y b) ∨ ∃ h, IsHead r h a ∧ IsHead r h b := by
  obtain ⟨top, htop⟩ := hra
  obtain ⟨g, hg⟩ := hrb
  by_cases hgb : g = b
  · exact .inl (hgb ▸ hg.top)
  · have hne : top ≠ b := fun heq => hba (heq ▸ htop.reaches)
    have heq : top = g := hunique.unique (isHead_addEdge_iff.mpr ⟨hne, .inr ⟨htop, .refl⟩⟩)
      (isHead_addEdge_iff.mpr ⟨hgb, .inl hg⟩)
    exact .inr ⟨top, htop, heq ▸ hg⟩

end Innen.Common
