import Mathlib.Data.Finset.Card
import Mathlib.Data.List.Nodup
import Mathlib.Data.List.Perm.Subperm

/-!
# Representatives by key

Of the elements of a list with one key the first stays; elements without a key all stay. What is left out is what
repeats a key.
-/

namespace Innen.Common

variable {α β κ : Type*} [DecidableEq κ]

/-- The first elements of their keys, where some keys were seen before. -/
def firstOfKey (key : α → Option κ) : List κ → List α → List α
  | _, [] => []
  | seen, a :: rest =>
    match key a with
    | none => a :: firstOfKey key seen rest
    | some k => if k ∈ seen then firstOfKey key seen rest else a :: firstOfKey key (k :: seen) rest

/-- An element whose key an element before it has. -/
def Repeats (key : α → Option κ) (l : List α) (a : α) : Prop :=
  ∃ before later k, l = before ++ a :: later ∧ key a = some k ∧ ∃ b ∈ before, key b = some k

variable {key : α → Option κ} {a : α} {k : κ}

theorem firstOfKey_cons_none (h : key a = none) (seen : List κ) (rest : List α) :
    firstOfKey key seen (a :: rest) = a :: firstOfKey key seen rest := by
  simp only [firstOfKey, h]

theorem firstOfKey_cons_seen {seen : List κ} (h : key a = some k) (hk : k ∈ seen) (rest : List α) :
    firstOfKey key seen (a :: rest) = firstOfKey key seen rest := by
  simp only [firstOfKey, h, if_pos hk]

theorem firstOfKey_cons_new {seen : List κ} (h : key a = some k) (hk : k ∉ seen) (rest : List α) :
    firstOfKey key seen (a :: rest) = a :: firstOfKey key (k :: seen) rest := by
  simp only [firstOfKey, h, if_neg hk]

/-- The ways in which a first element is treated. -/
theorem firstOfKey_cons_cases (key : α → Option κ) (seen : List κ) (a : α) (rest : List α) :
    (key a = none ∧ firstOfKey key seen (a :: rest) = a :: firstOfKey key seen rest) ∨
      (∃ k, key a = some k ∧ k ∈ seen ∧ firstOfKey key seen (a :: rest) = firstOfKey key seen rest) ∨
      ∃ k, key a = some k ∧ k ∉ seen ∧ firstOfKey key seen (a :: rest) = a :: firstOfKey key (k :: seen) rest := by
  cases h : key a with
  | none => exact .inl ⟨rfl, firstOfKey_cons_none h seen rest⟩
  | some k =>
    by_cases hk : k ∈ seen
    · exact .inr (.inl ⟨k, rfl, hk, firstOfKey_cons_seen h hk rest⟩)
    · exact .inr (.inr ⟨k, rfl, hk, firstOfKey_cons_new h hk rest⟩)

theorem firstOfKey_sublist (key : α → Option κ) (seen : List κ) (l : List α) :
    (firstOfKey key seen l).Sublist l := by
  induction l generalizing seen with
  | nil => exact List.Sublist.refl _
  | cons a rest ih =>
    rcases firstOfKey_cons_cases key seen a rest with ⟨-, h⟩ | ⟨k, -, -, h⟩ | ⟨k, -, -, h⟩ <;> rw [h]
    · exact (ih seen).cons_cons a
    · exact (ih seen).cons a
    · exact (ih (k :: seen)).cons_cons a

theorem firstOfKey_map (f : β → α) (seen : List κ) (l : List β) :
    firstOfKey key seen (l.map f) = (firstOfKey (fun b => key (f b)) seen l).map f := by
  induction l generalizing seen with
  | nil => rfl
  | cons b rest ih =>
    rcases firstOfKey_cons_cases (fun b => key (f b)) seen b rest with ⟨hk, h⟩ | ⟨k, hk, hseen, h⟩ | ⟨k, hk, hseen, h⟩
    · rw [h, List.map_cons, List.map_cons, firstOfKey_cons_none hk, ih]
    · rw [h, List.map_cons, firstOfKey_cons_seen hk hseen, ih]
    · rw [h, List.map_cons, List.map_cons, firstOfKey_cons_new hk hseen, ih]

/-- No key that was seen stays. -/
theorem not_mem_seen {seen : List κ} {l : List α} (h : a ∈ firstOfKey key seen l) (hk : key a = some k) : k ∉ seen := by
  induction l generalizing seen with
  | nil => cases h
  | cons b rest ih =>
    rcases firstOfKey_cons_cases key seen b rest with ⟨hb, heq⟩ | ⟨k', -, -, heq⟩ | ⟨k', hb, hnew, heq⟩ <;> rw [heq] at h
    · rcases List.mem_cons.mp h with rfl | h
      · rw [hb] at hk
        cases hk
      · exact ih h
    · exact ih h
    · rcases List.mem_cons.mp h with rfl | h
      · obtain rfl := Option.some.inj (hb.symm.trans hk)
        exact hnew
      · exact fun hmem => ih h (List.mem_cons_of_mem _ hmem)

/-- What repeats no key stays. -/
theorem mem_firstOfKey {seen : List κ} {l : List α} (ha : a ∈ l) (hseen : ∀ k, key a = some k → k ∉ seen)
    (h : ¬Repeats key l a) : a ∈ firstOfKey key seen l := by
  induction l generalizing seen with
  | nil => cases ha
  | cons b rest ih =>
    have hrest : ¬Repeats key rest a := by
      rintro ⟨before, later, k, rfl, hk, c, hc, hck⟩
      exact h ⟨b :: before, later, k, rfl, hk, c, List.mem_cons_of_mem _ hc, hck⟩
    rcases List.mem_cons.mp ha with rfl | ha
    · rcases firstOfKey_cons_cases key seen a rest with ⟨-, heq⟩ | ⟨k, hk, hmem, -⟩ | ⟨k, -, -, heq⟩
      · rw [heq]
        exact List.mem_cons_self
      · exact absurd hmem (hseen k hk)
      · rw [heq]
        exact List.mem_cons_self
    · rcases firstOfKey_cons_cases key seen b rest with ⟨-, heq⟩ | ⟨k, -, -, heq⟩ | ⟨k, hb, -, heq⟩ <;> rw [heq]
      · exact List.mem_cons_of_mem _ (ih ha hseen hrest)
      · exact ih ha hseen hrest
      · refine List.mem_cons_of_mem _ (ih ha (fun k' hk' hmem => ?_) hrest)
        rcases List.mem_cons.mp hmem with rfl | hmem
        · obtain ⟨before, later, rfl⟩ := List.append_of_mem ha
          exact h ⟨b :: before, later, k', rfl, hk', b, List.mem_cons_self, hb⟩
        · exact hseen k' hk' hmem

/-- What repeats a key does not stay. -/
theorem not_mem_firstOfKey (seen : List κ) {l : List α} (hl : l.Nodup) (h : Repeats key l a) :
    a ∉ firstOfKey key seen l := by
  induction l generalizing seen with
  | nil =>
    obtain ⟨before, later, k, hl', -⟩ := h
    simp at hl'
  | cons b rest ih =>
    obtain ⟨hb, hrest⟩ := List.nodup_cons.mp hl
    obtain ⟨before, later, k, hsplit, hk, c, hc, hck⟩ := h
    cases before with
    | nil => cases hc
    | cons b' before =>
      rw [List.cons_append, List.cons.injEq] at hsplit
      obtain ⟨rfl, rfl⟩ := hsplit
      have hne : a ≠ b := fun heq => hb (heq ▸ List.mem_append_right _ List.mem_cons_self)
      have htail : ∀ seen, (c = b → k ∈ seen) → a ∉ firstOfKey key seen (before ++ a :: later) := by
        intro seen hseen hmem
        rcases List.mem_cons.mp hc with rfl | hc
        · exact not_mem_seen hmem hk (hseen rfl)
        · exact ih _ hrest ⟨before, later, k, rfl, hk, c, hc, hck⟩ hmem
      rcases firstOfKey_cons_cases key seen b (before ++ a :: later) with ⟨hbk, heq⟩ | ⟨k', hbk, hmem, heq⟩ |
        ⟨k', hbk, -, heq⟩ <;> rw [heq]
      · refine List.not_mem_cons_of_ne_of_not_mem hne (htail seen fun heq => ?_)
        rw [heq, hbk] at hck
        cases hck
      · refine htail seen fun heq => ?_
        obtain rfl := Option.some.inj (hbk.symm.trans (heq ▸ hck))
        exact hmem
      · refine List.not_mem_cons_of_ne_of_not_mem hne (htail (k' :: seen) fun heq => ?_)
        obtain rfl := Option.some.inj (hbk.symm.trans (heq ▸ hck))
        exact List.mem_cons_self

/-- A filter that keeps nothing that repeats a key does not see that it is left out. -/
theorem filter_firstOfKey {l : List α} (hl : l.Nodup) (keep : α → Bool) (h : ∀ a, Repeats key l a → keep a = false) :
    (firstOfKey key [] l).filter keep = l.filter keep := by
  have hsub : ((firstOfKey key [] l).filter keep).Sublist (l.filter keep) := (firstOfKey_sublist key [] l).filter keep
  refine hsub.eq_of_length_le ((List.subperm_of_subset (hl.filter keep) fun a ha => ?_).length_le)
  obtain ⟨hmem, hkeep⟩ := List.mem_filter.mp ha
  refine List.mem_filter.mpr ⟨mem_firstOfKey hmem (fun _ _ => List.not_mem_nil) fun hrep => ?_, hkeep⟩
  rw [h a hrep] at hkeep
  cases hkeep

/-- The representatives are the elements without a key, and one element for each new key. -/
theorem length_firstOfKey (key : α → Option κ) (seen : List κ) (l : List α) :
    (firstOfKey key seen l).length =
      (l.filter fun a => (key a).isNone).length + ((l.filterMap key).toFinset \ seen.toFinset).card := by
  induction l generalizing seen with
  | nil => simp [firstOfKey]
  | cons a rest ih =>
    rcases firstOfKey_cons_cases key seen a rest with ⟨hk, h⟩ | ⟨k, hk, hmem, h⟩ | ⟨k, hk, hnew, h⟩
    · rw [h, List.length_cons, ih, List.filter_cons_of_pos (by simp [hk]), List.filterMap_cons_none hk, List.length_cons]
      omega
    · rw [h, ih, List.filter_cons_of_neg (by simp [hk]), List.filterMap_cons_some hk, List.toFinset_cons,
        Finset.insert_sdiff_of_mem _ (List.mem_toFinset.mpr hmem)]
    · have hsplit : (k :: rest.filterMap key).toFinset \ seen.toFinset =
          insert k ((rest.filterMap key).toFinset \ (k :: seen).toFinset) := by
        ext x
        by_cases hx : x = k <;> simp [hx, hnew]
      rw [h, List.length_cons, ih, List.filter_cons_of_neg (by simp [hk]), List.filterMap_cons_some hk, hsplit,
        Finset.card_insert_of_notMem (by simp)]
      omega

/-- How many representatives there are does not depend on the order. -/
theorem length_firstOfKey_perm {l l' : List α} (h : l'.Perm l) :
    (firstOfKey key [] l').length = (firstOfKey key [] l).length := by
  rw [length_firstOfKey, length_firstOfKey, (h.filter _).length_eq,
    List.toFinset_eq_of_perm _ _ (h.filterMap key)]

end Innen.Common
