import Mathlib.Data.List.Infix

/-!
# The first place of a text

`str::find` and what follows from it being the first place (`not_prefix_of_lt`), or the only one (`onlyPlace_iff`). Two
words that change sides around a common one are rotations of each other (`exists_rotation`).
-/

namespace Innen.Common

/-! ## Finding -/

/-- `str::find`: how many characters stand before the first place of a text. -/
def findChars (part : List Char) : List Char → Option ℕ
  | [] => if part = [] then some 0 else none
  | c :: cs => if part.isPrefixOf (c :: cs) then some 0 else (findChars part cs).map (· + 1)

/-- A text is at the place where it is found. -/
theorem prefix_of_findChars {part cs : List Char} {n : ℕ} (h : findChars part cs = some n) : part <+: cs.drop n := by
  induction cs generalizing n with
  | nil =>
    rw [findChars] at h
    split at h
    · rename_i hpart
      rw [hpart]
      exact List.nil_prefix
    · cases h
  | cons c cs ih =>
    rw [findChars] at h
    split at h
    · rename_i hpart
      obtain rfl := Option.some.inj h
      exact List.isPrefixOf_iff_prefix.mp hpart
    · obtain ⟨m, hm, rfl⟩ := Option.map_eq_some_iff.mp h
      exact ih hm

/-- A text that is somewhere is found there or before. -/
theorem exists_findChars {part cs : List Char} {m : ℕ} (h : part <+: cs.drop m) (hm : m ≤ cs.length) :
    ∃ n ≤ m, findChars part cs = some n := by
  induction cs generalizing m with
  | nil =>
    rw [List.drop_nil, List.prefix_nil] at h
    exact ⟨0, Nat.zero_le m, by rw [findChars, if_pos h]⟩
  | cons c cs ih =>
    by_cases hpart : part.isPrefixOf (c :: cs) = true
    · exact ⟨0, Nat.zero_le m, by rw [findChars, if_pos hpart]⟩
    · cases m with
      | zero => exact absurd (List.isPrefixOf_iff_prefix.mpr h) hpart
      | succ m =>
        obtain ⟨n, hn, hfind⟩ := ih h (Nat.le_of_succ_le_succ hm)
        exact ⟨n + 1, Nat.succ_le_succ hn, by rw [findChars, if_neg hpart, hfind]; rfl⟩

/-- A text is not before the place where it is found. -/
theorem not_prefix_of_lt {part cs : List Char} {n m : ℕ} (h : findChars part cs = some n) (hm : m < n) :
    ¬part <+: cs.drop m := by
  intro hpart
  have hlen : m ≤ cs.length := by
    by_contra hlong
    rw [List.drop_eq_nil_of_le (by omega), List.prefix_nil] at hpart
    subst hpart
    cases cs with
    | nil =>
      obtain rfl := Option.some.inj h
      omega
    | cons c cs =>
      obtain rfl := Option.some.inj h
      omega
  obtain ⟨k, hk, hfind⟩ := exists_findChars hpart hlen
  rw [h, Option.some.injEq] at hfind
  omega

/-! ## The only place -/

/-- A text stands behind so many characters and nowhere else; places may overlap. -/
def OnlyPlace (part cs : List Char) (n : ℕ) : Prop := ∀ m, part <+: cs.drop m ↔ m = n

/-- The first place is the only one iff the text is not in what follows the first character of that place. -/
theorem onlyPlace_iff {part cs : List Char} (hpart : part ≠ []) {n : ℕ} :
    OnlyPlace part cs n ↔ findChars part cs = some n ∧ ¬part <:+: cs.drop (n + 1) := by
  constructor
  · intro honly
    have hplace : part <+: cs.drop n := (honly n).mpr rfl
    have hlen : n ≤ cs.length := by
      by_contra hlong
      rw [List.drop_eq_nil_of_le (by omega), List.prefix_nil] at hplace
      exact hpart hplace
    constructor
    · obtain ⟨k, -, hfind⟩ := exists_findChars hplace hlen
      rw [hfind, (honly k).mp (prefix_of_findChars hfind)]
    · rintro ⟨s, t, hst⟩
      have hlater : part <+: cs.drop (n + 1 + s.length) := by
        rw [← List.drop_drop, ← hst, List.append_assoc, List.drop_left]
        exact List.prefix_append part t
      have hsame := (honly _).mp hlater
      omega
  · rintro ⟨hfind, hrest⟩ m
    constructor
    · intro hplace
      rcases lt_trichotomy m n with hlt | heq | hgt
      · exact absurd hplace (not_prefix_of_lt hfind hlt)
      · exact heq
      · refine absurd ?_ hrest
        have hdrop : cs.drop m = (cs.drop (n + 1)).drop (m - (n + 1)) := by
          rw [List.drop_drop]
          congr 1
          omega
        rw [hdrop] at hplace
        exact hplace.isInfix.trans (List.drop_suffix _ _).isInfix
    · rintro rfl
      exact prefix_of_findChars hfind

/-! ## Rotations -/

/-- If `r` followed by `t` is `x` followed by `r`, then `t` is `x` with its first part moved behind. -/
theorem exists_rotation {α : Type*} {r t x : List α} (h : r ++ t = x ++ r) :
    ∃ u v, x = u ++ v ∧ t = v ++ u := by
  induction hn : r.length using Nat.strong_induction_on generalizing r with
  | _ n ih =>
    rcases List.append_eq_append_iff.mp h with ⟨v, rfl, rfl⟩ | ⟨r', rfl, hr⟩
    · exact ⟨r, v, rfl, rfl⟩
    · cases x with
      | nil =>
        rw [List.nil_append] at hr
        exact ⟨[], [], rfl, List.append_right_eq_self.mp hr.symm⟩
      | cons a x =>
        refine ih r'.length ?_ hr.symm rfl
        rw [← hn, List.length_append, List.length_cons]
        omega

end Innen.Common
