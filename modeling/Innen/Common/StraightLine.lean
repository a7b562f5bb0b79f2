import Mathlib.Data.List.Basic
import Mathlib.Data.List.GetD
import Mathlib.Data.List.Induction

/-!
# Straight-line grammars

A list of rules, each of which is an atom or joins two rules before it, gives a word to every rule, and so to a
sequence of rules. Where two neighbours of a sequence are replaced by a rule that joins them the word of the sequence
is the same (`expand_replacePair`).
-/

namespace Innen.Common.StraightLine

variable {α : Type*}

/-- A rule stands for an atom, or for two rules one behind the other. -/
inductive Rule (α : Type*)
  | atom (a : α)
  | pair (left right : ℕ)
deriving DecidableEq

/-- The word of a rule, by the words of the rules before it. -/
def Rule.word (words : List (List α)) : Rule α → List α
  | .atom a => [a]
  | .pair left right => words.getD left [] ++ words.getD right []

/-- The words of rules in their order. -/
def wordsOf (rules : List (Rule α)) : List (List α) := rules.foldl (fun words rule => words ++ [rule.word words]) []

/-- The word of a sequence of rules. -/
def expand (words : List (List α)) (seq : List ℕ) : List α := seq.flatMap fun id => words.getD id []

/-- Every rule refers to atoms and to rules before it. -/
def Grounded (rules : List (Rule α)) : Prop :=
  ∀ i left right, rules[i]? = some (Rule.pair left right) → left < i ∧ right < i

/-- Replace a pair of neighbours by a rule, from left to right and without overlaps. -/
def replacePair (pair : ℕ × ℕ) (id : ℕ) : List ℕ → List ℕ
  | a :: b :: rest => if (a, b) = pair then id :: replacePair pair id rest else a :: replacePair pair id (b :: rest)
  | seq => seq

/-! ## Words -/

theorem wordsOf_concat (rules : List (Rule α)) (rule : Rule α) :
    wordsOf (rules ++ [rule]) = wordsOf rules ++ [rule.word (wordsOf rules)] := by
  rw [wordsOf, List.foldl_append]
  rfl

@[simp] theorem length_wordsOf (rules : List (Rule α)) : (wordsOf rules).length = rules.length := by
  induction rules using List.reverseRecOn with
  | nil => rfl
  | append_singleton rules rule ih => rw [wordsOf_concat, List.length_append, List.length_append, ih]; rfl

/-- More words behind the ones that are referred to change nothing. -/
theorem expand_append {words : List (List α)} {seq : List ℕ} (h : ∀ id ∈ seq, id < words.length)
    (more : List (List α)) : expand (words ++ more) seq = expand words seq := by
  refine List.flatMap_congr fun id hid => ?_
  rw [List.getD_append _ _ _ _ (h id hid)]

/-- The words of rules stay when there are more rules behind them. -/
theorem wordsOf_append (rules more : List (Rule α)) :
    ∃ words, wordsOf (rules ++ more) = wordsOf rules ++ words := by
  induction more using List.reverseRecOn with
  | nil => exact ⟨[], by simp⟩
  | append_singleton more rule ih =>
    obtain ⟨words, hwords⟩ := ih
    refine ⟨words ++ [rule.word (wordsOf (rules ++ more))], ?_⟩
    rw [← List.append_assoc, wordsOf_concat, hwords, List.append_assoc]

theorem expand_wordsOf_append {rules : List (Rule α)} {seq : List ℕ} (h : ∀ id ∈ seq, id < rules.length)
    (more : List (Rule α)) : expand (wordsOf (rules ++ more)) seq = expand (wordsOf rules) seq := by
  obtain ⟨words, hwords⟩ := wordsOf_append rules more
  rw [hwords, expand_append (by simpa using h)]

/-- The last rule of some has its own word. -/
theorem getD_wordsOf_concat (rules : List (Rule α)) (rule : Rule α) :
    (wordsOf (rules ++ [rule])).getD rules.length [] = rule.word (wordsOf rules) := by
  rw [wordsOf_concat, List.getD_append_right _ _ _ _ (by simp)]
  simp

/-- Before the last rule of some the words are the same without it. -/
theorem getD_wordsOf_concat_of_lt {rules : List (Rule α)} {id : ℕ} (h : id < rules.length) (rule : Rule α) :
    (wordsOf (rules ++ [rule])).getD id [] = (wordsOf rules).getD id [] := by
  rw [wordsOf_concat, List.getD_append _ _ _ _ (by simpa using h)]

/-- The word of an atom. -/
theorem getD_wordsOf_atom {rules : List (Rule α)} {id : ℕ} {a : α} (h : rules[id]? = some (.atom a)) :
    (wordsOf rules).getD id [] = [a] := by
  induction rules using List.reverseRecOn with
  | nil => cases h
  | append_singleton rules rule ih =>
    rcases Nat.lt_trichotomy id rules.length with hlt | rfl | hgt
    · rw [List.getElem?_append_left hlt] at h
      rw [getD_wordsOf_concat_of_lt hlt, ih h]
    · rw [List.getElem?_concat_length] at h
      rw [getD_wordsOf_concat, Option.some.inj h]
      rfl
    · rw [List.getElem?_eq_none (by rw [List.length_append]; exact hgt)] at h
      cases h

theorem expand_atoms {rules : List (Rule α)} {seq : List ℕ} {as : List α}
    (h : seq.map (fun id => rules[id]?) = as.map fun a => some (.atom a)) : expand (wordsOf rules) seq = as := by
  induction seq generalizing as with
  | nil =>
    rw [List.map_nil, eq_comm, List.map_eq_nil_iff] at h
    rw [h]
    rfl
  | cons id seq ih =>
    rcases as with _ | ⟨a, as⟩
    · cases h
    · obtain ⟨hid, hrest⟩ := List.cons_eq_cons.mp h
      rw [expand, List.flatMap_cons, getD_wordsOf_atom hid]
      exact congrArg (a :: ·) (ih hrest)

theorem Grounded.concat {rules : List (Rule α)} (h : Grounded rules) {rule : Rule α}
    (hrule : ∀ left right, rule = .pair left right → left < rules.length ∧ right < rules.length) :
    Grounded (rules ++ [rule]) := by
  intro i left right hget
  rcases Nat.lt_trichotomy i rules.length with hlt | rfl | hgt
  · rw [List.getElem?_append_left hlt] at hget
    exact h i left right hget
  · rw [List.getElem?_concat_length] at hget
    exact hrule left right (Option.some.inj hget)
  · rw [List.getElem?_eq_none (by rw [List.length_append]; exact hgt)] at hget
    cases hget

/-! ## Replacing pairs -/

/-- A pair and the rule that joins it have the same word, so replacing it leaves the word of a sequence. -/
theorem expand_replacePair {words : List (List α)} {pair : ℕ × ℕ} {id : ℕ}
    (hword : words.getD id [] = words.getD pair.1 [] ++ words.getD pair.2 []) (seq : List ℕ) :
    expand words (replacePair pair id seq) = expand words seq := by
  induction seq using replacePair.induct pair with
  | case1 a b rest heq ih =>
    rw [replacePair, if_pos heq]
    subst heq
    simp only [expand, List.flatMap_cons, ← List.append_assoc, ← hword]
    exact congrArg _ ih
  | case2 a b rest hne ih =>
    rw [replacePair, if_neg hne]
    exact congrArg (words.getD a [] ++ ·) ih
  | case3 seq hshort =>
    rw [replacePair]
    exact hshort

theorem mem_replacePair {pair : ℕ × ℕ} {id other : ℕ} {seq : List ℕ} (h : other ∈ replacePair pair id seq) :
    other = id ∨ other ∈ seq := by
  induction seq using replacePair.induct pair with
  | case1 a b rest heq ih =>
    rw [replacePair, if_pos heq] at h
    rcases List.mem_cons.mp h with rfl | h
    · exact .inl rfl
    · exact (ih h).imp_right fun hmem => List.mem_cons_of_mem _ (List.mem_cons_of_mem _ hmem)
  | case2 a b rest hne ih =>
    rw [replacePair, if_neg hne] at h
    rcases List.mem_cons.mp h with rfl | h
    · exact .inr List.mem_cons_self
    · exact (ih h).imp_right (List.mem_cons_of_mem _)
  | case3 seq hshort =>
    rw [replacePair] at h
    · exact .inr h
    · exact hshort

end Innen.Common.StraightLine
