import Mathlib.Order.Defs.LinearOrder
import Mathlib.Order.Basic
import Mathlib.Data.List.Basic
import Mathlib.Data.Finset.Card

/-!
# Ordered maps and sets as ascending lists

An ordered tree map and its iteration order are both determined by the ascending list of its
entries. `Assoc` gives the operations on such lists, `SortedMap` and `SortedSet` package a list with
its ordering proof. Two maps with the same lookups are equal (`SortedMap.ext_get?`), so a statement
about lookups settles iteration and printing as well.
-/

namespace Innen.Common

variable {κ α β : Type*}

namespace Assoc

variable [LinearOrder κ]

/-- The value bound to `k`, if there is one. -/
def get? (k : κ) : List (κ × α) → Option α
  | [] => none
  | (k', v) :: rest => if k = k' then some v else get? k rest

/-- Bind `k` to `v`, replacing an existing binding and keeping the ascending order. -/
def insert (k : κ) (v : α) : List (κ × α) → List (κ × α)
  | [] => [(k, v)]
  | (k', v') :: rest =>
      if k < k' then (k, v) :: (k', v') :: rest
      else if k = k' then (k, v) :: rest
      else (k', v') :: insert k v rest

/-- Drop the binding of `k`. -/
def erase (k : κ) (l : List (κ × α)) : List (κ × α) := l.filter fun e => decide (e.1 ≠ k)

/-- The keys strictly increase along the list. -/
def Ascending (l : List (κ × α)) : Prop := l.Pairwise fun a b => a.1 < b.1

instance (l : List (κ × α)) : Decidable (Ascending l) := by unfold Ascending; infer_instance

@[simp] theorem get?_nil (k : κ) : get? k ([] : List (κ × α)) = none := rfl

theorem get?_cons (k k' : κ) (v : α) (rest : List (κ × α)) :
    get? k ((k', v) :: rest) = if k = k' then some v else get? k rest := rfl

/-- A lookup after a binding: the new key answers the new value, every other key is unchanged. -/
theorem get?_insert (k k' : κ) (v : α) (l : List (κ × α)) :
    get? k' (insert k v l) = if k' = k then some v else get? k' l := by
  induction l with
  | nil => rfl
  | cons e rest ih =>
    obtain ⟨k₀, v₀⟩ := e
    rcases lt_trichotomy k k₀ with h | rfl | h
    · simp only [insert, if_pos h, get?_cons]
    · by_cases hk : k' = k
      · simp [insert, get?_cons, hk]
      · simp [insert, get?_cons, hk]
    · simp only [insert, if_neg h.not_gt, if_neg h.ne', get?_cons, ih]
      by_cases hk : k' = k₀
      · subst hk; simp [h.ne]
      · simp [hk]

@[simp] theorem get?_insert_self (k : κ) (v : α) (l : List (κ × α)) :
    get? k (insert k v l) = some v := by simp [get?_insert]

theorem get?_insert_ne {k k' : κ} (h : k' ≠ k) (v : α) (l : List (κ × α)) :
    get? k' (insert k v l) = get? k' l := by simp [get?_insert, h]

/-- Binding a key again forgets what it was bound to before. -/
theorem insert_insert_self (k : κ) (v w : α) (l : List (κ × α)) : insert k v (insert k w l) = insert k v l := by
  induction l with
  | nil => simp [insert]
  | cons e rest ih =>
    obtain ⟨k', u⟩ := e
    rcases lt_trichotomy k k' with hlt | rfl | hgt
    · simp [insert, hlt]
    · simp [insert]
    · simp only [insert, if_neg hgt.not_gt, if_neg hgt.ne', ih]

theorem mem_insert {k : κ} {v : α} {l : List (κ × α)} {e : κ × α} (h : e ∈ insert k v l) :
    e = (k, v) ∨ e ∈ l := by
  induction l with
  | nil => simpa [insert] using h
  | cons e₀ rest ih =>
    obtain ⟨k₀, v₀⟩ := e₀
    simp only [insert] at h
    split at h
    · simpa using h
    · split at h
      · rcases List.mem_cons.mp h with h | h
        · exact .inl h
        · exact .inr (List.mem_cons_of_mem _ h)
      · rcases List.mem_cons.mp h with h | h
        · exact .inr (h ▸ List.mem_cons_self)
        · exact (ih h).imp_right (List.mem_cons_of_mem _)

theorem ascending_cons {e : κ × α} {l : List (κ × α)} :
    Ascending (e :: l) ↔ (∀ a ∈ l, e.1 < a.1) ∧ Ascending l := List.pairwise_cons

theorem Ascending.insert {l : List (κ × α)} (h : Ascending l) (k : κ) (v : α) :
    Ascending (Assoc.insert k v l) := by
  induction l with
  | nil => simp [Assoc.insert, Ascending]
  | cons e rest ih =>
    obtain ⟨k₀, v₀⟩ := e
    obtain ⟨hlt, hrest⟩ := ascending_cons.mp h
    rcases lt_trichotomy k k₀ with hk | rfl | hk
    · rw [Assoc.insert, if_pos hk, ascending_cons]
      refine ⟨fun a ha => ?_, h⟩
      rcases List.mem_cons.mp ha with rfl | ha
      · exact hk
      · exact hk.trans (hlt a ha)
    · rw [Assoc.insert, if_neg (lt_irrefl k), if_pos rfl, ascending_cons]
      exact ⟨hlt, hrest⟩
    · rw [Assoc.insert, if_neg hk.not_gt, if_neg hk.ne', ascending_cons]
      refine ⟨fun a ha => ?_, ih hrest⟩
      rcases mem_insert ha with rfl | ha
      · exact hk
      · exact hlt a ha

theorem Ascending.erase {l : List (κ × α)} (h : Ascending l) (k : κ) :
    Ascending (Assoc.erase k l) := List.Pairwise.filter _ h

theorem get?_erase (k k' : κ) (l : List (κ × α)) :
    get? k' (erase k l) = if k' = k then none else get? k' l := by
  induction l with
  | nil => simp [erase]
  | cons e rest ih =>
    obtain ⟨k₀, v₀⟩ := e
    by_cases hk : k₀ = k
    · subst hk
      have hstep : erase k₀ ((k₀, v₀) :: rest) = erase k₀ rest := by simp [erase]
      rw [hstep, ih, get?_cons]
      by_cases h : k' = k₀ <;> simp [h]
    · have hstep : erase k ((k₀, v₀) :: rest) = (k₀, v₀) :: erase k rest := by simp [erase, hk]
      rw [hstep, get?_cons, get?_cons, ih]
      by_cases h : k' = k₀
      · simp [h, hk]
      · simp [h]

theorem get?_some_mem {k : κ} {v : α} {l : List (κ × α)} (h : get? k l = some v) : (k, v) ∈ l := by
  induction l with
  | nil => simp at h
  | cons e rest ih =>
    obtain ⟨k₀, v₀⟩ := e
    rw [get?_cons] at h
    split at h
    · rename_i hk
      simp_all
    · exact List.mem_cons_of_mem _ (ih h)

theorem get?_eq_none_of_forall_lt {k : κ} {l : List (κ × α)} (h : ∀ e ∈ l, k < e.1) :
    get? k l = none := by
  by_contra hne
  obtain ⟨v, hv⟩ := Option.ne_none_iff_exists'.mp hne
  exact lt_irrefl _ (h _ (get?_some_mem hv))

/-- In an ascending list the entries are exactly the successful lookups. -/
theorem Ascending.mem_iff {l : List (κ × α)} (h : Ascending l) {k : κ} {v : α} :
    (k, v) ∈ l ↔ get? k l = some v := by
  refine ⟨fun hmem => ?_, get?_some_mem⟩
  induction l with
  | nil => simp at hmem
  | cons e rest ih =>
    obtain ⟨k₀, v₀⟩ := e
    obtain ⟨hlt, hrest⟩ := ascending_cons.mp h
    rcases List.mem_cons.mp hmem with heq | hmem
    · simp only [Prod.mk.injEq] at heq
      simp [get?_cons, heq.1, heq.2]
    · have hk : k ≠ k₀ := (hlt _ hmem).ne'
      rw [get?_cons, if_neg hk, ih hrest hmem]

/-- Ascending lists with the same lookups are equal. -/
theorem Ascending.ext {l l' : List (κ × α)} (h : Ascending l) (h' : Ascending l')
    (heq : ∀ k, get? k l = get? k l') : l = l' := by
  induction l generalizing l' with
  | nil =>
    cases l' with
    | nil => rfl
    | cons e rest => simpa [get?] using heq e.1
  | cons e rest ih =>
    obtain ⟨k, v⟩ := e
    obtain ⟨hlt, hrest⟩ := ascending_cons.mp h
    cases l' with
    | nil => simpa [get?_cons] using heq k
    | cons e' rest' =>
      obtain ⟨k', v'⟩ := e'
      obtain ⟨hlt', hrest'⟩ := ascending_cons.mp h'
      have hmem : (k, v) ∈ (k', v') :: rest' := by
        rw [h'.mem_iff, ← heq k]; simp [get?_cons]
      have hmem' : (k', v') ∈ (k, v) :: rest := by
        rw [h.mem_iff, heq k']; simp [get?_cons]
      -- both heads are the least key of the same key set
      have hkk : k = k' := by
        rcases List.mem_cons.mp hmem with heq₁ | hm
        · exact (Prod.mk.inj heq₁).1
        · rcases List.mem_cons.mp hmem' with heq₂ | hm'
          · exact (Prod.mk.inj heq₂).1.symm
          · exact absurd (hlt _ hm') (hlt' _ hm).not_gt
      subst hkk
      have hv : v = v' := by simpa [get?_cons] using heq k
      subst hv
      have htail : ∀ j, get? j rest = get? j rest' := by
        intro j
        by_cases hj : j = k
        · subst hj
          rw [get?_eq_none_of_forall_lt hlt, get?_eq_none_of_forall_lt hlt']
        · simpa [get?_cons, hj] using heq j
      rw [ih hrest hrest' htail]

/-- The keys of a list, in order. -/
def keys (l : List (κ × α)) : List κ := l.map Prod.fst

/-- Fields are ascending if their keys are. -/
theorem ascending_of_keys {l : List (κ × α)} (h : (keys l).Pairwise (· < ·)) : Ascending l := List.pairwise_map.mp h

theorem nodup_keys {l : List (κ × α)} (h : Ascending l) : (keys l).Nodup :=
  (List.pairwise_map.mpr h).imp ne_of_lt

theorem get?_isSome_iff {k : κ} {l : List (κ × α)} : (get? k l).isSome ↔ k ∈ keys l := by
  induction l with
  | nil => simp [keys]
  | cons e rest ih =>
    obtain ⟨k₀, v₀⟩ := e
    rw [get?_cons]
    by_cases hk : k = k₀
    · simp [keys, hk]
    · simpa [keys, hk] using ih

theorem get?_eq_none_iff {k : κ} {l : List (κ × α)} : get? k l = none ↔ k ∉ keys l := by
  rw [← get?_isSome_iff]; simp

/-- Mapping the values of a list maps its lookups. -/
theorem get?_map (f : α → β) (k : κ) (l : List (κ × α)) :
    get? k (l.map fun e => (e.1, f e.2)) = (get? k l).map f := by
  induction l with
  | nil => rfl
  | cons e rest ih =>
    obtain ⟨k₀, v₀⟩ := e
    by_cases hk : k = k₀ <;> simp [get?_cons, hk, ih]

theorem Ascending.map {l : List (κ × α)} (h : Ascending l) (f : κ → α → β) :
    Ascending (l.map fun e => (e.1, f e.1 e.2)) := by
  unfold Ascending at *
  rw [List.pairwise_map]
  exact h

/-- Bind the entries of `l` one after the other, a later one replacing an earlier one. -/
def insertAll (l : List (κ × α)) (acc : List (κ × α)) : List (κ × α) :=
  l.foldl (fun acc e => insert e.1 e.2 acc) acc

theorem Ascending.insertAll {acc : List (κ × α)} (h : Ascending acc) (l : List (κ × α)) :
    Ascending (Assoc.insertAll l acc) := by
  induction l generalizing acc with
  | nil => exact h
  | cons e rest ih => exact ih (h.insert _ _)

/-- After binding a whole list, its last entry for a key answers, else the old binding. -/
theorem get?_insertAll (k : κ) (l acc : List (κ × α)) :
    get? k (insertAll l acc) = (get? k l.reverse).or (get? k acc) := by
  induction l generalizing acc with
  | nil => simp [insertAll]
  | cons e rest ih =>
    have happ : ∀ (xs ys : List (κ × α)), get? k (xs ++ ys) = (get? k xs).or (get? k ys) := by
      intro xs ys
      induction xs with
      | nil => simp
      | cons x xs ihx =>
        rw [List.cons_append, get?_cons, get?_cons, ihx]
        split <;> simp
    have hstep : insertAll (e :: rest) acc = insertAll rest (insert e.1 e.2 acc) := rfl
    rw [hstep, ih, List.reverse_cons, happ, Option.or_assoc]
    congr 1
    rw [get?_insert, get?_cons]
    split <;> simp

/-- A list whose values depend on their keys. -/
theorem get?_map_key (f : κ → α) (l : List κ) (k : κ) :
    get? k (l.map fun k => (k, f k)) = if k ∈ l then some (f k) else none := by
  induction l with
  | nil => simp
  | cons k₀ rest ih =>
    rw [List.map_cons, get?_cons, ih]
    by_cases hk : k = k₀ <;> simp [hk]

theorem get?_insertAll_map_key (f : κ → α) (l : List κ) (acc : List (κ × α)) (k : κ) :
    get? k (insertAll (l.map fun k => (k, f k)) acc) = if k ∈ l then some (f k) else get? k acc := by
  rw [get?_insertAll, ← List.map_reverse, get?_map_key]
  by_cases hk : k ∈ l <;> simp [hk]

/-- Adding to the group of a key adds one pair. -/
theorem perm_insert_group (k : κ) (v : α) {l : List (κ × List α)} (h : Ascending l) :
    ((insert k ((get? k l).getD [] ++ [v]) l).flatMap fun e => e.2.map fun a => (e.1, a)).Perm
      (l.flatMap (fun e => e.2.map fun a => (e.1, a)) ++ [(k, v)]) := by
  induction l with
  | nil => exact List.Perm.refl _
  | cons e rest ih =>
    obtain ⟨k', group⟩ := e
    obtain ⟨hlt, hrest⟩ := ascending_cons.mp h
    by_cases hk : k < k'
    · have hnone : get? k ((k', group) :: rest) = none := by
        refine get?_eq_none_of_forall_lt fun e he => ?_
        obtain rfl | he := List.mem_cons.mp he
        · exact hk
        · exact hk.trans (hlt e he)
      rw [hnone, insert, if_pos hk]
      exact List.perm_append_comm
    · by_cases heq : k = k'
      · subst heq
        rw [get?_cons, if_pos rfl, insert, if_neg hk, if_pos rfl]
        simp only [Option.getD_some, List.flatMap_cons, List.map_append, List.append_assoc]
        exact List.perm_append_comm.append_left _
      · rw [get?_cons, if_neg heq, insert, if_neg hk, if_neg heq]
        simp only [List.flatMap_cons, List.append_assoc]
        exact (ih hrest).append_left _

end Assoc

/-- An ordered map: an association list together with its ordering proof. -/
@[ext] structure SortedMap (κ α : Type*) [LinearOrder κ] where
  /-- The bindings, by ascending key. -/
  entries : List (κ × α)
  /-- The keys strictly increase. -/
  ascending : Assoc.Ascending entries

namespace SortedMap

variable [LinearOrder κ]

instance [DecidableEq κ] [DecidableEq α] : DecidableEq (SortedMap κ α) := fun a b =>
  decidable_of_iff (a.entries = b.entries) SortedMap.ext_iff.symm

/-- The map without bindings. -/
def empty : SortedMap κ α := ⟨[], List.Pairwise.nil⟩

instance : EmptyCollection (SortedMap κ α) := ⟨empty⟩
instance : Inhabited (SortedMap κ α) := ⟨∅⟩

/-- The value bound to `k`. -/
def get? (m : SortedMap κ α) (k : κ) : Option α := Assoc.get? k m.entries

/-- Bind `k` to `v`. -/
def insert (m : SortedMap κ α) (k : κ) (v : α) : SortedMap κ α :=
  ⟨Assoc.insert k v m.entries, m.ascending.insert k v⟩

/-- Update the value bound to `k`, starting from `d` when there is none (`entry(k).or_insert(d)`). -/
def upsert (m : SortedMap κ α) (k : κ) (d : α) (f : α → α) : SortedMap κ α :=
  m.insert k (f ((m.get? k).getD d))

/-- The keys in ascending order. -/
def keys (m : SortedMap κ α) : List κ := Assoc.keys m.entries

/-- The values in ascending key order. -/
def values (m : SortedMap κ α) : List α := m.entries.map Prod.snd

@[simp] theorem get?_empty (k : κ) : (∅ : SortedMap κ α).get? k = none := rfl

theorem get?_insert (m : SortedMap κ α) (k k' : κ) (v : α) :
    (m.insert k v).get? k' = if k' = k then some v else m.get? k' := Assoc.get?_insert k k' v _

@[simp] theorem get?_insert_self (m : SortedMap κ α) (k : κ) (v : α) :
    (m.insert k v).get? k = some v := Assoc.get?_insert_self k v _

theorem get?_upsert (m : SortedMap κ α) (k k' : κ) (d : α) (f : α → α) :
    (m.upsert k d f).get? k' = if k' = k then some (f ((m.get? k).getD d)) else m.get? k' :=
  get?_insert m k k' _

theorem mem_entries_iff (m : SortedMap κ α) {k : κ} {v : α} :
    (k, v) ∈ m.entries ↔ m.get? k = some v := m.ascending.mem_iff

theorem mem_keys_iff (m : SortedMap κ α) {k : κ} : k ∈ m.keys ↔ (m.get? k).isSome :=
  Assoc.get?_isSome_iff.symm

/-- Bind all pairs of a list one after the other. -/
def insertAll (m : SortedMap κ α) (l : List (κ × α)) : SortedMap κ α :=
  ⟨Assoc.insertAll l m.entries, m.ascending.insertAll l⟩

/-- The last pair for a key answers, else the old map. -/
theorem get?_insertAll (m : SortedMap κ α) (l : List (κ × α)) (k : κ) :
    (m.insertAll l).get? k = (Assoc.get? k l.reverse).or (m.get? k) := Assoc.get?_insertAll k l _

/-- Keep the bindings of some keys only. -/
def filterKeys (keep : κ → Bool) (m : SortedMap κ α) : SortedMap κ α :=
  ⟨m.entries.filter fun e => keep e.1, List.Pairwise.filter _ m.ascending⟩

theorem get?_filterKeys (keep : κ → Bool) (m : SortedMap κ α) (k : κ) :
    (m.filterKeys keep).get? k = if keep k then m.get? k else none := by
  refine Option.ext fun v => ?_
  rw [← mem_entries_iff, filterKeys, List.mem_filter, mem_entries_iff]
  cases keep k <;> simp

/-- The map of those keys of a list that `f` gives a value. -/
def tabulate (f : κ → Option α) (l : List κ) : SortedMap κ α :=
  l.foldl (fun m k => (f k).elim m (m.insert k)) ∅

theorem get?_foldl_tabulate (f : κ → Option α) (l : List κ) (m : SortedMap κ α) (k : κ) :
    (l.foldl (fun m k => (f k).elim m (m.insert k)) m).get? k =
      if k ∈ l then (f k).or (m.get? k) else m.get? k := by
  induction l generalizing m with
  | nil => simp
  | cons k₀ rest ih =>
    have hget : ((f k₀).elim m (m.insert k₀)).get? k = if k = k₀ then (f k).or (m.get? k) else m.get? k := by
      rcases h : f k₀ with _ | v
      · by_cases hk : k = k₀ <;> simp [hk, h]
      · by_cases hk : k = k₀ <;> simp [get?_insert, hk, h]
    rw [List.foldl_cons, ih, hget]
    by_cases hk : k = k₀
    · rcases h : f k with _ | v <;> simp [hk]
    · simp [hk]

theorem get?_tabulate (f : κ → Option α) (l : List κ) (k : κ) :
    (tabulate f l).get? k = if k ∈ l then f k else none := by
  rw [tabulate, get?_foldl_tabulate]
  simp

/-- The elements of a list by some key, each group in the order of the list. -/
def groupBy {γ : Type*} (key : γ → κ) (val : γ → α) (l : List γ) : SortedMap κ (List α) :=
  l.foldl (fun m a => m.upsert (key a) [] (· ++ [val a])) ∅

theorem getD_groupBy {γ : Type*} (key : γ → κ) (val : γ → α) (l : List γ) (k : κ) :
    ((groupBy key val l).get? k).getD [] = (l.filter fun a => decide (key a = k)).map val := by
  have hfold : ∀ (l : List γ) (m : SortedMap κ (List α)),
      ((l.foldl (fun m a => m.upsert (key a) [] (· ++ [val a])) m).get? k).getD [] =
        (m.get? k).getD [] ++ (l.filter fun a => decide (key a = k)).map val := by
    intro l
    induction l with
    | nil => simp
    | cons a rest ih =>
      intro m
      rw [List.foldl_cons, ih, get?_upsert]
      by_cases hk : key a = k
      · subst hk
        simp
      · simp [hk, Ne.symm hk]
  exact (hfold l ∅).trans (by simp)

/-- A group of the map is what the list has for its key. -/
theorem mem_groupBy {γ : Type*} {key : γ → κ} {val : γ → α} {l : List γ} {e : κ × List α}
    (h : e ∈ (groupBy key val l).entries) : e.2 = (l.filter fun a => decide (key a = e.1)).map val := by
  rw [← getD_groupBy, (mem_entries_iff _).mp h, Option.getD_some]

/-- Every element is in some group. -/
theorem exists_groupBy {γ : Type*} (key : γ → κ) (val : γ → α) {l : List γ} {a : γ} (ha : a ∈ l) :
    (key a, (l.filter fun b => decide (key b = key a)).map val) ∈ (groupBy key val l).entries := by
  refine (mem_entries_iff _).mpr ?_
  have hget := getD_groupBy key val l (key a)
  have hmem : val a ∈ (l.filter fun b => decide (key b = key a)).map val :=
    List.mem_map_of_mem (List.mem_filter.mpr ⟨ha, by simp⟩)
  cases hgroup : (groupBy key val l).get? (key a) with
  | none =>
    rw [hgroup, Option.getD_none] at hget
    rw [← hget] at hmem
    cases hmem
  | some group => rw [← hget, hgroup, Option.getD_some]

/-- The groups hold every element once. -/
theorem groupBy_perm {γ : Type*} (key : γ → κ) (val : γ → α) (l : List γ) :
    ((groupBy key val l).entries.flatMap fun e => e.2.map fun a => (e.1, a)).Perm (l.map fun a => (key a, val a)) := by
  have hfold : ∀ (l : List γ) (m : SortedMap κ (List α)),
      ((l.foldl (fun m a => m.upsert (key a) [] (· ++ [val a])) m).entries.flatMap
        fun e => e.2.map fun a => (e.1, a)).Perm
      (m.entries.flatMap (fun e => e.2.map fun a => (e.1, a)) ++ l.map fun a => (key a, val a)) := by
    intro l
    induction l with
    | nil => simp
    | cons a rest ih =>
      intro m
      have hstep := Assoc.perm_insert_group (key a) (val a) m.ascending
      refine (ih _).trans ((hstep.append_right _).trans ?_)
      rw [List.append_assoc, List.map_cons, List.singleton_append]
  exact hfold l ∅

/-- Maps with the same lookups are equal. -/
theorem ext_get? {m m' : SortedMap κ α} (h : ∀ k, m.get? k = m'.get? k) : m = m' :=
  SortedMap.ext (m.ascending.ext m'.ascending h)

end SortedMap

/-- An ordered set: its elements in strictly ascending order. -/
@[ext] structure SortedSet (α : Type*) [LinearOrder α] where
  /-- The elements, ascending. -/
  elems : List α
  /-- The elements strictly increase. -/
  ascending : elems.Pairwise (· < ·)

namespace SortedSet

variable [LinearOrder α]

instance : DecidableEq (SortedSet α) := fun a b =>
  decidable_of_iff (a.elems = b.elems) SortedSet.ext_iff.symm

instance : Membership α (SortedSet α) := ⟨fun s a => a ∈ s.elems⟩

instance (s : SortedSet α) (a : α) : Decidable (a ∈ s) := inferInstanceAs (Decidable (a ∈ s.elems))

/-- The set without elements. -/
def empty : SortedSet α := ⟨[], List.Pairwise.nil⟩

instance : EmptyCollection (SortedSet α) := ⟨empty⟩
instance : Inhabited (SortedSet α) := ⟨∅⟩

theorem mem_def {s : SortedSet α} {a : α} : a ∈ s ↔ a ∈ s.elems := Iff.rfl

@[simp] theorem not_mem_empty (a : α) : a ∉ (∅ : SortedSet α) := List.not_mem_nil

/-- Ordered insertion into an ascending list, leaving it as it is when the element is there. -/
def insertList (a : α) : List α → List α
  | [] => [a]
  | b :: rest => if a < b then a :: b :: rest else if a = b then b :: rest else b :: insertList a rest

theorem mem_insertList {a b : α} {l : List α} : b ∈ insertList a l ↔ b = a ∨ b ∈ l := by
  induction l with
  | nil => simp [insertList]
  | cons c rest ih =>
    simp only [insertList]
    split
    · simp
    · split
      · rename_i h
        subst h
        simp
      · rw [List.mem_cons, ih, List.mem_cons]
        tauto

theorem pairwise_insertList {a : α} {l : List α} (h : l.Pairwise (· < ·)) :
    (insertList a l).Pairwise (· < ·) := by
  induction l with
  | nil => simp [insertList]
  | cons c rest ih =>
    obtain ⟨hlt, hrest⟩ := List.pairwise_cons.mp h
    rcases lt_trichotomy a c with hac | rfl | hac
    · rw [insertList, if_pos hac, List.pairwise_cons]
      refine ⟨fun b hb => ?_, h⟩
      rcases List.mem_cons.mp hb with rfl | hb
      · exact hac
      · exact hac.trans (hlt b hb)
    · rwa [insertList, if_neg (lt_irrefl a), if_pos rfl]
    · rw [insertList, if_neg hac.not_gt, if_neg hac.ne', List.pairwise_cons]
      refine ⟨fun b hb => ?_, ih hrest⟩
      rcases mem_insertList.mp hb with rfl | hb
      · exact hac
      · exact hlt b hb

/-- Add an element. -/
def insert (s : SortedSet α) (a : α) : SortedSet α :=
  ⟨insertList a s.elems, pairwise_insertList s.ascending⟩

@[simp] theorem mem_insert {s : SortedSet α} {a b : α} : b ∈ s.insert a ↔ b = a ∨ b ∈ s :=
  mem_insertList

/-- The set of the elements of a list. -/
def ofList (l : List α) : SortedSet α := l.foldl insert ∅

theorem mem_foldl_insert {l : List α} {s : SortedSet α} {a : α} :
    a ∈ l.foldl insert s ↔ a ∈ l ∨ a ∈ s := by
  induction l generalizing s with
  | nil => simp
  | cons b rest ih => rw [List.foldl_cons, ih, mem_insert, List.mem_cons]; tauto

@[simp] theorem mem_ofList {l : List α} {a : α} : a ∈ ofList l ↔ a ∈ l := by
  simp [ofList, mem_foldl_insert]

/-- The union of two sets. -/
def union (s t : SortedSet α) : SortedSet α := t.elems.foldl insert s

@[simp] theorem mem_union {s t : SortedSet α} {a : α} : a ∈ s.union t ↔ a ∈ s ∨ a ∈ t := by
  rw [union, mem_foldl_insert]
  exact or_comm

/-- The elements of the first set that are not in the second. -/
def diff (s t : SortedSet α) : SortedSet α := ⟨s.elems.filter fun a => decide (a ∉ t), s.ascending.filter _⟩

@[simp] theorem mem_diff {s t : SortedSet α} {a : α} : a ∈ s.diff t ↔ a ∈ s ∧ a ∉ t := by
  rw [mem_def, diff, List.mem_filter, decide_eq_true_eq]
  rfl

instance : HasSubset (SortedSet α) := ⟨fun s t => ∀ a ∈ s.elems, a ∈ t.elems⟩

instance (s t : SortedSet α) : Decidable (s ⊆ t) :=
  inferInstanceAs (Decidable (∀ a ∈ s.elems, a ∈ t.elems))

theorem subset_def {s t : SortedSet α} : s ⊆ t ↔ ∀ a, a ∈ s → a ∈ t := Iff.rfl

/-- The size of the set. -/
def card (s : SortedSet α) : ℕ := s.elems.length

/-- Sets with the same elements are equal. -/
theorem ext_mem {s t : SortedSet α} (h : ∀ a, a ∈ s ↔ a ∈ t) : s = t := by
  obtain ⟨l, hl⟩ := s
  obtain ⟨l', hl'⟩ := t
  have hasc : ∀ {m : List α}, m.Pairwise (· < ·) → Assoc.Ascending (m.map fun a => (a, ())) := by
    intro m hm
    unfold Assoc.Ascending
    rwa [List.pairwise_map]
  have hget : ∀ {m : List α}, m.Pairwise (· < ·) → ∀ a,
      Assoc.get? a (m.map fun a => (a, ())) = some () ↔ a ∈ m := by
    intro m hm a
    rw [← (hasc hm).mem_iff]
    simp
  have heq : l.map (fun a => (a, ())) = l'.map fun a => (a, ()) := by
    refine (hasc hl).ext (hasc hl') fun a => ?_
    have hiff := ((hget hl a).trans (h a)).trans (hget hl' a).symm
    rcases hx : Assoc.get? a (l.map fun a => (a, ())) with _ | ⟨⟩ <;>
      rcases hy : Assoc.get? a (l'.map fun a => (a, ())) with _ | ⟨⟩ <;> simp_all
  have := congrArg (List.map Prod.fst) heq
  simp only [List.map_map, Function.comp_def, List.map_id'] at this
  exact SortedSet.ext this

theorem nodup (s : SortedSet α) : s.elems.Nodup := s.ascending.imp ne_of_lt

/-- Membership as a finite set. -/
def toFinset (s : SortedSet α) : Finset α := ⟨s.elems, s.nodup⟩

@[simp] theorem mem_toFinset {s : SortedSet α} {a : α} : a ∈ s.toFinset ↔ a ∈ s := Iff.rfl

theorem toFinset_injective : Function.Injective (toFinset : SortedSet α → Finset α) := by
  intro s t h
  exact ext_mem fun a => by rw [← mem_toFinset, h, mem_toFinset]

theorem card_toFinset (s : SortedSet α) : s.toFinset.card = s.card := rfl

end SortedSet

end Innen.Common
