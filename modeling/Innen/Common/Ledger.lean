import Mathlib.Data.List.Basic

/-!
# Ledgers of writes

A ledger lists writes, the newest first. A write may have a key, by which a later answer names it: an answer goes to
the last write of its key, and either confirms or refuses it. What stands is the newest confirmed write.
-/

namespace Innen.Common.Ledger

inductive Verdict
  | awaited
  | confirmed
  | refused
deriving DecidableEq

structure Entry (κ α : Type*) where
  key : Option κ
  value : α
  verdict : Verdict

variable {κ α : Type*} [DecidableEq κ]

/-- The last write of a key. -/
def last (k : κ) (L : List (Entry κ α)) : Option (Entry κ α) := L.find? fun e => e.key = some k

/-- The writes after the last one of a key. -/
def newer (k : κ) (L : List (Entry κ α)) : List (Entry κ α) := L.takeWhile fun e => e.key ≠ some k

/-- Answer the last write of a key. -/
def settle (k : κ) (v : Verdict) : List (Entry κ α) → List (Entry κ α)
  | [] => []
  | e :: L => if e.key = some k then { e with verdict := v } :: L else e :: settle k v L

/-- What the last write of a key wrote, if it has no answer. -/
def waiting (k : κ) (L : List (Entry κ α)) : Option α :=
  (last k L).bind fun e => if e.verdict = .awaited then some e.value else none

omit [DecidableEq κ] in
/-- What the newest confirmed write wrote. -/
def standing (L : List (Entry κ α)) : Option α := (L.find? fun e => e.verdict = .confirmed).map Entry.value

/-! ## What waits -/

theorem last_cons_self {k : κ} {e : Entry κ α} (h : e.key = some k) (L : List (Entry κ α)) :
    last k (e :: L) = some e := List.find?_cons_of_pos (by simpa using h)

theorem last_cons_ne {k : κ} {e : Entry κ α} (h : e.key ≠ some k) (L : List (Entry κ α)) :
    last k (e :: L) = last k L := List.find?_cons_of_neg (by simpa using h)

theorem waiting_cons_self {k : κ} {e : Entry κ α} (h : e.key = some k) (L : List (Entry κ α)) :
    waiting k (e :: L) = if e.verdict = .awaited then some e.value else none := by
  rw [waiting, last_cons_self h, Option.bind_some]

theorem waiting_cons_ne {k : κ} {e : Entry κ α} (h : e.key ≠ some k) (L : List (Entry κ α)) :
    waiting k (e :: L) = waiting k L := by
  rw [waiting, last_cons_ne h, waiting]

/-- An answered write waits no more. -/
theorem waiting_settle_self {v : Verdict} (hv : v ≠ .awaited) (k : κ) (L : List (Entry κ α)) :
    waiting k (settle k v L) = none := by
  induction L with
  | nil => rfl
  | cons e L ih =>
    by_cases h : e.key = some k
    · rw [settle, if_pos h]
      exact (waiting_cons_self (e := { e with verdict := v }) h L).trans (if_neg hv)
    · rw [settle, if_neg h, waiting_cons_ne h, ih]

/-- An answer leaves what waits under other keys. -/
theorem waiting_settle_ne (v : Verdict) {k k' : κ} (hk : k' ≠ k) (L : List (Entry κ α)) :
    waiting k' (settle k v L) = waiting k' L := by
  induction L with
  | nil => rfl
  | cons e L ih =>
    by_cases h : e.key = some k
    · have hne : e.key ≠ some k' := fun h' => hk (Option.some.inj (h'.symm.trans h))
      rw [settle, if_pos h, waiting_cons_ne hne]
      exact waiting_cons_ne (e := { e with verdict := v }) hne L
    · by_cases h' : e.key = some k'
      · rw [settle, if_neg h, waiting_cons_self h', waiting_cons_self h']
      · rw [settle, if_neg h, waiting_cons_ne h', waiting_cons_ne h', ih]

theorem exists_of_waiting {k : κ} {L : List (Entry κ α)} {a : α} (h : waiting k L = some a) :
    ∃ e ∈ L, last k L = some e ∧ e.verdict = .awaited ∧ e.value = a := by
  obtain ⟨e, he, hv⟩ := Option.bind_eq_some_iff.mp h
  split at hv
  · exact ⟨e, List.mem_of_find?_eq_some he, he, ‹_›, Option.some.inj hv⟩
  · cases hv

/-- A write with no key is never answered. -/
theorem mem_settle {k : κ} {v : Verdict} {L : List (Entry κ α)} {e : Entry κ α} (he : e ∈ L) (hkey : e.key = none) :
    e ∈ settle k v L := by
  induction L with
  | nil => cases he
  | cons e' L ih =>
    by_cases h : e'.key = some k
    · rw [settle, if_pos h]
      obtain rfl | he := List.mem_cons.mp he
      · rw [hkey] at h
        cases h
      · exact List.mem_cons_of_mem _ he
    · rw [settle, if_neg h]
      obtain rfl | he := List.mem_cons.mp he
      · exact List.mem_cons_self
      · exact List.mem_cons_of_mem _ (ih he)

/-! ## What stands -/

omit [DecidableEq κ] in
theorem standing_cons_confirmed {e : Entry κ α} (h : e.verdict = .confirmed) (L : List (Entry κ α)) :
    standing (e :: L) = some e.value := by
  rw [standing, List.find?_cons_of_pos (by simpa using h), Option.map_some]

omit [DecidableEq κ] in
theorem standing_cons_ne {e : Entry κ α} (h : e.verdict ≠ .confirmed) (L : List (Entry κ α)) :
    standing (e :: L) = standing L := by
  rw [standing, List.find?_cons_of_neg (by simpa using h), standing]

/-- A refusal leaves what stands, unless it is the refused write that stands. -/
theorem standing_settle_refused {k : κ} {L : List (Entry κ α)}
    (h : ∀ e, last k L = some e → e.verdict = .confirmed → ∃ n ∈ newer k L, n.verdict = .confirmed) :
    standing (settle k .refused L) = standing L := by
  induction L with
  | nil => rfl
  | cons e L ih =>
    by_cases hk : e.key = some k
    · have hnone : newer k (e :: L) = [] := List.takeWhile_cons_of_neg (by simpa using hk)
      have hv : e.verdict ≠ .confirmed := by
        intro hv
        obtain ⟨n, hn, -⟩ := h e (last_cons_self hk L) hv
        rw [hnone] at hn
        cases hn
      rw [settle, if_pos hk, standing_cons_ne hv, standing_cons_ne (by simp)]
    · rw [settle, if_neg hk]
      by_cases hv : e.verdict = .confirmed
      · rw [standing_cons_confirmed hv, standing_cons_confirmed hv]
      · rw [standing_cons_ne hv, standing_cons_ne hv]
        refine ih fun e' he' hv' => ?_
        obtain ⟨n, hn, hnv⟩ := h e' (by rw [last_cons_ne hk, he']) hv'
        rw [newer, List.takeWhile_cons_of_pos (by simpa using hk)] at hn
        obtain rfl | hn := List.mem_cons.mp hn
        · exact absurd hnv hv
        · exact ⟨n, hn, hnv⟩

/-- A confirmed write stands, unless a newer one does. -/
theorem standing_settle_confirmed {k : κ} {L : List (Entry κ α)} {e : Entry κ α} (he : last k L = some e)
    (h : ∀ n ∈ newer k L, n.verdict ≠ .confirmed) : standing (settle k .confirmed L) = some e.value := by
  induction L with
  | nil => cases he
  | cons e' L ih =>
    by_cases hk : e'.key = some k
    · rw [last_cons_self hk] at he
      rw [settle, if_pos hk, standing_cons_confirmed rfl, ← Option.some.inj he]
    · have hnewer : newer k (e' :: L) = e' :: newer k L := List.takeWhile_cons_of_pos (by simpa using hk)
      rw [hnewer] at h
      rw [last_cons_ne hk] at he
      rw [settle, if_neg hk, standing_cons_ne (h e' List.mem_cons_self),
        ih he fun n hn => h n (List.mem_cons_of_mem _ hn)]

end Innen.Common.Ledger
