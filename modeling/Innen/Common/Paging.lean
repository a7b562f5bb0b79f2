import Mathlib.Data.List.Basic
import Mathlib.Order.Nat

/-!
# Reading in pages

A reader returns at an offset some result and, if there is more, the offset where the next read starts.
When every read takes a first part of what is left and names the first row behind it, the reads of a
walk from 0 take all rows, each once and in order (`exists_walk`).
-/

namespace Innen.Common

variable {α β ε : Type*}

/-- Results read one after the other, each from where the one before said. -/
inductive Walk (read : ℕ → Except ε β) (next : β → Option ℕ) : ℕ → List β → Prop
  | last {offset : ℕ} {b : β} (h : read offset = .ok b) (hend : next b = none) : Walk read next offset [b]
  | more {offset offset' : ℕ} {b : β} {rest : List β} (h : read offset = .ok b) (hnext : next b = some offset')
      (hlt : offset < offset') (hrest : Walk read next offset' rest) : Walk read next offset (b :: rest)

/-- A walk of results that are worked on further. -/
theorem Walk.map {γ : Type*} {read : ℕ → Except ε β} {next : β → Option ℕ} {read' : ℕ → Except ε γ}
    {next' : γ → Option ℕ} {f : β → γ} (hread : ∀ offset b, read offset = .ok b → read' offset = .ok (f b))
    (hnext : ∀ b, next' (f b) = next b) {offset : ℕ} {bs : List β} (h : Walk read next offset bs) :
    Walk read' next' offset (bs.map f) := by
  induction h with
  | last h hend => exact .last (hread _ _ h) ((hnext _).trans hend)
  | more h hn hlt _ ih => exact .more (hread _ _ h) ((hnext _).trans hn) hlt ih

/-- The rows from an offset on. -/
def rowsFrom (offset : ℕ) (rows : List (α × ℕ)) : List (α × ℕ) := rows.filter fun e => decide (offset ≤ e.2)

/-- One read: it takes `chunk`, and says where the next row is. -/
def ReadsChunk (read : ℕ → Except ε β) (next : β → Option ℕ) (Chunk : β → List (α × ℕ) → Prop)
    (rows : List (α × ℕ)) (offset : ℕ) : Prop :=
  ∃ b chunk post, read offset = .ok b ∧ Chunk b chunk ∧ rowsFrom offset rows = chunk ++ post ∧
    (post = [] ∧ next b = none ∨ ∃ e rest, post = e :: rest ∧ next b = some e.2 ∧ chunk ≠ [])

/-- The rows behind a chunk are the rows from the first of them on. -/
theorem rowsFrom_of_append {rows chunk rest : List (α × ℕ)} {offset : ℕ} {e : α × ℕ}
    (hsorted : rows.Pairwise fun a b => a.2 < b.2) (h : rowsFrom offset rows = chunk ++ e :: rest) :
    rowsFrom e.2 rows = e :: rest := by
  have hsorted' : (chunk ++ e :: rest).Pairwise fun a b : α × ℕ => a.2 < b.2 := h ▸ hsorted.filter _
  obtain ⟨-, hrest, hbefore⟩ := List.pairwise_append.mp hsorted'
  have hmem : e ∈ rowsFrom offset rows := by
    rw [h]
    exact List.mem_append_right chunk List.mem_cons_self
  have hle : offset ≤ e.2 := by simpa using (List.mem_filter.mp hmem).2
  have htwice : rowsFrom e.2 rows = rowsFrom e.2 (rowsFrom offset rows) := by
    rw [rowsFrom, rowsFrom, rowsFrom, List.filter_filter]
    refine List.filter_congr fun a _ => ?_
    have : e.2 ≤ a.2 → offset ≤ a.2 := fun h => hle.trans h
    by_cases ha : e.2 ≤ a.2 <;> simp [ha, this]
  rw [htwice, h, rowsFrom, List.filter_append]
  have hchunk : chunk.filter (fun a => decide (e.2 ≤ a.2)) = [] := by
    refine List.filter_eq_nil_iff.mpr fun a ha => ?_
    have := hbefore a ha e List.mem_cons_self
    simpa using this
  have hkeep : (e :: rest).filter (fun a => decide (e.2 ≤ a.2)) = e :: rest := by
    refine List.filter_eq_self.mpr fun a ha => ?_
    rcases List.mem_cons.mp ha with rfl | ha
    · simp
    · simpa using ((List.pairwise_cons.mp hrest).1 a ha).le
  rw [hchunk, hkeep, List.nil_append]

/-- Reads that take a first part of what is left take everything together. -/
theorem exists_walk {read : ℕ → Except ε β} {next : β → Option ℕ} {Chunk : β → List (α × ℕ) → Prop}
    {rows : List (α × ℕ)} (hsorted : rows.Pairwise fun a b => a.2 < b.2)
    (hread : ∀ offset, (offset = 0 ∨ ∃ e ∈ rows, e.2 = offset) → ReadsChunk read next Chunk rows offset) :
    ∃ bs chunks, Walk read next 0 bs ∧ List.Forall₂ Chunk bs chunks ∧ chunks.flatten = rows := by
  have hfrom : ∀ (n offset : ℕ), (rowsFrom offset rows).length ≤ n →
      (offset = 0 ∨ ∃ e ∈ rows, e.2 = offset) →
      ∃ bs chunks, Walk read next offset bs ∧ List.Forall₂ Chunk bs chunks ∧
        chunks.flatten = rowsFrom offset rows := by
    intro n
    induction n with
    | zero =>
      intro offset hlen hoffset
      obtain ⟨b, chunk, post, hb, hchunk, hsplit, hpost⟩ := hread offset hoffset
      have hnil : rowsFrom offset rows = [] := List.eq_nil_of_length_eq_zero (Nat.le_zero.mp hlen)
      rw [hnil] at hsplit
      obtain ⟨rfl, rfl⟩ := List.append_eq_nil_iff.mp hsplit.symm
      rcases hpost with ⟨-, hend⟩ | ⟨e, rest, hcons, -, -⟩
      · exact ⟨[b], [[]], .last hb hend, .cons hchunk .nil, by rw [hnil]; rfl⟩
      · cases hcons
    | succ n ih =>
      intro offset hlen hoffset
      obtain ⟨b, chunk, post, hb, hchunk, hsplit, hpost⟩ := hread offset hoffset
      rcases hpost with ⟨rfl, hend⟩ | ⟨e, rest, rfl, hnext, hne⟩
      · exact ⟨[b], [chunk], .last hb hend, .cons hchunk .nil, by rw [hsplit]; simp⟩
      · have hbehind := rowsFrom_of_append hsorted hsplit
        have hmem : e ∈ rowsFrom offset rows := by
          rw [hsplit]
          exact List.mem_append_right chunk List.mem_cons_self
        have hshort : (rowsFrom e.2 rows).length ≤ n := by
          have hpos := List.length_pos_of_ne_nil hne
          rw [hsplit, List.length_append] at hlen
          rw [hbehind]
          omega
        obtain ⟨bs, chunks, hwalk, hchunks, hflat⟩ :=
          ih e.2 hshort (.inr ⟨e, (List.mem_filter.mp hmem).1, rfl⟩)
        refine ⟨b :: bs, chunk :: chunks, .more hb hnext ?_ hwalk, .cons hchunk hchunks, ?_⟩
        · -- the first row of the chunk is not before the offset
          obtain ⟨first, hfirst⟩ := List.exists_mem_of_ne_nil chunk hne
          have hfirst' : first ∈ rowsFrom offset rows := by
            rw [hsplit]
            exact List.mem_append_left _ hfirst
          have hle : offset ≤ first.2 := by simpa using (List.mem_filter.mp hfirst').2
          have hsorted' : (chunk ++ e :: rest).Pairwise fun a b : α × ℕ => a.2 < b.2 :=
            hsplit ▸ hsorted.filter _
          exact hle.trans_lt ((List.pairwise_append.mp hsorted').2.2 first hfirst e List.mem_cons_self)
        · rw [List.flatten_cons, hflat, hbehind, hsplit]
  obtain ⟨bs, chunks, hwalk, hchunks, hflat⟩ := hfrom _ 0 le_rfl (.inl rfl)
  have hall : rowsFrom 0 rows = rows := List.filter_eq_self.mpr fun e _ => by simp
  exact ⟨bs, chunks, hwalk, hchunks, hflat.trans hall⟩

end Innen.Common
