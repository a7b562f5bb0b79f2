import Innen.Common.SortedMap
import Mathlib.Logic.Relation

/-!
# Collecting everything reachable with a stack

A set grows from some seeds: the top of a stack of pending elements is taken off, its successors that
the set does not hold yet are marked and pushed. The successors all lie in one finite set, so every
push uses up an unmarked element and the loop ends; what it returns is the set of everything reachable
from the seeds.
-/

namespace Innen.Common.Worklist

variable {α : Type*} [LinearOrder α]

/-- Mark the elements that are not marked yet and push each of them. -/
def pushFresh (result : SortedSet α) (pending : List α) : List α → SortedSet α × List α
  | [] => (result, pending)
  | b :: rest =>
    if b ∈ result then pushFresh result pending rest
    else pushFresh (result.insert b) (b :: pending) rest

/-- How many elements of the known set are not marked. -/
def unmarked (known : List α) (result : SortedSet α) : ℕ :=
  (known.filter fun a => decide (a ∉ result)).length

/-- Marking a known element leaves fewer of them unmarked. -/
theorem unmarked_insert_lt {known : List α} {result : SortedSet α} {b : α} (hb : b ∈ known)
    (hfresh : b ∉ result) : unmarked known (result.insert b) < unmarked known result := by
  have hsub : (known.filter fun a => decide (a ∉ result.insert b)).Sublist
      (known.filter fun a => decide (a ∉ result)) := by
    apply List.monotone_filter_right
    intro a ha
    have : a ∉ result.insert b := of_decide_eq_true ha
    exact decide_eq_true fun hr => this (SortedSet.mem_insert.mpr (.inr hr))
  refine lt_of_le_of_ne hsub.length_le fun heq => ?_
  -- equal lengths would make the filters equal, yet only one of them still holds `b`
  have hfilter := hsub.eq_of_length heq
  have hmem : b ∈ known.filter fun a => decide (a ∉ result) :=
    List.mem_filter.mpr ⟨hb, decide_eq_true hfresh⟩
  rw [← hfilter] at hmem
  have := of_decide_eq_true (List.mem_filter.mp hmem).2
  exact this (SortedSet.mem_insert.mpr (.inl rfl))

/-- Every push is paid for by an element that was not marked before. -/
theorem unmarked_pushFresh {known : List α} {succs : List α} (hsuccs : ∀ b ∈ succs, b ∈ known)
    (result : SortedSet α) (pending : List α) :
    unmarked known (pushFresh result pending succs).1 + (pushFresh result pending succs).2.length ≤
      unmarked known result + pending.length := by
  induction succs generalizing result pending with
  | nil => exact le_rfl
  | cons b rest ih =>
    have hrest : ∀ c ∈ rest, c ∈ known := fun c hc => hsuccs c (List.mem_cons_of_mem b hc)
    simp only [pushFresh]
    split
    · exact ih hrest result pending
    · rename_i hfresh
      have hlt := unmarked_insert_lt (hsuccs b List.mem_cons_self) hfresh
      have hle := ih hrest (result.insert b) (b :: pending)
      rw [List.length_cons] at hle
      omega

/-- The loop: take the top of the stack, mark and push its fresh successors, until the stack is empty. -/
def collect (known : List α) (succ : α → List α) (hsucc : ∀ a, ∀ b ∈ succ a, b ∈ known)
    (result : SortedSet α) : List α → SortedSet α
  | [] => result
  | a :: pending =>
    collect known succ hsucc (pushFresh result pending (succ a)).1 (pushFresh result pending (succ a)).2
termination_by pending => unmarked known result + pending.length
decreasing_by
  have hle := unmarked_pushFresh (hsucc a) result pending
  rw [List.length_cons]
  omega

/-! ## What is collected -/

theorem mem_pushFresh_fst {result : SortedSet α} {pending succs : List α} {c : α} :
    c ∈ (pushFresh result pending succs).1 ↔ c ∈ result ∨ c ∈ succs := by
  induction succs generalizing result pending with
  | nil => simp [pushFresh]
  | cons b rest ih =>
    simp only [pushFresh]
    split
    · rename_i hb
      rw [ih, List.mem_cons]
      exact ⟨Or.imp_right .inr, fun h => h.elim .inl (Or.elim · (fun hc => .inl (hc ▸ hb)) .inr)⟩
    · rw [ih, SortedSet.mem_insert, List.mem_cons]
      tauto

theorem mem_pushFresh_snd {result : SortedSet α} {pending succs : List α} {c : α} :
    c ∈ (pushFresh result pending succs).2 ↔ c ∈ pending ∨ (c ∈ succs ∧ c ∉ result) := by
  induction succs generalizing result pending with
  | nil => simp [pushFresh]
  | cons b rest ih =>
    simp only [pushFresh]
    split
    · rename_i hb
      rw [ih, List.mem_cons]
      refine or_congr_right ⟨fun h => ⟨.inr h.1, h.2⟩, fun h => ⟨?_, h.2⟩⟩
      exact h.1.resolve_left fun hc => h.2 (hc ▸ hb)
    · rename_i hb
      rw [ih, List.mem_cons, SortedSet.mem_insert, List.mem_cons]
      constructor
      · rintro ((rfl | hc) | ⟨hc, hn⟩)
        · exact .inr ⟨.inl rfl, hb⟩
        · exact .inl hc
        · exact .inr ⟨.inr hc, fun hr => hn (.inr hr)⟩
      · rintro (hc | ⟨rfl | hc, hn⟩)
        · exact .inl (.inr hc)
        · exact .inl (.inl rfl)
        · by_cases hcb : c = b
          · exact .inl (.inl hcb)
          · exact .inr ⟨hc, fun h => h.elim hcb hn⟩

/-- The successor relation of the loop. -/
def Step (succ : α → List α) (a b : α) : Prop := b ∈ succ a

/-- From a marked element every path stays marked up to a pending element or to its end. -/
theorem marked_or_pending {succ : α → List α} {result : SortedSet α} {pending : List α}
    (hclosed : ∀ a ∈ result, a ∈ pending ∨ ∀ b ∈ succ a, b ∈ result) {d c : α} (hd : d ∈ result)
    (hreach : Relation.ReflTransGen (Step succ) d c) :
    c ∈ result ∨ ∃ a ∈ pending, Relation.ReflTransGen (Step succ) a c := by
  induction hreach using Relation.ReflTransGen.head_induction_on with
  | refl => exact .inl hd
  | @head x y hstep hrest ih =>
    rcases hclosed x hd with hp | hall
    · exact .inr ⟨x, hp, Relation.ReflTransGen.head hstep hrest⟩
    · exact ih (hall y hstep)

/-- As long as every marked element is pending or has all its successors marked, the loop returns what
is marked already and what the pending elements reach. -/
theorem mem_collect {known : List α} {succ : α → List α} {hsucc : ∀ a, ∀ b ∈ succ a, b ∈ known}
    {result : SortedSet α} {pending : List α}
    (hclosed : ∀ a ∈ result, a ∈ pending ∨ ∀ b ∈ succ a, b ∈ result)
    (hmarked : ∀ a ∈ pending, a ∈ result) {c : α} :
    c ∈ collect known succ hsucc result pending ↔
      c ∈ result ∨ ∃ a ∈ pending, Relation.ReflTransGen (Step succ) a c := by
  induction result, pending using collect.induct known succ hsucc with
  | case1 result => simp [collect]
  | case2 result a pending ih =>
    have hnext : ∀ d ∈ (pushFresh result pending (succ a)).1,
        d ∈ (pushFresh result pending (succ a)).2 ∨
          ∀ b ∈ succ d, b ∈ (pushFresh result pending (succ a)).1 := by
      intro d hd
      rw [mem_pushFresh_snd]
      simp only [mem_pushFresh_fst]
      by_cases hdr : d ∈ result
      · rcases hclosed d hdr with hp | hall
        · rcases List.mem_cons.mp hp with rfl | hp
          · exact .inr fun b hb => .inr hb
          · exact .inl (.inl hp)
        · exact .inr fun b hb => .inl (hall b hb)
      · exact .inl (.inr ⟨(mem_pushFresh_fst.mp hd).resolve_left hdr, hdr⟩)
    have hpushed : ∀ d ∈ (pushFresh result pending (succ a)).2,
        d ∈ (pushFresh result pending (succ a)).1 := by
      intro d hd
      rw [mem_pushFresh_fst]
      rcases mem_pushFresh_snd.mp hd with hp | ⟨hs, -⟩
      · exact .inl (hmarked d (List.mem_cons_of_mem a hp))
      · exact .inr hs
    rw [collect, ih hnext hpushed, mem_pushFresh_fst]
    constructor
    · rintro ((hr | hs) | ⟨d, hd, hreach⟩)
      · exact .inl hr
      · exact .inr ⟨a, List.mem_cons_self, Relation.ReflTransGen.single hs⟩
      · rcases mem_pushFresh_snd.mp hd with hp | ⟨hs, -⟩
        · exact .inr ⟨d, List.mem_cons_of_mem a hp, hreach⟩
        · exact .inr ⟨a, List.mem_cons_self, Relation.ReflTransGen.head hs hreach⟩
    · rintro (hr | ⟨d, hd, hreach⟩)
      · exact .inl (.inl hr)
      · have hmark : d ∈ (pushFresh result pending (succ a)).1 :=
          mem_pushFresh_fst.mpr (.inl (hmarked d hd))
        exact (marked_or_pending hnext hmark hreach).imp_left mem_pushFresh_fst.mp

end Innen.Common.Worklist
