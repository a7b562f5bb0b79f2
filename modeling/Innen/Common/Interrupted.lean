import Mathlib.Data.List.Basic

/-!
# Writes that stop half-way

A program performs a list of writes on a state. When it crashes, or one of the writes fails, the writes
before are done and the current one is done in part. `Interrupted` are the states that this can leave. A task that
nothing stops is given by its writes and by how it ends (`Course`).
-/

namespace Innen.Common

variable {σ ω : Type*}

/-- Perform all writes. -/
def performAll (perform : ω → σ → σ) (s : σ) (ws : List ω) : σ := ws.foldl (fun s w => perform w s) s

/-- The states that the writes leave when they stop somewhere; `part` are the effects of a single write
that stops, from none to all of it. -/
inductive Interrupted (perform : ω → σ → σ) (part : ω → σ → σ → Prop) : σ → List ω → σ → Prop
  | here {s s' : σ} {w : ω} {rest : List ω} (h : part w s s') : Interrupted perform part s (w :: rest) s'
  | later {s s' : σ} {w : ω} {rest : List ω} (h : Interrupted perform part (perform w s) rest s') :
      Interrupted perform part s (w :: rest) s'

variable {perform : ω → σ → σ} {part : ω → σ → σ → Prop}

/-- What every write keeps, done or stopped, holds whenever the writes stop. -/
theorem Interrupted.invariant (inv : σ → Prop) {s s' : σ} {ws : List ω}
    (h : Interrupted perform part s ws s') (hpart : ∀ w ∈ ws, ∀ s s', inv s → part w s s' → inv s')
    (hdone : ∀ w ∈ ws, ∀ s, inv s → inv (perform w s)) (hs : inv s) : inv s' := by
  induction h with
  | here h => exact hpart _ List.mem_cons_self _ _ hs h
  | later h ih =>
    exact ih (fun w hw => hpart w (List.mem_cons_of_mem _ hw))
      (fun w hw => hdone w (List.mem_cons_of_mem _ hw)) (hdone _ List.mem_cons_self _ hs)

/-- What every write keeps holds when all of them are done. -/
theorem performAll_invariant (inv : σ → Prop) {s : σ} {ws : List ω}
    (hdone : ∀ w ∈ ws, ∀ s, inv s → inv (perform w s)) (hs : inv s) : inv (performAll perform s ws) := by
  induction ws generalizing s with
  | nil => exact hs
  | cons w rest ih =>
    exact ih (fun w' hw' => hdone w' (List.mem_cons_of_mem w hw')) (hdone w List.mem_cons_self s hs)

/-- Writes that stop do so among the first ones or behind them. -/
theorem interrupted_append {s s' : σ} {ws ws' : List ω} :
    Interrupted perform part s (ws ++ ws') s' ↔
      Interrupted perform part s ws s' ∨ Interrupted perform part (performAll perform s ws) ws' s' := by
  induction ws generalizing s with
  | nil => exact ⟨.inr, fun h => h.elim (fun h => nomatch h) id⟩
  | cons w rest ih =>
    constructor
    · rintro (h | h)
      · exact .inl (.here h)
      · exact (ih.mp h).imp .later id
    · rintro ((h | h) | h)
      · exact .here h
      · exact .later (ih.mpr (.inl h))
      · exact .later (ih.mpr (.inr h))

/-- Writes that are all done stop behind the last one. -/
theorem interrupted_performAll (hpart : ∀ w s, part w s (perform w s)) {s : σ} {ws : List ω} (hne : ws ≠ []) :
    Interrupted perform part s ws (performAll perform s ws) := by
  induction ws generalizing s with
  | nil => exact absurd rfl hne
  | cons w rest ih =>
    by_cases hrest : rest = []
    · subst hrest
      exact .here (hpart w s)
    · exact .later (ih hrest)

/-! ## Tasks -/

/-- A task that nothing stops: its writes in order, and how it ends. -/
structure Course (ω ε : Type*) where
  writes : List ω
  result : Except ε Unit

namespace Course

variable {ε : Type*}

/-- A task that ends before it writes anything. -/
def plain (result : Except ε Unit) : Course ω ε := ⟨[], result⟩

/-- The state after a task. -/
def done (perform : ω → σ → σ) (c : Course ω ε) (s : σ) : σ := performAll perform s c.writes

/-- A task and, if it ends well, another one. -/
def andThen (perform : ω → σ → σ) (c : Course ω ε) (s : σ) (next : σ → Course ω ε) : Course ω ε :=
  match c.result with
  | .error _ => c
  | .ok _ => ⟨c.writes ++ (next (c.done perform s)).writes, (next (c.done perform s)).result⟩

/-- A task whose errors are renamed. -/
def mapError (f : ε → ε) (c : Course ω ε) : Course ω ε := ⟨c.writes, c.result.mapError f⟩

/-- One task for each element of a list, until one does not end well. -/
def forEach {α : Type*} (perform : ω → σ → σ) (task : α → σ → Course ω ε) : List α → σ → Course ω ε
  | [], _ => plain (.ok ())
  | a :: rest, s => (task a s).andThen perform s (forEach perform task rest)

variable {c : Course ω ε} {s : σ} {next : σ → Course ω ε}

theorem mem_andThen {w : ω} (hw : w ∈ (c.andThen perform s next).writes) :
    w ∈ c.writes ∨ c.result = .ok () ∧ w ∈ (next (c.done perform s)).writes := by
  rw [andThen] at hw
  split at hw
  · exact .inl hw
  · rename_i hr
    exact (List.mem_append.mp hw).imp_right fun hw => ⟨hr, hw⟩

theorem andThen_result :
    (c.andThen perform s next).result = .ok () ↔
      c.result = .ok () ∧ (next (c.done perform s)).result = .ok () := by
  rw [andThen]
  split
  · rename_i e he
    simp [he]
  · rename_i he
    simp [he]

theorem andThen_of_ok (h : c.result = .ok ()) : c.andThen perform s next =
    ⟨c.writes ++ (next (c.done perform s)).writes, (next (c.done perform s)).result⟩ := by
  rw [andThen, h]

theorem andThen_of_error {e : ε} (h : c.result = .error e) : c.andThen perform s next = c := by
  rw [andThen, h]

theorem done_andThen (h : c.result = .ok ()) :
    (c.andThen perform s next).done perform s = (next (c.done perform s)).done perform (c.done perform s) := by
  rw [andThen_of_ok h, done, performAll, List.foldl_append]
  rfl

/-- A task that stops does so in its first part, or in its second part behind a first one that ends well. -/
theorem interrupted_andThen {s' : σ} (h : Interrupted perform part s (c.andThen perform s next).writes s') :
    Interrupted perform part s c.writes s' ∨
      c.result = .ok () ∧ Interrupted perform part (c.done perform s) (next (c.done perform s)).writes s' := by
  cases hr : c.result with
  | error e =>
    rw [andThen_of_error hr] at h
    exact .inl h
  | ok u =>
    rw [andThen_of_ok hr] at h
    exact (interrupted_append.mp h).imp_right fun h => ⟨rfl, h⟩

section ForEach

variable {α : Type*} {task : α → σ → Course ω ε} {l : List α}

theorem mem_forEach {w : ω} (hw : w ∈ (forEach perform task l s).writes) : ∃ a ∈ l, ∃ s', w ∈ (task a s').writes := by
  induction l generalizing s with
  | nil => cases hw
  | cons a rest ih =>
    rcases mem_andThen hw with hw | ⟨-, hw⟩
    · exact ⟨a, List.mem_cons_self, s, hw⟩
    · obtain ⟨b, hb, h⟩ := ih hw
      exact ⟨b, List.mem_cons_of_mem a hb, h⟩

/-- Tasks that keep an invariant, of which each establishes something for its element that the others keep, establish
it for every element. -/
theorem forEach_all (inv : σ → Prop) (post : α → σ → Prop)
    (htask : ∀ a ∈ l, ∀ s, inv s → (task a s).result = .ok () → inv ((task a s).done perform s) ∧
      post a ((task a s).done perform s) ∧ ∀ b, post b s → post b ((task a s).done perform s))
    (hs : inv s) (hok : (forEach perform task l s).result = .ok ()) :
    inv ((forEach perform task l s).done perform s) ∧
      (∀ a ∈ l, post a ((forEach perform task l s).done perform s)) ∧
      ∀ b, post b s → post b ((forEach perform task l s).done perform s) := by
  induction l generalizing s with
  | nil => exact ⟨hs, fun a ha => (by cases ha), fun b hb => hb⟩
  | cons a rest ih =>
    obtain ⟨hfirst, hrest⟩ := andThen_result.mp hok
    obtain ⟨hinv, hpost, hkeep⟩ := htask a List.mem_cons_self s hs hfirst
    obtain ⟨hinv', hall, hkeep'⟩ := ih (fun b hb => htask b (List.mem_cons_of_mem a hb)) hinv hrest
    rw [forEach, done_andThen hfirst]
    refine ⟨hinv', ?_, fun b hb => hkeep' b (hkeep b hb)⟩
    rintro b hb
    rcases List.mem_cons.mp hb with rfl | hb
    · exact hkeep' b hpost
    · exact hall b hb

/-- Tasks that end well on what they need, and leave what the others need, end well one after the other. -/
theorem forEach_ok (inv : σ → Prop) (pre : α → σ → Prop) (hnodup : l.Nodup)
    (htask : ∀ a ∈ l, ∀ s, inv s → pre a s → (task a s).result = .ok () ∧ inv ((task a s).done perform s) ∧
      ∀ b, b ≠ a → pre b s → pre b ((task a s).done perform s))
    (hs : inv s) (hpre : ∀ a ∈ l, pre a s) :
    (forEach perform task l s).result = .ok () ∧ inv ((forEach perform task l s).done perform s) := by
  induction l generalizing s with
  | nil => exact ⟨rfl, hs⟩
  | cons a rest ih =>
    obtain ⟨hfresh, hnodup⟩ := List.nodup_cons.mp hnodup
    obtain ⟨hfirst, hinv, hkeep⟩ := htask a List.mem_cons_self s hs (hpre a List.mem_cons_self)
    obtain ⟨hrest, hdone⟩ := ih hnodup (fun b hb => htask b (List.mem_cons_of_mem a hb)) hinv fun b hb =>
      hkeep b (fun heq => hfresh (heq ▸ hb)) (hpre b (List.mem_cons_of_mem a hb))
    refine ⟨andThen_result.mpr ⟨hfirst, hrest⟩, ?_⟩
    rw [forEach, done_andThen hfirst]
    exact hdone

end ForEach

end Course

end Innen.Common
