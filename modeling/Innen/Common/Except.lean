import Mathlib.Data.List.Basic

/-!
# Runs that end well

A computation in `Except` that ends in `ok` ran every step of it to `ok`. The lemmas here take such a
run apart.
-/

namespace Innen.Common

universe u

variable {ε α : Type*} {β γ : Type u}

/-- A sequence of two computations ends well iff both do. -/
theorem bind_eq_ok {x : Except ε γ} {f : γ → Except ε β} {b : β} :
    (x >>= f) = .ok b ↔ ∃ a, x = .ok a ∧ f a = .ok b := by
  cases x with
  | error e => exact ⟨fun h => (nomatch h), fun ⟨_, h, _⟩ => (nomatch h)⟩
  | ok a =>
    constructor
    · exact fun h => ⟨a, rfl, h⟩
    · rintro ⟨a', ha, h⟩
      obtain rfl := Except.ok.inj ha
      exact h

/-- What does not end well ends in an error. -/
theorem exists_error {x : Except ε γ} (h : x.isOk = false) : ∃ e, x = .error e := by
  cases x with
  | error e => exact ⟨e, rfl⟩
  | ok a => exact absurd h (by simp [Except.isOk, Except.toBool])

/-- What ends well has a result. -/
theorem exists_ok {x : Except ε α} (h : x.isOk = true) : ∃ a, x = .ok a := by
  cases x with
  | error e => exact absurd h (by simp [Except.isOk, Except.toBool])
  | ok a => exact ⟨a, rfl⟩

/-- `Option::ok_or`. -/
def okOr (o : Option α) (e : ε) : Except ε α :=
  match o with
  | some a => .ok a
  | none => .error e

@[simp] theorem okOr_some (a : α) (e : ε) : okOr (some a) e = .ok a := rfl

@[simp] theorem okOr_none (e : ε) : okOr (none : Option α) e = .error e := rfl

theorem okOr_eq_ok {o : Option α} {e : ε} {a : α} : okOr o e = .ok a ↔ o = some a := by
  cases o <;> simp [okOr]

/-- Stop with `e` when `c` holds. -/
def failIf (c : Prop) [Decidable c] (e : ε) : Except ε Unit := if c then .error e else .ok ()

@[simp] theorem failIf_eq_ok {c : Prop} [Decidable c] {e : ε} {u : Unit} :
    failIf c e = .ok u ↔ ¬c := by
  unfold failIf
  split <;> simp_all

/-- What every step of a fold preserves, the fold preserves. -/
theorem foldlM_ok_induction {f : β → α → Except ε β} (motive : β → Prop) {l : List α} {b b' : β}
    (hstep : ∀ b a b', a ∈ l → motive b → f b a = .ok b' → motive b') (hb : motive b)
    (h : l.foldlM f b = .ok b') : motive b' := by
  induction l generalizing b with
  | nil =>
    obtain rfl := Except.ok.inj h
    exact hb
  | cons a rest ih =>
    rw [List.foldlM_cons, bind_eq_ok] at h
    obtain ⟨c, hc, hrest⟩ := h
    exact ih (fun b a' b' ha' => hstep b a' b' (List.mem_cons_of_mem a ha'))
      (hstep b a c List.mem_cons_self hb hc) hrest

/-- In a fold that ends well every element was taken in. -/
theorem foldlM_ok_mem {f : β → α → Except ε β} {l : List α} {b b' : β} (h : l.foldlM f b = .ok b')
    {a : α} (ha : a ∈ l) : ∃ c c', f c a = .ok c' := by
  induction l generalizing b with
  | nil => exact absurd ha List.not_mem_nil
  | cons x rest ih =>
    rw [List.foldlM_cons, bind_eq_ok] at h
    obtain ⟨c, hc, hrest⟩ := h
    rcases List.mem_cons.mp ha with rfl | ha
    · exact ⟨b, c, hc⟩
    · exact ih hrest ha

/-- What one element establishes and every later step keeps holds after the fold. -/
theorem foldlM_ok_establishes {f : β → α → Except ε β} (motive : β → Prop) {l : List α} {b b' : β} {a : α} (ha : a ∈ l)
    (hset : ∀ b b', f b a = .ok b' → motive b') (hkeep : ∀ b a b', motive b → f b a = .ok b' → motive b')
    (h : l.foldlM f b = .ok b') : motive b' := by
  induction l generalizing b with
  | nil => exact absurd ha List.not_mem_nil
  | cons x rest ih =>
    rw [List.foldlM_cons, bind_eq_ok] at h
    obtain ⟨c, hc, hrest⟩ := h
    rcases List.mem_cons.mp ha with rfl | ha
    · exact foldlM_ok_induction motive (fun b a' b' _ => hkeep b a' b') (hset b c hc) hrest
    · exact ih ha hrest

/-- What one step of a fold establishes under an invariant and all steps keep holds behind the fold. -/
theorem foldl_establishes {σ : Type*} {f : σ → α → σ} (inv goal : σ → Prop) {l : List α} {a : α} (ha : a ∈ l)
    (hinv : ∀ b ∈ l, ∀ s, inv s → inv (f s b)) (hset : ∀ s, inv s → goal (f s a))
    (hkeep : ∀ b ∈ l, ∀ s, goal s → goal (f s b)) {s : σ} (hs : inv s) : goal (l.foldl f s) := by
  induction l generalizing s with
  | nil => exact absurd ha List.not_mem_nil
  | cons b rest ih =>
    rcases List.mem_cons.mp ha with rfl | ha
    · exact List.foldlRecOn rest f (hset s hs) fun s hs c hc => hkeep c (List.mem_cons_of_mem _ hc) s hs
    · exact ih ha (fun c hc => hinv c (List.mem_cons_of_mem _ hc)) (fun c hc => hkeep c (List.mem_cons_of_mem _ hc))
        (hinv b List.mem_cons_self s hs)

/-- Another fold whose steps end well where those of the first one do, and alike. -/
theorem foldlM_ok_congr {f g : β → α → Except ε β} {l : List α} {b b' : β}
    (hstep : ∀ b a b', f b a = .ok b' → g b a = .ok b') (h : l.foldlM f b = .ok b') : l.foldlM g b = .ok b' := by
  induction l generalizing b with
  | nil => exact h
  | cons a rest ih =>
    rw [List.foldlM_cons, bind_eq_ok] at h ⊢
    obtain ⟨c, hc, hrest⟩ := h
    exact ⟨c, hstep b a c hc, ih hrest⟩

/-- A fold whose steps end well or not whatever came before ends well when all its steps do. -/
theorem exists_foldlM_ok_iff {f : β → α → Except ε β} {p : α → Prop}
    (hstep : ∀ b a, (∃ b', f b a = .ok b') ↔ p a) {l : List α} (b : β) :
    (∃ b', l.foldlM f b = .ok b') ↔ ∀ a ∈ l, p a := by
  induction l generalizing b with
  | nil => exact iff_of_true ⟨b, rfl⟩ (by simp)
  | cons a rest ih =>
    rw [List.forall_mem_cons, ← hstep b a]
    constructor
    · rintro ⟨b', hb'⟩
      rw [List.foldlM_cons] at hb'
      obtain ⟨c, hc, hrest⟩ := bind_eq_ok.mp hb'
      exact ⟨⟨c, hc⟩, (ih c).mp ⟨b', hrest⟩⟩
    · rintro ⟨⟨c, hc⟩, hrest⟩
      obtain ⟨b', hb'⟩ := (ih c).mpr hrest
      exact ⟨b', by rw [List.foldlM_cons, hc]; exact hb'⟩

/-- What a list of computations gives comes from its elements, and each element gives something. -/
theorem mapM_ok {f : α → Except ε β} {l : List α} {bs : List β} (h : l.mapM f = .ok bs) :
    (∀ b ∈ bs, ∃ a ∈ l, f a = .ok b) ∧ ∀ a ∈ l, ∃ b ∈ bs, f a = .ok b := by
  induction l generalizing bs with
  | nil =>
    obtain rfl := Except.ok.inj h
    exact ⟨fun b hb => absurd hb List.not_mem_nil, fun a ha => absurd ha List.not_mem_nil⟩
  | cons a rest ih =>
    rw [List.mapM_cons] at h
    obtain ⟨b, hb, hrest⟩ := bind_eq_ok.mp h
    obtain ⟨tail, htail, hbs⟩ := bind_eq_ok.mp hrest
    obtain rfl := Except.ok.inj hbs
    obtain ⟨hfrom, hto⟩ := ih htail
    constructor
    · intro c hc
      rcases List.mem_cons.mp hc with rfl | hc
      · exact ⟨a, List.mem_cons_self, hb⟩
      · obtain ⟨d, hd, hfd⟩ := hfrom c hc
        exact ⟨d, List.mem_cons_of_mem _ hd, hfd⟩
    · intro d hd
      rcases List.mem_cons.mp hd with rfl | hd
      · exact ⟨b, List.mem_cons_self, hb⟩
      · obtain ⟨c, hc, hfd⟩ := hto d hd
        exact ⟨c, List.mem_cons_of_mem _ hc, hfd⟩

/-- The list of what a list of computations gives, element by element. -/
theorem forall₂_of_mapM {f : α → Except ε β} {l : List α} {bs : List β} (h : l.mapM f = .ok bs) :
    List.Forall₂ (fun a b => f a = .ok b) l bs := by
  induction l generalizing bs with
  | nil =>
    obtain rfl := Except.ok.inj h
    exact .nil
  | cons a rest ih =>
    rw [List.mapM_cons] at h
    obtain ⟨b, hb, h⟩ := bind_eq_ok.mp h
    obtain ⟨bs, hbs, h⟩ := bind_eq_ok.mp h
    obtain rfl := Except.ok.inj h
    exact .cons hb (ih hbs)

/-- What is related element by element has a partner for every element. -/
theorem exists_of_forall₂ {α β : Type*} {R : α → β → Prop} {as : List α} {bs : List β} (h : List.Forall₂ R as bs)
    {a : α} (ha : a ∈ as) : ∃ b ∈ bs, R a b := by
  induction h with
  | nil => exact absurd ha List.not_mem_nil
  | @cons c d _ _ hcd _ ih =>
    rcases List.mem_cons.mp ha with rfl | ha
    · exact ⟨d, List.mem_cons_self, hcd⟩
    · obtain ⟨b, hb, hab⟩ := ih ha
      exact ⟨b, List.mem_cons_of_mem _ hb, hab⟩

/-- A renamed error does not change what ends well. -/
theorem mapError_eq_ok {ε' : Type*} {x : Except ε β} {f : ε → ε'} {b : β} :
    x.mapError f = .ok b ↔ x = .ok b := by
  cases x <;> simp [Except.mapError]

end Innen.Common
