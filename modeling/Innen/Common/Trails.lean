import Mathlib.Data.List.Basic

/-!
# Trails

A trail leads from one element to another along labels, each of which leads from an element to the next.
-/

namespace Innen.Common

variable {α β : Type*} {r q : α → β → α → Prop} {a b : α} {path : List β}

/-- Labels that lead from `a` to an element, one after the other. -/
inductive Trail (r : α → β → α → Prop) (a : α) : List β → α → Prop
  | nil : Trail r a [] a
  | snoc {path : List β} {b c : α} {label : β} : Trail r a path b → r b label c → Trail r a (path ++ [label]) c

theorem Trail.mono (h : Trail r a path b) (hstep : ∀ a label b, r a label b → q a label b) : Trail q a path b := by
  induction h with
  | nil => exact .nil
  | snoc _ hlast ih => exact ih.snoc (hstep _ _ _ hlast)

end Innen.Common
