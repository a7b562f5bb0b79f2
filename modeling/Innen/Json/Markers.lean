import Innen.Common.Except
import Innen.Json.Value

/-!
# Markers for strings

An encoder may replace strings of a value by markers, objects with a single reserved key. When no object of
the value has that key and every marker is resolved to its string, unmarking gives the value back
(`unmark_mark`).
-/

namespace Innen.Value

open Common

/-! ## What a value contains -/

mutual

/-- All strings of a value but the keys, in order. -/
def allStrings : Value → List String
  | .string s => [s]
  | .array items => itemsStrings items
  | .object fields => fieldsStrings fields
  | _ => []

/-- `allStrings` on items. -/
def itemsStrings : List Value → List String
  | [] => []
  | v :: rest => allStrings v ++ itemsStrings rest

/-- `allStrings` on fields. -/
def fieldsStrings : Fields → List String
  | [] => []
  | (_, v) :: rest => allStrings v ++ fieldsStrings rest

end

mutual

/-- All keys of all objects in a value. -/
def allKeys : Value → List String
  | .array items => itemsKeys items
  | .object fields => fieldsKeys fields
  | _ => []

/-- `allKeys` on items. -/
def itemsKeys : List Value → List String
  | [] => []
  | v :: rest => allKeys v ++ itemsKeys rest

/-- `allKeys` on fields. -/
def fieldsKeys : Fields → List String
  | [] => []
  | (k, v) :: rest => k :: (allKeys v ++ fieldsKeys rest)

end

theorem allKeys_item {items : List Value} {v : Value} (hv : v ∈ items) {key : String} (h : key ∈ v.allKeys) :
    key ∈ (Value.array items).allKeys := by
  rw [allKeys]
  induction items with
  | nil => cases hv
  | cons w rest ih =>
    rw [itemsKeys, List.mem_append]
    rcases List.mem_cons.mp hv with rfl | hv
    · exact .inl h
    · exact .inr (ih hv)

theorem allKeys_field {fields : Fields} {e : String × Value} (he : e ∈ fields) {key : String}
    (h : key ∈ e.2.allKeys) : key ∈ (Value.object fields).allKeys := by
  rw [allKeys]
  induction fields with
  | nil => cases he
  | cons e' rest ih =>
    rw [fieldsKeys, List.mem_cons, List.mem_append]
    rcases List.mem_cons.mp he with rfl | he
    · exact .inr (.inl h)
    · exact .inr (.inr (ih he))

theorem allKeys_self {fields : Fields} {key : String} (h : key ∈ Assoc.keys fields) :
    key ∈ (Value.object fields).allKeys := by
  rw [allKeys]
  induction fields with
  | nil => cases h
  | cons e rest ih =>
    rw [fieldsKeys, List.mem_cons, List.mem_append]
    rcases List.mem_cons.mp h with rfl | h
    · exact .inl rfl
    · exact .inr (.inr (ih h))

/-! ## A fresh key -/

/-- Append underscores to a key while it is taken. -/
def freshKey (keys : List String) : ℕ → String → String
  | 0, key => key
  | fuel + 1, key => if key ∈ keys then freshKey keys fuel (key ++ "_") else key

/-- A key longer than all others is not taken, so there is no need for more underscores than keys. -/
theorem freshKey_not_mem (keys : List String) (fuel : ℕ) (key : String)
    (h : (keys.filter fun k => decide (key.length ≤ k.length)).length ≤ fuel) :
    freshKey keys fuel key ∉ keys := by
  induction fuel generalizing key with
  | zero =>
    intro hmem
    have hlong : key ∈ keys.filter fun k => decide (key.length ≤ k.length) :=
      List.mem_filter.mpr ⟨hmem, by simp⟩
    exact absurd (List.length_pos_of_mem hlong) (Nat.not_lt.mpr h)
  | succ fuel ih =>
    rw [freshKey]
    split
    · rename_i hmem
      refine ih _ (Nat.le_of_lt_succ (Nat.lt_of_lt_of_le ?_ h))
      have hsub : ((keys.filter fun k => decide (key.length ≤ k.length)).filter
          fun k => decide ((key ++ "_").length ≤ k.length)) =
          keys.filter fun k => decide ((key ++ "_").length ≤ k.length) := by
        rw [List.filter_filter]
        refine List.filter_congr fun k _ => ?_
        have hlen : (key ++ "_").length = key.length + 1 := String.length_append key "_"
        rw [hlen]
        by_cases hk : key.length + 1 ≤ k.length
        · simp [hk, Nat.le_of_succ_le hk]
        · simp [hk]
      rw [← hsub]
      -- the key itself is no longer among them
      refine List.length_filter_lt_length_iff_exists.mpr ⟨key, List.mem_filter.mpr ⟨hmem, by simp⟩, ?_⟩
      simp
    · rename_i hmem
      exact hmem

/-! ## Marking and unmarking -/

section

variable {ε : Type*} (f : String → Option Value) (g : Value → Except ε Value) (ambiguous : ε) (key : String)

mutual

/-- Replace strings by markers. -/
def mark : Value → Value
  | .string s => match f s with
    | some ref => .object [(key, ref)]
    | none => .string s
  | .array items => .array (markItems items)
  | .object fields => .object (markFields fields)
  | v => v

/-- `mark` on items. -/
def markItems : List Value → List Value
  | [] => []
  | v :: rest => mark v :: markItems rest

/-- `mark` on fields. -/
def markFields : Fields → Fields
  | [] => []
  | (k, v) :: rest => (k, mark v) :: markFields rest

end

mutual

/-- Replace markers by what they stand for. -/
def unmark : Value → Except ε Value
  | .object fields =>
    match Assoc.get? key fields with
    | some ref => if fields.length = 1 then g ref else .error ambiguous
    | none => (unmarkFields fields).map Value.object
  | .array items => (unmarkItems items).map Value.array
  | v => .ok v

/-- `unmark` on items. -/
def unmarkItems : List Value → Except ε (List Value)
  | [] => .ok []
  | v :: rest => do
    let v ← unmark v
    let rest ← unmarkItems rest
    .ok (v :: rest)

/-- `unmark` on fields. -/
def unmarkFields : Fields → Except ε Fields
  | [] => .ok []
  | (k, v) :: rest => do
    let v ← unmark v
    let rest ← unmarkFields rest
    .ok ((k, v) :: rest)

end

variable {f g ambiguous key}

theorem markItems_eq (items : List Value) : markItems f key items = items.map (mark f key) := by
  induction items with
  | nil => rfl
  | cons v rest ih => rw [markItems, ih, List.map_cons]

theorem markFields_eq (fields : Fields) :
    markFields f key fields = fields.map fun e => (e.1, mark f key e.2) := by
  induction fields with
  | nil => rfl
  | cons e rest ih => rw [markFields, ih, List.map_cons]

@[simp] theorem mark_array (items : List Value) :
    (Value.array items).mark f key = .array (items.map (mark f key)) := by rw [mark, markItems_eq]

@[simp] theorem mark_object (fields : Fields) :
    (Value.object fields).mark f key = .object (fields.map fun e => (e.1, mark f key e.2)) := by
  rw [mark, markFields_eq]

theorem unmarkItems_map {items : List Value} (h : ∀ v ∈ items, unmark g ambiguous key (mark f key v) = .ok v) :
    unmarkItems g ambiguous key (items.map (mark f key)) = .ok items := by
  induction items with
  | nil => rfl
  | cons v rest ih =>
    rw [List.map_cons, unmarkItems, h v List.mem_cons_self, ih fun w hw => h w (List.mem_cons_of_mem _ hw)]
    rfl

theorem unmarkFields_map {fields : Fields}
    (h : ∀ e ∈ fields, unmark g ambiguous key (mark f key e.2) = .ok e.2) :
    unmarkFields g ambiguous key (fields.map fun e => (e.1, mark f key e.2)) = .ok fields := by
  induction fields with
  | nil => rfl
  | cons e rest ih =>
    rw [List.map_cons, unmarkFields, h e List.mem_cons_self, ih fun w hw => h w (List.mem_cons_of_mem _ hw)]
    rfl

/-- Markers under a key that the value does not use are told from it. -/
theorem unmark_mark (hfg : ∀ s ref, f s = some ref → g ref = .ok (.string s)) (v : Value)
    (hkey : key ∉ v.allKeys) : unmark g ambiguous key (mark f key v) = .ok v := by
  induction v using Value.induct with
  | null => rw [mark, unmark] <;> simp
  | bool b => rw [mark, unmark] <;> simp
  | number n => rw [mark, unmark] <;> simp
  | string s =>
    rw [mark]
    cases hf : f s with
    | none => rw [unmark] <;> simp
    | some ref =>
      simp only [unmark, Assoc.get?_cons, if_true, List.length_singleton]
      exact hfg s ref hf
  | array items ih =>
    rw [mark_array, unmark, unmarkItems_map fun v hv => ih v hv fun h => hkey (allKeys_item hv h)]
    rfl
  | object fields ih =>
    have hnone : Assoc.get? key (fields.map fun e => (e.1, mark f key e.2)) = none := by
      rw [Assoc.get?_map, Assoc.get?_eq_none_iff.mpr fun h => hkey (allKeys_self h)]
      rfl
    rw [mark_object, unmark, hnone, unmarkFields_map fun e he => ih e he fun h => hkey (allKeys_field he h)]
    rfl

theorem get?_mark (fields : Fields) (k : String) :
    ((Value.object fields).mark f key).get? k = ((Value.object fields).get? k).map (mark f key) := by
  rw [mark_object, get?_object, Assoc.get?_map, get?_object]

/-! ## Size -/

mutual

/-- The number of values in a value. -/
def nodes : Value → ℕ
  | .array items => itemsNodes items + 1
  | .object fields => fieldsNodes fields + 1
  | _ => 1

/-- `nodes` on items. -/
def itemsNodes : List Value → ℕ
  | [] => 0
  | v :: rest => nodes v + itemsNodes rest

/-- `nodes` on fields. -/
def fieldsNodes : Fields → ℕ
  | [] => 0
  | (_, v) :: rest => nodes v + fieldsNodes rest

end

theorem nodes_field {fields : Fields} {e : String × Value} (he : e ∈ fields) :
    e.2.nodes < (Value.object fields).nodes := by
  rw [nodes, Nat.lt_succ_iff]
  induction fields with
  | nil => cases he
  | cons e' rest ih =>
    rw [fieldsNodes]
    rcases List.mem_cons.mp he with rfl | he
    · exact Nat.le_add_right _ _
    · exact (ih he).trans (Nat.le_add_left _ _)

theorem nodes_get? {v w : Value} {k : String} (h : v.get? k = some w) : w.nodes < v.nodes := by
  cases v with
  | object fields => exact nodes_field (Assoc.get?_some_mem h)
  | _ => cases h

theorem nodes_pos (v : Value) : 0 < v.nodes := by
  cases v <;> simp [nodes]

/-- A marker is larger than the leaf that it stands for. -/
theorem nodes_unmark (hleaf : ∀ ref w, g ref = .ok w → w.nodes ≤ 1) (v : Value) {w : Value}
    (h : unmark g ambiguous key v = .ok w) : w.nodes ≤ v.nodes := by
  induction v using Value.induct generalizing w with
  | null => rw [unmark] at h <;> simp_all
  | bool b => rw [unmark] at h <;> simp_all
  | number n => rw [unmark] at h <;> simp_all
  | string s => rw [unmark] at h <;> simp_all
  | array items ih =>
    rw [unmark] at h
    cases hitems : unmarkItems g ambiguous key items with
    | error e => rw [hitems] at h; cases h
    | ok items' =>
      rw [hitems] at h
      obtain rfl := Except.ok.inj h
      rw [nodes, nodes]
      refine Nat.succ_le_succ ?_
      clear h
      induction items generalizing items' with
      | nil => obtain rfl := Except.ok.inj hitems; exact Nat.le_refl _
      | cons v rest ihrest =>
        rw [unmarkItems] at hitems
        obtain ⟨v', hv', hrest⟩ := bind_eq_ok.mp hitems
        obtain ⟨rest', hrest', heq⟩ := bind_eq_ok.mp hrest
        obtain rfl := Except.ok.inj heq
        exact Nat.add_le_add (ih v List.mem_cons_self hv')
          (ihrest (fun w hw => ih w (List.mem_cons_of_mem _ hw)) rest' hrest')
  | object fields ih =>
    rw [unmark] at h
    cases hget : Assoc.get? key fields with
    | some ref =>
      rw [hget] at h
      simp only at h
      split at h
      · exact (hleaf _ _ h).trans (nodes_pos _)
      · cases h
    | none =>
      rw [hget] at h
      cases hfields : unmarkFields g ambiguous key fields with
      | error e => simp only [hfields] at h; cases h
      | ok fields' =>
        simp only [hfields] at h
        obtain rfl := Except.ok.inj h
        rw [nodes, nodes]
        refine Nat.succ_le_succ ?_
        clear h hget
        induction fields generalizing fields' with
        | nil => obtain rfl := Except.ok.inj hfields; exact Nat.le_refl _
        | cons e rest ihrest =>
          obtain ⟨k, v⟩ := e
          rw [unmarkFields] at hfields
          obtain ⟨v', hv', hrest⟩ := bind_eq_ok.mp hfields
          obtain ⟨rest', hrest', heq⟩ := bind_eq_ok.mp hrest
          obtain rfl := Except.ok.inj heq
          exact Nat.add_le_add (ih (k, v) List.mem_cons_self hv')
            (ihrest (fun w hw => ih w (List.mem_cons_of_mem _ hw)) rest' hrest')

end

end Innen.Value
