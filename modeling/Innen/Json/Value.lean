import Innen.Common.SortedMap
import Innen.Common.Text
import Mathlib.Tactic.TypeStar

/-!
# JSON values

The value type the program passes everywhere: `serde_json::Value` with its ordered-map objects. An
object is the ascending list of its fields, so two well-formed values are equal exactly when they
print the same text.

The library's own equality `beq` is coarser than that in one place: numbers compare as `f64`, hence
`0.0 == -0.0`, although the two print differently.
-/

namespace Innen

open Common

/-- A JSON number: an unsigned integer, a negative integer `-(n + 1)`, or a finite `f64` by its bits. -/
inductive Number
  | posInt (n : ℕ)
  | negInt (n : ℕ)
  | float (bits : UInt64)
deriving DecidableEq, Repr

namespace Number

/-- The two bit patterns of zero. -/
def isZeroBits (bits : UInt64) : Bool := bits == 0 || bits == 0x8000000000000000

/-- The library's `==` on numbers: kinds must agree, and the two zeros of `f64` compare equal. -/
def beq : Number → Number → Bool
  | .posInt a, .posInt b => a == b
  | .negInt a, .negInt b => a == b
  | .float a, .float b => a == b || (isZeroBits a && isZeroBits b)
  | _, _ => false

@[simp] theorem beq_refl (n : Number) : n.beq n = true := by cases n <;> simp [beq]

/-- `as_u64`. -/
def asU64? : Number → Option ℕ
  | .posInt n => some n
  | _ => none

/-- `as_i64`. -/
def asI64? : Number → Option ℤ
  | .posInt n => if n < 2 ^ 63 then some n else none
  | .negInt n => some (.negSucc n)
  | .float _ => none

/-- `as_f64`, as bits. -/
def asF64 : Number → Float
  | .posInt n => Float.ofNat n
  | .negInt n => -Float.ofNat (n + 1)
  | .float bits => Float.ofBits bits

end Number

/-- A JSON value. -/
inductive Value
  | null
  | bool (b : Bool)
  | number (n : Number)
  | string (s : String)
  | array (items : List Value)
  | object (fields : List (String × Value))

/-- The fields of an object, by ascending key when well formed. -/
abbrev Fields := List (String × Value)

namespace Value

instance : Inhabited Value := ⟨.null⟩

/-! ## Structural equality and recursion -/

mutual

/-- Structural equality is decidable. -/
def decEq : (a b : Value) → Decidable (a = b)
  | .null, .null => .isTrue rfl
  | .bool a, .bool b => decidable_of_iff (a = b) (by simp)
  | .number a, .number b => decidable_of_iff (a = b) (by simp)
  | .string a, .string b => decidable_of_iff (a = b) (by simp)
  | .array a, .array b =>
      match decEqItems a b with
      | .isTrue h => .isTrue (h ▸ rfl)
      | .isFalse h => .isFalse (fun heq => h (Value.array.inj heq))
  | .object a, .object b =>
      match decEqFields a b with
      | .isTrue h => .isTrue (h ▸ rfl)
      | .isFalse h => .isFalse (fun heq => h (Value.object.inj heq))
  | .null, .bool _ | .null, .number _ | .null, .string _ | .null, .array _ | .null, .object _
  | .bool _, .null | .bool _, .number _ | .bool _, .string _ | .bool _, .array _ | .bool _, .object _
  | .number _, .null | .number _, .bool _ | .number _, .string _ | .number _, .array _
  | .number _, .object _
  | .string _, .null | .string _, .bool _ | .string _, .number _ | .string _, .array _
  | .string _, .object _
  | .array _, .null | .array _, .bool _ | .array _, .number _ | .array _, .string _
  | .array _, .object _
  | .object _, .null | .object _, .bool _ | .object _, .number _ | .object _, .string _
  | .object _, .array _ => .isFalse (fun h => by cases h)

/-- Structural equality of items. -/
def decEqItems : (a b : List Value) → Decidable (a = b)
  | [], [] => .isTrue rfl
  | [], _ :: _ => .isFalse (fun h => by cases h)
  | _ :: _, [] => .isFalse (fun h => by cases h)
  | x :: xs, y :: ys =>
      match decEq x y, decEqItems xs ys with
      | .isTrue hx, .isTrue hxs => .isTrue (hx ▸ hxs ▸ rfl)
      | .isFalse hx, _ => .isFalse (fun h => hx (List.cons.inj h).1)
      | _, .isFalse hxs => .isFalse (fun h => hxs (List.cons.inj h).2)

/-- Structural equality of fields. -/
def decEqFields : (a b : Fields) → Decidable (a = b)
  | [], [] => .isTrue rfl
  | [], _ :: _ => .isFalse (fun h => by cases h)
  | _ :: _, [] => .isFalse (fun h => by cases h)
  | (k, x) :: xs, (l, y) :: ys =>
      if hk : k = l then
        match decEq x y, decEqFields xs ys with
        | .isTrue hx, .isTrue hxs => .isTrue (hk ▸ hx ▸ hxs ▸ rfl)
        | .isFalse hx, _ => .isFalse (fun h => hx (Prod.mk.inj (List.cons.inj h).1).2)
        | _, .isFalse hxs => .isFalse (fun h => hxs (List.cons.inj h).2)
      else .isFalse (fun h => hk (Prod.mk.inj (List.cons.inj h).1).1)

end

instance : DecidableEq Value := decEq

/-- Induction over values: containers may assume the statement for their members. -/
theorem induct {motive : Value → Prop} (null : motive .null) (bool : ∀ b, motive (.bool b))
    (number : ∀ n, motive (.number n)) (string : ∀ s, motive (.string s))
    (array : ∀ items, (∀ v ∈ items, motive v) → motive (.array items))
    (object : ∀ fields : Fields, (∀ e ∈ fields, motive e.2) → motive (.object fields)) :
    ∀ v, motive v := by
  intro v
  refine @Value.rec motive (fun items => ∀ v ∈ items, motive v)
    (fun fields => ∀ e ∈ fields, motive e.2) (fun e => motive e.2)
    null bool number string array object ?_ ?_ ?_ ?_ ?_ v
  · simp
  · intro head tail hhead htail v hv
    rcases List.mem_cons.mp hv with rfl | hv
    · exact hhead
    · exact htail v hv
  · simp
  · intro head tail hhead htail e he
    rcases List.mem_cons.mp he with rfl | he
    · exact hhead
    · exact htail e he
  · intro _ _ h
    exact h

mutual

/-- The library's `==`: structural, with numbers compared by `Number.beq`. -/
def beq : Value → Value → Bool
  | .null, .null => true
  | .bool a, .bool b => a == b
  | .number a, .number b => a.beq b
  | .string a, .string b => a == b
  | .array a, .array b => beqItems a b
  | .object a, .object b => beqFields a b
  | _, _ => false

/-- `==` on items. -/
def beqItems : List Value → List Value → Bool
  | [], [] => true
  | x :: xs, y :: ys => x.beq y && beqItems xs ys
  | _, _ => false

/-- `==` on fields. -/
def beqFields : Fields → Fields → Bool
  | [], [] => true
  | (k, x) :: xs, (l, y) :: ys => k == l && x.beq y && beqFields xs ys
  | _, _ => false

end

theorem beqItems_refl {items : List Value} (h : ∀ v ∈ items, v.beq v = true) :
    beqItems items items = true := by
  induction items with
  | nil => rfl
  | cons v rest ih =>
    simp [beqItems, h v List.mem_cons_self, ih fun w hw => h w (List.mem_cons_of_mem _ hw)]

theorem beqFields_refl {fields : Fields} (h : ∀ e ∈ fields, e.2.beq e.2 = true) :
    beqFields fields fields = true := by
  induction fields with
  | nil => rfl
  | cons e rest ih =>
    obtain ⟨k, v⟩ := e
    simp [beqFields, h (k, v) List.mem_cons_self, ih fun w hw => h w (List.mem_cons_of_mem _ hw)]

/-- `==` is reflexive. -/
@[simp] theorem beq_refl (v : Value) : v.beq v = true := by
  induction v using Value.induct with
  | null => rfl
  | bool b => simp [beq]
  | number n => simp [beq]
  | string s => simp [beq]
  | array items ih => rw [beq]; exact beqItems_refl ih
  | object fields ih => rw [beq]; exact beqFields_refl ih

/-! ## Well-formed values -/

mutual

/-- Every object in the value lists its fields by strictly ascending key. -/
def WF : Value → Prop
  | .array items => WFItems items
  | .object fields => Assoc.Ascending fields ∧ WFFields fields
  | _ => True

/-- All items are well formed. -/
def WFItems : List Value → Prop
  | [] => True
  | v :: rest => v.WF ∧ WFItems rest

/-- All field values are well formed. -/
def WFFields : Fields → Prop
  | [] => True
  | (_, v) :: rest => v.WF ∧ WFFields rest

end

@[simp] theorem wfItems_iff {items : List Value} : WFItems items ↔ ∀ v ∈ items, v.WF := by
  induction items with
  | nil => simp [WFItems]
  | cons v rest ih => simp [WFItems, ih]

@[simp] theorem wfFields_iff {fields : Fields} : WFFields fields ↔ ∀ e ∈ fields, e.2.WF := by
  induction fields with
  | nil => simp [WFFields]
  | cons e rest ih => obtain ⟨k, v⟩ := e; simp [WFFields, ih]

@[simp] theorem wf_null : Value.null.WF := by simp [WF]
@[simp] theorem wf_bool (b : Bool) : (Value.bool b).WF := by simp [WF]
@[simp] theorem wf_number (n : Number) : (Value.number n).WF := by simp [WF]
@[simp] theorem wf_string (s : String) : (Value.string s).WF := by simp [WF]

@[simp] theorem wf_array {items : List Value} : (Value.array items).WF ↔ ∀ v ∈ items, v.WF := by
  simp [WF]

@[simp] theorem wf_object {fields : Fields} :
    (Value.object fields).WF ↔ Assoc.Ascending fields ∧ ∀ e ∈ fields, e.2.WF := by
  simp [WF]

/-! ## Accessors -/

/-- `as_str`. -/
def asStr? : Value → Option String
  | .string s => some s
  | _ => none

/-- `as_object`. -/
def asObject? : Value → Option Fields
  | .object fields => some fields
  | _ => none

/-- `as_array`. -/
def asArray? : Value → Option (List Value)
  | .array items => some items
  | _ => none

/-- `as_u64`. -/
def asU64? : Value → Option ℕ
  | .number n => n.asU64?
  | _ => none

/-- `as_i64`. -/
def asI64? : Value → Option ℤ
  | .number n => n.asI64?
  | _ => none

/-- `as_bool`. -/
def asBool? : Value → Option Bool
  | .bool b => some b
  | _ => none

/-- `get(key)`: a field of an object. -/
def get? (v : Value) (key : String) : Option Value :=
  match v with
  | .object fields => Assoc.get? key fields
  | _ => none

/-- `value[key]`: a field of an object, `null` when there is none. -/
def index (v : Value) (key : String) : Value := (v.get? key).getD .null

@[simp] theorem asStr?_string (s : String) : (Value.string s).asStr? = some s := rfl

@[simp] theorem asArray?_array (items : List Value) : (Value.array items).asArray? = some items := rfl

@[simp] theorem asStr?_null : Value.null.asStr? = none := rfl

theorem asStr?_eq_some {v : Value} {s : String} : v.asStr? = some s ↔ v = .string s := by
  cases v <;> simp [asStr?]

theorem asArray?_eq_some {v : Value} {items : List Value} : v.asArray? = some items ↔ v = .array items := by
  cases v <;> simp [asArray?]

theorem asObject?_eq_some {v : Value} {fields : Fields} :
    v.asObject? = some fields ↔ v = .object fields := by
  cases v <;> simp [asObject?]

@[simp] theorem get?_object (fields : Fields) (key : String) :
    (Value.object fields).get? key = Assoc.get? key fields := rfl

theorem index_eq_of_get? {v w : Value} {key : String} (h : v.get? key = some w) :
    v.index key = w := by simp [index, h]

/-! ## Building values -/

/-- A `usize` or `u64` as a JSON number. -/
def nat (n : ℕ) : Value := .number (.posInt n)

@[simp] theorem asU64?_nat (n : ℕ) : (nat n).asU64? = some n := rfl

/-- An `i64` as a JSON number. -/
def int : ℤ → Value
  | .ofNat n => .number (.posInt n)
  | .negSucc n => .number (.negInt n)

/-- An array of strings. -/
def strings (l : List String) : Value := .array (l.map .string)

/-- An optional value, `null` when there is none. -/
def optional {α : Type*} (f : α → Value) : Option α → Value
  | none => .null
  | some a => f a

/-- The object of the given fields, a later one replacing an earlier one of the same key. -/
def mkObject (fields : Fields) : Value := .object (Assoc.insertAll fields [])

/-- `value[key] = item` on an object. -/
def set (v : Value) (key : String) (item : Value) : Value :=
  match v with
  | .object fields => .object (Assoc.insert key item fields)
  | other => other

/-- `object.remove(key)`. -/
def remove (v : Value) (key : String) : Value :=
  match v with
  | .object fields => .object (Assoc.erase key fields)
  | other => other

theorem get?_set_object (fields : Fields) (key k : String) (v : Value) :
    ((object fields).set key v).get? k = if k = key then some v else (object fields).get? k :=
  Assoc.get?_insert key k v fields

theorem index_set_self {fields : Fields} (key : String) (v : Value) : ((object fields).set key v).index key = v :=
  index_eq_of_get? (Assoc.get?_insert_self key v fields)

theorem set_set_self (v : Value) (key : String) (a b : Value) : (v.set key a).set key b = v.set key b := by
  cases v with
  | object fields => exact congrArg object (Assoc.insert_insert_self key b a fields)
  | _ => rfl

theorem get?_mkObject (fields : Fields) (key : String) :
    (mkObject fields).get? key = Assoc.get? key fields.reverse := by
  simp [mkObject, get?, Assoc.get?_insertAll]

theorem wf_insert {key : String} {v : Value} {fields : Fields} (hv : v.WF)
    (h : (Value.object fields).WF) : (Value.object (Assoc.insert key v fields)).WF := by
  rw [wf_object] at h ⊢
  refine ⟨h.1.insert key v, fun e he => ?_⟩
  rcases Assoc.mem_insert he with rfl | he
  · exact hv
  · exact h.2 e he

theorem wf_insertAll {fields acc : Fields} (h : ∀ e ∈ fields, e.2.WF) (hacc : (Value.object acc).WF) :
    (Value.object (Assoc.insertAll fields acc)).WF := by
  induction fields generalizing acc with
  | nil => exact hacc
  | cons e rest ih =>
    exact ih (fun e he => h e (List.mem_cons_of_mem _ he)) (wf_insert (h e List.mem_cons_self) hacc)

theorem wf_mkObject {fields : Fields} (h : ∀ e ∈ fields, e.2.WF) : (mkObject fields).WF :=
  wf_insertAll h (by simp [Assoc.Ascending])

theorem wf_set {v item : Value} {key : String} (hv : v.WF) (hi : item.WF) : (v.set key item).WF := by
  cases v <;> simp only [set, wf_null, wf_bool, wf_number, wf_string] at *
  · exact hv
  · exact wf_insert hi hv

theorem wf_remove {v : Value} {key : String} (hv : v.WF) : (v.remove key).WF := by
  cases v with
  | object fields =>
    simp only [remove, wf_object] at *
    exact ⟨hv.1.erase key, fun e he => hv.2 e (List.mem_of_mem_filter he)⟩
  | _ => exact hv

/-- Two well-formed objects with the same fields are equal. -/
theorem object_ext {fields fields' : Fields} (h : Assoc.Ascending fields)
    (h' : Assoc.Ascending fields') (heq : ∀ key, Assoc.get? key fields = Assoc.get? key fields') :
    Value.object fields = Value.object fields' := by rw [h.ext h' heq]

theorem wf_of_get? {v w : Value} {key : String} (hv : v.WF) (h : v.get? key = some w) : w.WF := by
  cases v <;> simp only [get?, reduceCtorEq] at h
  exact (wf_object.mp hv).2 _ (Assoc.get?_some_mem h)

/-! ## Changing the floats of a value -/

mutual

/-- Apply a function to the bits of every `f64` in a value. -/
def mapFloats (f : UInt64 → UInt64) : Value → Value
  | .number (.float bits) => .number (.float (f bits))
  | .array items => .array (mapFloatsItems f items)
  | .object fields => .object (mapFloatsFields f fields)
  | other => other

/-- `mapFloats` on items. -/
def mapFloatsItems (f : UInt64 → UInt64) : List Value → List Value
  | [] => []
  | v :: rest => mapFloats f v :: mapFloatsItems f rest

/-- `mapFloats` on fields. -/
def mapFloatsFields (f : UInt64 → UInt64) : Fields → Fields
  | [] => []
  | (k, v) :: rest => (k, mapFloats f v) :: mapFloatsFields f rest

end

theorem mapFloatsItems_eq (f : UInt64 → UInt64) (items : List Value) :
    mapFloatsItems f items = items.map (mapFloats f) := by
  induction items with
  | nil => rfl
  | cons v rest ih => rw [mapFloatsItems, ih, List.map_cons]

theorem mapFloatsFields_eq (f : UInt64 → UInt64) (fields : Fields) :
    mapFloatsFields f fields = fields.map fun e => (e.1, mapFloats f e.2) := by
  induction fields with
  | nil => rfl
  | cons e rest ih => rw [mapFloatsFields, ih, List.map_cons]

@[simp] theorem mapFloats_string (f : UInt64 → UInt64) (s : String) :
    (Value.string s).mapFloats f = .string s := by rw [mapFloats] <;> simp

@[simp] theorem mapFloats_array (f : UInt64 → UInt64) (items : List Value) :
    (Value.array items).mapFloats f = .array (items.map (mapFloats f)) := by
  rw [mapFloats, mapFloatsItems_eq]

theorem get?_mapFloats (f : UInt64 → UInt64) (v : Value) (key : String) :
    (v.mapFloats f).get? key = (v.get? key).map (mapFloats f) := by
  cases v with
  | object fields => rw [mapFloats, mapFloatsFields_eq, get?_object, get?_object, Assoc.get?_map]
  | number n => cases n <;> simp [mapFloats, get?]
  | _ => simp [mapFloats, get?]

end Value

/-- A well-formed JSON value: the values a parser or a map operation can produce. -/
abbrev Json := { v : Value // v.WF }

end Innen
