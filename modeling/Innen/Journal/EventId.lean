import Mathlib.Data.List.Forall2
import Innen.Json.Readable
import Innen.Journal.Model

/-!
# Event ids

Two values have one canonical form exactly when they are the same up to the order of keys (`Value.Same`). So the bytes
that are hashed tell the operation of an event and its payload, up to the fields at its top that are volatile. Payloads
are kept in the order of their keys, which making them canonical then does not change. When the digest tells different
bytes apart too, so does the id of an event.
-/

namespace Innen.Common.Assoc

variable {κ α : Type*} [LinearOrder κ]

/-- A key behind all others is bound at the end. -/
theorem insert_of_forall_lt {k : κ} {v : α} {l : List (κ × α)} (h : ∀ e ∈ l, e.1 < k) :
    insert k v l = l ++ [(k, v)] := by
  induction l with
  | nil => rfl
  | cons e rest ih =>
    have he : e.1 < k := h e List.mem_cons_self
    rw [insert, if_neg he.not_gt, if_neg he.ne', ih fun d hd => h d (List.mem_cons_of_mem _ hd), List.cons_append]

theorem insertAll_of_forall_lt {l acc : List (κ × α)} (hl : Ascending l) (h : ∀ e ∈ acc, ∀ d ∈ l, e.1 < d.1) :
    insertAll l acc = acc ++ l := by
  induction l generalizing acc with
  | nil => exact (List.append_nil acc).symm
  | cons d rest ih =>
    obtain ⟨hd, hrest⟩ := ascending_cons.mp hl
    have hstep : insertAll (d :: rest) acc = insertAll rest (insert d.1 d.2 acc) := rfl
    have hacc : ∀ e ∈ acc ++ [(d.1, d.2)], ∀ c ∈ rest, e.1 < c.1 := by
      intro e he c hc
      rcases List.mem_append.mp he with he | he
      · exact h e he c (List.mem_cons_of_mem _ hc)
      · obtain rfl := List.mem_singleton.mp he
        exact hd c hc
    rw [hstep, insert_of_forall_lt fun e he => h e he d List.mem_cons_self, ih hrest hacc, List.append_assoc]
    rfl

/-- Binding the entries of an ordered list again gives the list. -/
theorem Ascending.insertAll_eq {l : List (κ × α)} (h : Ascending l) : Assoc.insertAll l [] = l :=
  insertAll_of_forall_lt h fun _ he => absurd he List.not_mem_nil

/-- Where no key is listed twice, the last entry of a key is the first. -/
theorem get?_reverse_of_nodup {l : List (κ × α)} (h : (keys l).Nodup) (k : κ) : get? k l.reverse = get? k l := by
  have hmem : ∀ {m : List (κ × α)} {v w : α}, (keys m).Nodup → (k, v) ∈ m → (k, w) ∈ m → v = w := by
    intro m v w hm hv hw
    exact congrArg Prod.snd (List.inj_on_of_nodup_map hm hv hw rfl)
  cases hget : get? k l with
  | none =>
    rw [get?_eq_none_iff, keys, List.map_reverse, List.mem_reverse]
    exact get?_eq_none_iff.mp hget
  | some v =>
    have hv := get?_some_mem hget
    have hsome : (get? k l.reverse).isSome := by
      rw [get?_isSome_iff, keys, List.map_reverse, List.mem_reverse]
      exact List.mem_map_of_mem hv
    obtain ⟨w, hw⟩ := Option.isSome_iff_exists.mp hsome
    rw [hw, hmem h (List.mem_reverse.mp (get?_some_mem hw)) hv]

theorem erase_of_get?_none {k : κ} {l : List (κ × α)} (h : get? k l = none) : erase k l = l := by
  refine List.filter_eq_self.mpr fun e he => decide_eq_true ?_
  rintro rfl
  exact get?_eq_none_iff.mp h (List.mem_map_of_mem he)

end Innen.Common.Assoc

namespace Innen.Value

open Common

/-! ## Equality up to the order of keys -/

/-- Two values are the same up to the order in which objects list their keys, at every depth. -/
inductive Same : Value → Value → Prop
  | null : Same .null .null
  | bool (b : Bool) : Same (.bool b) (.bool b)
  | number (n : Number) : Same (.number n) (.number n)
  | string (s : String) : Same (.string s) (.string s)
  | array {items items' : List Value} : List.Forall₂ Same items items' → Same (.array items) (.array items')
  | object {fields fields' : Fields} :
    (∀ key, Option.Rel Same (Assoc.get? key fields) (Assoc.get? key fields')) → Same (.object fields) (.object fields')

mutual

/-- No object in the value lists a key twice. -/
def Distinct : Value → Prop
  | .array items => DistinctItems items
  | .object fields => (Assoc.keys fields).Nodup ∧ DistinctFields fields
  | _ => True

/-- `Distinct` on items. -/
def DistinctItems : List Value → Prop
  | [] => True
  | v :: rest => v.Distinct ∧ DistinctItems rest

/-- `Distinct` on fields. -/
def DistinctFields : Fields → Prop
  | [] => True
  | (_, v) :: rest => v.Distinct ∧ DistinctFields rest

end

theorem distinct_array {items : List Value} : (Value.array items).Distinct ↔ ∀ v ∈ items, v.Distinct := by
  rw [Distinct]
  induction items with
  | nil => simp [DistinctItems]
  | cons v rest ih => rw [DistinctItems, ih, List.forall_mem_cons]

theorem distinct_object {fields : Fields} :
    (Value.object fields).Distinct ↔ (Assoc.keys fields).Nodup ∧ ∀ e ∈ fields, e.2.Distinct := by
  have hfields : DistinctFields fields ↔ ∀ e ∈ fields, e.2.Distinct := by
    induction fields with
    | nil => simp [DistinctFields]
    | cons e rest ih => rw [DistinctFields, ih, List.forall_mem_cons]
  rw [Distinct, hfields]

theorem distinct_remove {v : Value} (hv : v.Distinct) (key : String) : (v.remove key).Distinct := by
  cases v with
  | object fields =>
    obtain ⟨hkeys, hfields⟩ := distinct_object.mp hv
    exact distinct_object.mpr ⟨hkeys.sublist (List.filter_sublist.map _), fun e he =>
      hfields e (List.mem_of_mem_filter he)⟩
  | _ => exact hv

end Innen.Value

namespace Innen.Journal

open Innen.Common

/-! ## Canonical payloads -/

theorem canonicalItems_eq {items : List Value} (h : ∀ v ∈ items, canonicalValue v = v) :
    canonicalItems items = items := by
  induction items with
  | nil => rfl
  | cons v rest ih =>
    rw [canonicalItems, h v List.mem_cons_self, ih fun w hw => h w (List.mem_cons_of_mem _ hw)]

theorem canonicalFields_eq {fields : Fields} (h : ∀ e ∈ fields, canonicalValue e.2 = e.2) :
    canonicalFields fields = fields := by
  induction fields with
  | nil => rfl
  | cons e rest ih =>
    rw [canonicalFields, h e List.mem_cons_self, ih fun d hd => h d (List.mem_cons_of_mem _ hd)]

/-- A value whose objects are ordered is canonical. -/
theorem canonicalValue_of_wf {v : Value} (hv : v.WF) : canonicalValue v = v := by
  induction v using Value.induct with
  | array items ih =>
    rw [canonicalValue, canonicalItems_eq fun v hmem => ih v hmem (Value.wf_array.mp hv v hmem)]
  | object fields ih =>
    obtain ⟨hasc, hfields⟩ := Value.wf_object.mp hv
    rw [canonicalValue, canonicalFields_eq fun e hmem => ih e hmem (hfields e hmem), hasc.insertAll_eq]
  | null => rfl
  | bool b => rfl
  | number n => rfl
  | string s => rfl

theorem canonicalItems_eq_map (items : List Value) : canonicalItems items = items.map canonicalValue := by
  induction items with
  | nil => rfl
  | cons v rest ih => rw [canonicalItems, ih, List.map_cons]

theorem canonicalFields_eq_map (fields : Fields) :
    canonicalFields fields = fields.map fun e => (e.1, canonicalValue e.2) := by
  induction fields with
  | nil => rfl
  | cons e rest ih => rw [canonicalFields, ih, List.map_cons]

theorem ascending_canonical (fields : Fields) : Assoc.Ascending (Assoc.insertAll (canonicalFields fields) []) :=
  Assoc.Ascending.insertAll List.Pairwise.nil _

/-- The fields of a canonical object. -/
theorem get?_canonical {fields : Fields} (h : (Assoc.keys fields).Nodup) (key : String) :
    Assoc.get? key (Assoc.insertAll (canonicalFields fields) []) = (Assoc.get? key fields).map canonicalValue := by
  rw [Assoc.get?_insertAll, canonicalFields_eq_map, ← List.map_reverse, Assoc.get?_map,
    Assoc.get?_reverse_of_nodup h, Assoc.get?_nil, Option.or_none]

/-- Canonical objects are equal when they have the same fields. -/
theorem canonical_object_inj {fields fields' : Fields} (h : (Assoc.keys fields).Nodup)
    (h' : (Assoc.keys fields').Nodup) :
    canonicalValue (.object fields) = canonicalValue (.object fields') ↔
      ∀ key, (Assoc.get? key fields).map canonicalValue = (Assoc.get? key fields').map canonicalValue := by
  rw [canonicalValue, canonicalValue, Value.object.injEq]
  constructor
  · intro heq key
    rw [← get?_canonical h, heq, get?_canonical h']
  · intro heq
    refine (ascending_canonical _).ext (ascending_canonical _) fun key => ?_
    rw [get?_canonical h, get?_canonical h', heq]

/-- Lists have equal images exactly when their items are related one by one. -/
theorem map_eq_map_iff_forall₂ {α β : Type*} {f : α → β} {r : α → α → Prop} {l l' : List α}
    (h : ∀ a ∈ l, ∀ b ∈ l', f a = f b ↔ r a b) : l.map f = l'.map f ↔ List.Forall₂ r l l' := by
  induction l generalizing l' with
  | nil => cases l' <;> simp
  | cons a l ih =>
    cases l' with
    | nil => simp
    | cons b l' =>
      rw [List.map_cons, List.map_cons, List.cons.injEq, List.forall₂_cons, h a List.mem_cons_self b List.mem_cons_self,
        ih fun c hc d hd => h c (List.mem_cons_of_mem a hc) d (List.mem_cons_of_mem b hd)]

/-- The same for optional values. -/
theorem map_eq_map_iff_rel {α β : Type*} {f : α → β} {r : α → α → Prop} {o o' : Option α}
    (h : ∀ a ∈ o, ∀ b ∈ o', f a = f b ↔ r a b) : o.map f = o'.map f ↔ Option.Rel r o o' := by
  cases o with
  | none =>
    cases o' with
    | none => exact iff_of_true rfl .none
    | some b => exact iff_of_false (by simp) (by rintro ⟨⟩)
  | some a =>
    cases o' with
    | none => exact iff_of_false (by simp) (by rintro ⟨⟩)
    | some b =>
      rw [Option.map_some, Option.map_some, Option.some.injEq, h a rfl b rfl]
      exact ⟨.some, fun hrel => by cases hrel; assumption⟩

/-- Values have one canonical form exactly when they are the same up to the order of keys. -/
theorem canonicalValue_eq_iff {v w : Value} (hv : v.Distinct) (hw : w.Distinct) :
    canonicalValue v = canonicalValue w ↔ v.Same w := by
  induction v using Value.induct generalizing w with
  | null =>
    cases w with
    | null => exact iff_of_true rfl .null
    | _ => exact iff_of_false (by simp [canonicalValue]) (by rintro ⟨⟩)
  | bool b =>
    cases w with
    | bool c =>
      simp only [canonicalValue, Value.bool.injEq]
      exact ⟨fun h => h ▸ .bool b, fun h => by cases h; rfl⟩
    | _ => exact iff_of_false (by simp [canonicalValue]) (by rintro ⟨⟩)
  | number n =>
    cases w with
    | number m =>
      simp only [canonicalValue, Value.number.injEq]
      exact ⟨fun h => h ▸ .number n, fun h => by cases h; rfl⟩
    | _ => exact iff_of_false (by simp [canonicalValue]) (by rintro ⟨⟩)
  | string s =>
    cases w with
    | string t =>
      simp only [canonicalValue, Value.string.injEq]
      exact ⟨fun h => h ▸ .string s, fun h => by cases h; rfl⟩
    | _ => exact iff_of_false (by simp [canonicalValue]) (by rintro ⟨⟩)
  | array items ih =>
    cases w with
    | array items' =>
      have hitems := Value.distinct_array.mp hv
      have hitems' := Value.distinct_array.mp hw
      rw [canonicalValue, canonicalValue, Value.array.injEq, canonicalItems_eq_map, canonicalItems_eq_map,
        map_eq_map_iff_forall₂ fun v hmem w hmem' => ih v hmem (hitems v hmem) (hitems' w hmem')]
      exact ⟨.array, fun h => by cases h; assumption⟩
    | _ => exact iff_of_false (by simp [canonicalValue]) (by rintro ⟨⟩)
  | object fields ih =>
    cases w with
    | object fields' =>
      obtain ⟨hkeys, hfields⟩ := Value.distinct_object.mp hv
      obtain ⟨hkeys', hfields'⟩ := Value.distinct_object.mp hw
      -- Field by field: what one key binds on either side.
      have hfield : ∀ key, (Assoc.get? key fields).map canonicalValue = (Assoc.get? key fields').map canonicalValue ↔
          Option.Rel Value.Same (Assoc.get? key fields) (Assoc.get? key fields') := by
        intro key
        refine map_eq_map_iff_rel fun v hmem w hmem' => ?_
        have hv := Assoc.get?_some_mem hmem
        exact ih _ hv (hfields _ hv) (hfields' _ (Assoc.get?_some_mem hmem'))
      rw [canonical_object_inj hkeys hkeys', forall_congr' hfield]
      exact ⟨.object, fun h => by cases h; assumption⟩
    | _ => exact iff_of_false (by simp [canonicalValue]) (by rintro ⟨⟩)

/-- A field can be removed before the value is made canonical. -/
theorem canonicalValue_remove {v : Value} (hv : v.Distinct) (key : String) :
    canonicalValue (v.remove key) = (canonicalValue v).remove key := by
  cases v with
  | object fields =>
    have hkeys := (Value.distinct_object.mp hv).1
    have hrest := (Value.distinct_object.mp (Value.distinct_remove hv key)).1
    simp only [Value.remove, canonicalValue]
    refine congrArg Value.object (Assoc.Ascending.ext (ascending_canonical _) ((ascending_canonical _).erase key) fun k => ?_)
    rw [get?_canonical hrest, Assoc.get?_erase, Assoc.get?_erase, get?_canonical hkeys]
    split_ifs <;> rfl
  | _ => rfl

/-! ## What an id tells -/

variable {P : Platform}

/-- The part of a payload that enters the id of its event. -/
def identified (payload : Value) : Value := volatileNodeEdge.foldl Value.remove payload

theorem eventId_of_wf {op : String} {payload : Value} (hpayload : payload.WF) :
    eventId P op payload = P.sha256Hex (structText P.floatText
      [("v", .string schemaVersion), ("op", .string op), ("payload", identified payload)]).toUTF8 := by
  rw [eventId, canonicalText, canonicalValue_of_wf hpayload, identified]

/-- Two events have one id exactly when they have one operation and payloads that differ in volatile fields at most. -/
theorem eventId_eq_iff (hsha : Function.Injective P.sha256Hex) {op op' : String} {payload payload' : Value}
    (hwf : payload.WF) (hwf' : payload'.WF) (hfree : (identified payload).Floatless)
    (hfree' : (identified payload').Floatless) :
    eventId P op payload = eventId P op' payload' ↔ op = op' ∧ identified payload = identified payload' := by
  rw [eventId_of_wf hwf, eventId_of_wf hwf']
  constructor
  · intro h
    have htext := String.toByteArray_inj.mp (hsha h)
    have hfloatless : ∀ {o : String} {w : Value}, w.Floatless →
        Value.FloatlessFields [("v", .string schemaVersion), ("op", .string o), ("payload", w)] := by
      intro o w hw
      simp [Value.FloatlessFields, Value.Floatless, hw]
    obtain ⟨hfields, -⟩ := structText_append_inj (hfloatless hfree) (hfloatless hfree')
      (congrArg (fun s : String => s ++ "") htext)
    simp only [List.cons.injEq, Prod.mk.injEq, Value.string.injEq, true_and, and_true] at hfields
    exact hfields
  · rintro ⟨rfl, hpayload⟩
    rw [hpayload]

/-- A platform that prints numbers by their bits, without parsers. -/
def printing : Platform := ⟨bitsText, fun _ => none, fun _ => none, fun _ => ""⟩

/-- An observation of a node with an observation inside. -/
def observed : Value :=
  .object [("observed_utc", .string "2026-06-06T06:06:06Z"), ("id", .string "t:1"),
    ("last", .object [("observed_utc", .string "2026-01-01T00:00:00Z"), ("n", .nat 1)])]

/-- The same one with its keys in order, observed at another time. -/
def reordered : Value :=
  .object [("id", .string "t:1"), ("last", .object [("n", .nat 1), ("observed_utc", .string "2026-01-01T00:00:00Z")]),
    ("observed_utc", .string "2026-07-07T07:07:07Z")]

/-- The bytes that are hashed are equal exactly when the operations are and the payloads are the same up to the order of
keys, the time of observation at their top left out. -/
theorem canonicalText_bytes_eq_iff (hprinter : NumberPrinter P.floatText) {op op' : String} {payload payload' : Value}
    (hpayload : payload.Distinct) (hpayload' : payload'.Distinct) :
    (canonicalText P op payload volatileNodeEdge).toUTF8 = (canonicalText P op' payload' volatileNodeEdge).toUTF8 ↔
      op = op' ∧ (payload.remove "observed_utc").Same (payload'.remove "observed_utc") := by
  have hclean : ∀ {o : String} {v : Value}, v.Distinct → canonicalText P o v volatileNodeEdge =
      structText P.floatText [("v", .string schemaVersion), ("op", .string o),
        ("payload", canonicalValue (v.remove "observed_utc"))] := by
    intro o v hv
    rw [canonicalText, volatileNodeEdge, List.foldl_cons, List.foldl_nil, canonicalValue_remove hv]
  rw [hclean hpayload, hclean hpayload',
    ← canonicalValue_eq_iff (Value.distinct_remove hpayload _) (Value.distinct_remove hpayload' _)]
  constructor
  · intro h
    have htext := String.toByteArray_inj.mp h
    obtain ⟨hfields, -⟩ := hprinter.printed.structText_append_inj (fun _ _ => trivial) (fun _ _ => trivial)
      (congrArg (fun s : String => s ++ "") htext)
    simp only [List.cons.injEq, Prod.mk.injEq, Value.string.injEq, true_and, and_true] at hfields
    exact hfields
  · rintro ⟨rfl, hvalue⟩
    rw [hvalue]

theorem canonicalText_bytes_eq_iff_observed :
    (canonicalText printing "node.upsert" observed volatileNodeEdge).toUTF8 =
        (canonicalText printing "node.upsert" reordered volatileNodeEdge).toUTF8 ↔
      "node.upsert" = "node.upsert" ∧
        (observed.remove "observed_utc").Same (reordered.remove "observed_utc") :=
  canonicalText_bytes_eq_iff numberPrinter_bitsText
    (by simp [observed, Value.Distinct, Value.DistinctFields, Assoc.keys, Value.nat])
    (by simp [reordered, Value.Distinct, Value.DistinctFields, Assoc.keys, Value.nat])

/-- A payload without volatile fields enters the id as it is. -/
theorem identified_of_get?_none {fields : Fields} (h : Assoc.get? "observed_utc" fields = none) :
    identified (.object fields) = .object fields := by
  rw [identified, volatileNodeEdge, List.foldl_cons, List.foldl_nil, Value.remove, Assoc.erase_of_get?_none h]

end Innen.Journal
