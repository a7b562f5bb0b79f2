import Innen.Conversation.Compact
import Mathlib.Tactic.Convert

/-!
# Rows of a page

Decoding the rows of a page gives the page with every shared field taken from the first record of its layout
(`decodeRows_packRows`). That is the page itself when the fields that are `==` are the same.
-/

namespace Innen.Conversation

open Innen.Common

variable {records : List Record}

/-! ## Groups -/

/-- The records with the keys of a record. -/
def indicesOf (records : List Record) (keys : List String) : List ℕ :=
  (records.zipIdx.filter fun r => decide (eventKeys r.1.event = keys)).map Prod.snd

theorem mem_zipIdx_iff {r : Record × ℕ} : r ∈ records.zipIdx ↔ records[r.2]? = some r.1 :=
  List.mem_zipIdx_iff_getElem?

theorem eventAt_eq {i : ℕ} {r : Record} (h : records[i]? = some r) : eventAt records i = r.event := by
  rw [eventAt, h]
  rfl

theorem mem_indicesOf {keys : List String} {i : ℕ} :
    i ∈ indicesOf records keys ↔ i < records.length ∧ eventKeys (eventAt records i) = keys := by
  rw [indicesOf, List.mem_map]
  constructor
  · rintro ⟨⟨r, i⟩, hmem, rfl⟩
    obtain ⟨hr, hkeys⟩ := List.mem_filter.mp hmem
    have hget := mem_zipIdx_iff.mp hr
    refine ⟨(List.getElem?_eq_some_iff.mp hget).1, ?_⟩
    rw [eventAt_eq hget]
    exact of_decide_eq_true hkeys
  · rintro ⟨hlt, rfl⟩
    have hget := List.getElem?_eq_getElem hlt
    refine ⟨(records[i], i), List.mem_filter.mpr ⟨mem_zipIdx_iff.mpr hget, ?_⟩, rfl⟩
    rw [eventAt_eq hget]
    simp

theorem mem_groups {e : List String × List ℕ} (h : e ∈ (groups records).entries) :
    e.2 = indicesOf records e.1 := by
  rw [indicesOf]
  convert SortedMap.mem_groupBy h

theorem exists_group {i : ℕ} (h : i < records.length) :
    (eventKeys (eventAt records i), indicesOf records (eventKeys (eventAt records i))) ∈
      (groups records).entries := by
  have hget := List.getElem?_eq_getElem h
  rw [eventAt_eq hget, indicesOf, groups]
  convert SortedMap.exists_groupBy (fun r : Record × ℕ => eventKeys r.1.event) (fun r => r.2)
    (mem_zipIdx_iff (r := (records[i], i)) |>.mpr hget)

/-! ## Packing -/

/-- The layout of the records with some keys. -/
def layoutFor (records : List Record) (keys : List String) : Layout :=
  layoutOf records keys (indicesOf records keys)

theorem getElem?_foldl_set (f : ℕ → Value) (indices : List ℕ) (rows : List Value) (j : ℕ) :
    (indices.foldl (fun rows i => rows.set i (f i)) rows)[j]? =
      if j ∈ indices ∧ j < rows.length then some (f j) else rows[j]? := by
  induction indices generalizing rows with
  | nil => simp
  | cons i indices ih =>
    rw [List.foldl_cons, ih, List.length_set, List.getElem?_set]
    by_cases hj : j = i
    · subst hj
      by_cases hlt : j < rows.length <;> simp [hlt]
    · simp [hj, Ne.symm hj]

theorem length_foldl_set (f : ℕ → Value) (indices : List ℕ) (rows : List Value) :
    (indices.foldl (fun rows i => rows.set i (f i)) rows).length = rows.length := by
  induction indices generalizing rows with
  | nil => rfl
  | cons i indices ih => rw [List.foldl_cons, ih, List.length_set]

/-- What the loop over the groups has done when some of them are behind it. -/
structure Packed (records : List Record) (done : List (List String × List ℕ)) (s : List Layout × List Value) :
    Prop where
  layouts : s.1 = done.map fun e => layoutFor records e.1
  length : s.2.length = records.length
  row : ∀ number e, done[number]? = some e → ∀ i ∈ e.2,
    s.2[i]? = some (rowValue records number (layoutFor records e.1) i)

theorem Packed.packGroup {done : List (List String × List ℕ)} {s : List Layout × List Value}
    (h : Packed records done s) {e : List String × List ℕ} (he : e.2 = indicesOf records e.1)
    (hdone : ∀ e' ∈ done, e'.2 = indicesOf records e'.1 ∧ e'.1 ≠ e.1) :
    Packed records (done ++ [e]) (packGroup records s e) where
  layouts := by
    rw [Conversation.packGroup, List.map_append, ← h.layouts, he]
    rfl
  length := by
    rw [Conversation.packGroup, length_foldl_set]
    exact h.length
  row number e' he' i hi := by
    have hcount : s.1.length = done.length := by rw [h.layouts, List.length_map]
    rw [Conversation.packGroup, getElem?_foldl_set, h.length]
    rcases Nat.lt_trichotomy number done.length with hlt | heq | hgt
    · -- a group from before has other keys, so none of these rows
      rw [List.getElem?_append_left hlt] at he'
      obtain ⟨hindices, hne⟩ := hdone e' (List.mem_of_getElem? he')
      have hnot : i ∉ e.2 := fun hmem => by
        rw [he] at hmem
        rw [hindices] at hi
        exact hne ((mem_indicesOf.mp hi).2.symm.trans (mem_indicesOf.mp hmem).2)
      rw [if_neg fun hand => hnot hand.1]
      exact h.row number e' he' i hi
    · rw [heq, List.getElem?_concat_length, Option.some.injEq] at he'
      subst he'
      have hlt : i < records.length := (mem_indicesOf.mp (he ▸ hi)).1
      rw [if_pos ⟨hi, hlt⟩, hcount, heq, layoutFor, ← he]
    · have hnone : (done ++ [e])[number]? = none := by
        rw [List.getElem?_eq_none_iff, List.length_append, List.length_singleton]
        exact hgt
      rw [hnone] at he'
      cases he'

theorem packed_packRecords (records : List Record) :
    Packed records (groups records).entries (packRecords records) := by
  have hfold : ∀ (rest done : List (List String × List ℕ)) (s : List Layout × List Value),
      (groups records).entries = done ++ rest → Packed records done s →
      Packed records (done ++ rest) (rest.foldl (packGroup records) s) := by
    intro rest
    induction rest with
    | nil => exact fun done s _ h => by rw [List.append_nil]; exact h
    | cons e rest ih =>
      intro done s hentries h
      have hmem : ∀ e' ∈ done ++ e :: rest, e' ∈ (groups records).entries := fun e' he' => hentries ▸ he'
      have hascending : (done ++ e :: rest).Pairwise fun a b => a.1 < b.1 := hentries ▸ (groups records).ascending
      have hstep := h.packGroup (mem_groups (hmem e (List.mem_append_right _ List.mem_cons_self)))
        fun e' he' => ⟨mem_groups (hmem e' (List.mem_append_left _ he')),
          ne_of_lt ((List.pairwise_append.mp hascending).2.2 e' he' e List.mem_cons_self)⟩
      have hshift : done ++ e :: rest = (done ++ [e]) ++ rest := by rw [List.append_assoc]; rfl
      rw [hshift]
      exact ih (done ++ [e]) _ (hentries.trans hshift) hstep
  refine hfold _ [] _ rfl ⟨rfl, List.length_replicate, fun number e he => ?_⟩
  cases he

/-- The row of a record refers to its layout. -/
theorem row_packRecords {i : ℕ} (h : i < records.length) :
    ∃ number, (packRecords records).1[number]? = some (layoutFor records (eventKeys (eventAt records i))) ∧
      (packRecords records).2[i]? =
        some (rowValue records number (layoutFor records (eventKeys (eventAt records i))) i) := by
  have hpacked := packed_packRecords records
  obtain ⟨number, hnumber⟩ := List.mem_iff_getElem?.mp (exists_group h)
  refine ⟨number, ?_, hpacked.row number _ hnumber i (mem_indicesOf.mpr ⟨h, rfl⟩)⟩
  rw [hpacked.layouts, List.getElem?_map, hnumber]
  rfl

/-! ## Unpacking -/

/-- What decoding makes of an event: the shared fields are those of the first event of its layout. -/
def unifiedEvent (records : List Record) (i : ℕ) : Value :=
  let layout := layoutFor records (eventKeys (eventAt records i))
  .object (Assoc.insertAll (layout.fields.map fun key => (key, (eventAt records i).index key)) layout.shared)

theorem mergeFields_map (val : String → Value) (fields : List String) (hnodup : fields.Nodup) (shared : Fields)
    (hfresh : ∀ key ∈ fields, Assoc.get? key shared = none) :
    mergeFields (fields.map .string) (fields.map val) shared =
      .ok (Assoc.insertAll (fields.map fun key => (key, val key)) shared) := by
  induction fields generalizing shared with
  | nil => rfl
  | cons key fields ih =>
    obtain ⟨hnot, hnodup⟩ := List.nodup_cons.mp hnodup
    have hstep := ih hnodup (Assoc.insert key (val key) shared) fun k hk => by
      have hne : k ≠ key := fun heq => hnot (heq ▸ hk)
      rw [Assoc.get?_insert_ne hne]
      exact hfresh k (List.mem_cons_of_mem _ hk)
    have hnone := hfresh key List.mem_cons_self
    simp only [mergeFields, List.map_cons, List.zip_cons_cons, List.foldlM_cons, Value.asStr?_string, okOr_some]
      at hstep ⊢
    simp only [bind, Except.bind, hnone, Option.isSome_none, Bool.false_eq_true, if_false]
    exact hstep

/-- The fields of an event are listed once. -/
theorem nodup_eventKeys {event : Value} (h : event.WF) : (eventKeys event).Nodup := by
  cases event with
  | object fields =>
    exact (List.pairwise_map.mpr (Value.wf_object.mp h).1).imp fun hlt => ne_of_lt hlt
  | _ => exact List.nodup_nil

theorem get?_shared {keys : List String} {key : String} :
    Assoc.get? key (layoutFor records keys).shared =
      if key ∈ keys ∧ isShared records (indicesOf records keys) key = true then
        some ((eventAt records ((indicesOf records keys).headD 0)).index key) else none := by
  simp only [layoutFor, layoutOf, Assoc.get?_insertAll_map_key, Assoc.get?_nil, List.mem_filter]

theorem mem_fields {keys : List String} {key : String} :
    key ∈ (layoutFor records keys).fields ↔ key ∈ keys ∧ isShared records (indicesOf records keys) key = false := by
  rw [layoutFor, layoutOf, List.mem_filter, Bool.not_eq_true']

theorem mergeFields_layout {i : ℕ} (hwf : (eventAt records i).WF) :
    mergeFields ((layoutFor records (eventKeys (eventAt records i))).fields.map .string)
      ((layoutFor records (eventKeys (eventAt records i))).fields.map fun key => (eventAt records i).index key)
      (layoutFor records (eventKeys (eventAt records i))).shared =
      .ok (Assoc.insertAll ((layoutFor records (eventKeys (eventAt records i))).fields.map
        fun key => (key, (eventAt records i).index key))
        (layoutFor records (eventKeys (eventAt records i))).shared) := by
  refine mergeFields_map _ _ ((nodup_eventKeys hwf).filter _) _ fun key hkey => ?_
  rw [get?_shared, if_neg fun hand => ?_]
  rw [(mem_fields.mp hkey).2] at hand
  exact Bool.false_ne_true hand.2

/-- The record that a row stands for. -/
theorem decodeRow_rowValue {i number : ℕ} {r : Record} (hr : records[i]? = some r) (hwf : r.event.WF)
    {layouts : List Value}
    (hlayout : layouts[number]? = some (layoutFor records (eventKeys r.event)).toValue) :
    decodeRow layouts (rowValue records number (layoutFor records (eventKeys r.event)) i) =
      if 0 < r.line then .ok (Record.toValue ⟨r.line, unifiedEvent records i⟩)
      else .error "invalid source line" := by
  have hevent := eventAt_eq hr
  have hmerge := mergeFields_layout (hevent ▸ hwf)
  rw [hevent] at hmerge
  have hline : (records[i]?.map Record.line).getD 0 = r.line := by rw [hr]; rfl
  rw [rowValue, decodeRow, hline]
  by_cases hpos : 0 < r.line
  · have hindex : (Value.nat number).asU64? = some number := rfl
    have hfields : ((layoutFor records (eventKeys r.event)).toValue.index "fields").asArray? =
        some ((layoutFor records (eventKeys r.event)).fields.map .string) := rfl
    have hshared : ((layoutFor records (eventKeys r.event)).toValue.index "shared").asObject? =
        some (layoutFor records (eventKeys r.event)).shared := rfl
    simp only [Value.asU64?_nat, Option.filter_some, hpos, decide_true, if_true, okOr_some, hlayout, hfields,
      hshared, Value.asArray?_array, List.length_map, hevent, bind, Except.bind, hmerge, Record.toValue,
      unifiedEvent]
  · simp only [Value.asU64?_nat, Option.filter_some, hpos, decide_false, Bool.false_eq_true, if_false, okOr_none,
      bind, Except.bind]

/-- The page with every shared field taken from the first event of its layout. -/
def unify (page : Page) : Page :=
  { page with records := page.records.zipIdx.map fun r => ⟨r.1.line, unifiedEvent page.records r.2⟩ }

theorem packRows_eq (page : Page) :
    packRows page = .object [("encoding", .string "innen.rows.v1"),
      ("layouts", .array ((packRecords page.records).1.map Layout.toValue)),
      ("next_offset", .optional .nat page.nextOffset), ("offset", .nat page.offset), ("row_fields", rowFields),
      ("rows", .array (packRecords page.records).2), ("session_id", .string page.sessionId),
      ("source", .string page.source.asStr), ("source_path", .string page.sourcePath),
      ("view", .string page.view.asStr), ("warnings", .strings page.warnings)] := by
  rfl

/-- Decoding row by row stops at the first record that has no line. -/
theorem mapM_rows {g : Value → Except String Value} (rows : List Value) (rs : List (Record × ℕ))
    (event : ℕ → Value)
    (h : List.Forall₂ (fun row (r : Record × ℕ) => g row =
      if 0 < r.1.line then .ok (Record.toValue ⟨r.1.line, event r.2⟩) else .error "invalid source line") rows rs) :
    rows.mapM g = if ∀ r ∈ rs, 0 < r.1.line then .ok (rs.map fun r => Record.toValue ⟨r.1.line, event r.2⟩)
      else .error "invalid source line" := by
  induction h with
  | nil => simp [pure, Except.pure]
  | @cons row r rows rs hrow _ ih =>
    have hcons := List.forall_mem_cons (p := fun r : Record × ℕ => 0 < r.1.line) (a := r) (l := rs)
    rw [List.mapM_cons, hrow, ih]
    by_cases hr : 0 < r.1.line
    · by_cases hrs : ∀ r ∈ rs, 0 < r.1.line
      · rw [if_pos hr, if_pos hrs, if_pos (hcons.mpr ⟨hr, hrs⟩)]
        rfl
      · rw [if_pos hr, if_neg hrs, if_neg fun hall => hrs (hcons.mp hall).2]
        rfl
    · rw [if_neg hr, if_neg fun hall => hr (hcons.mp hall).1]
      rfl

theorem mapM_packRecords (hwf : ∀ r ∈ records, r.event.WF) :
    (packRecords records).2.mapM (decodeRow ((packRecords records).1.map Layout.toValue)) =
      if ∀ r ∈ records, 0 < r.line then
        .ok (records.zipIdx.map fun r => Record.toValue ⟨r.1.line, unifiedEvent records r.2⟩)
      else .error "invalid source line" := by
  have hrows := mapM_rows (g := decodeRow ((packRecords records).1.map Layout.toValue))
    (packRecords records).2 records.zipIdx (unifiedEvent records)
    (List.forall₂_iff_get.mpr ⟨?_, fun i h₁ h₂ => ?_⟩)
  · rw [hrows]
    have hlines : (∀ r ∈ records.zipIdx, 0 < r.1.line) ↔ ∀ r ∈ records, 0 < r.line := by
      constructor
      · intro h r hr
        obtain ⟨i, hi⟩ := List.mem_iff_getElem?.mp hr
        exact h (r, i) (mem_zipIdx_iff.mpr hi)
      · exact fun h r hr => h r.1 (List.mem_of_getElem? (mem_zipIdx_iff.mp hr))
    simp only [hlines]
  · rw [(packed_packRecords records).length, List.length_zipIdx]
  · have hlt : i < records.length := (packed_packRecords records).length ▸ h₁
    have hget := List.getElem?_eq_getElem hlt
    obtain ⟨number, hlayout, hrow⟩ := row_packRecords hlt
    have hrow' : (packRecords records).2.get ⟨i, h₁⟩ =
        rowValue records number (layoutFor records (eventKeys (eventAt records i))) i :=
      Option.some.inj ((List.getElem?_eq_getElem h₁).symm.trans hrow)
    have hindex : (records.zipIdx.get ⟨i, h₂⟩) = (records[i], i) := by simp
    rw [hrow', hindex]
    rw [eventAt_eq hget] at hlayout ⊢
    refine decodeRow_rowValue hget (hwf _ (List.getElem_mem hlt)) ?_
    rw [List.getElem?_map, hlayout]
    rfl

/-- The rows of a page decode to the page with its shared fields unified, if every record has a line. -/
theorem decodeRows_packRows (page : Page) (hwf : ∀ r ∈ page.records, r.event.WF) :
    decodeRows (packRows page) =
      if ∀ r ∈ page.records, 0 < r.line then .ok (unify page).toValue else .error "invalid source line" := by
  have hdecode : decodeRows (packRows page) = ((packRecords page.records).2.mapM
      (decodeRow ((packRecords page.records).1.map Layout.toValue))).bind fun rs =>
        .ok (Page.toValue { page with records := [] } |>.set "records" (.array rs)) := by
    rw [packRows_eq]
    rfl
  have hunify : (unify page).toValue = (Page.toValue { page with records := [] }).set "records"
      (.array (page.records.zipIdx.map fun r => Record.toValue ⟨r.1.line, unifiedEvent page.records r.2⟩)) := by
    have hrecords : (unify page).records.map Record.toValue =
        page.records.zipIdx.map fun r => Record.toValue ⟨r.1.line, unifiedEvent page.records r.2⟩ := by
      rw [unify, List.map_map]
      rfl
    rw [← hrecords]
    rfl
  rw [hdecode, mapM_packRecords hwf, hunify]
  split <;> rfl

/-! ## Pages that rows keep -/

/-- Fields that are `==` in all events of a layout are the same. -/
def SharedExact (records : List Record) : Prop :=
  ∀ i < records.length, ∀ key ∈ eventKeys (eventAt records i),
    isShared records (indicesOf records (eventKeys (eventAt records i))) key = true →
    (eventAt records i).index key =
      (eventAt records ((indicesOf records (eventKeys (eventAt records i))).headD 0)).index key

variable (records) in
theorem get?_unifiedEvent (i : ℕ) (key : String) :
    (unifiedEvent records i).get? key =
      if key ∈ eventKeys (eventAt records i) then
        some (if isShared records (indicesOf records (eventKeys (eventAt records i))) key = true then
          (eventAt records ((indicesOf records (eventKeys (eventAt records i))).headD 0)).index key
        else (eventAt records i).index key)
      else none := by
  rw [unifiedEvent, Value.get?_object, Assoc.get?_insertAll_map_key, get?_shared]
  by_cases hkey : key ∈ eventKeys (eventAt records i)
  · cases hshared : isShared records (indicesOf records (eventKeys (eventAt records i))) key <;>
      simp [mem_fields, hkey, hshared]
  · simp [mem_fields, hkey]

theorem get?_of_mem_eventKeys {event : Value} {key : String} (h : key ∈ eventKeys event) :
    event.get? key = some (event.index key) := by
  cases event with
  | object fields =>
    obtain ⟨v, hv⟩ := Option.isSome_iff_exists.mp (Assoc.get?_isSome_iff.mpr h)
    have hget : Assoc.get? key fields = some v := hv
    rw [Value.index, Value.get?_object, hget]
    rfl
  | _ => cases h

theorem get?_of_not_mem_eventKeys {event : Value} {key : String} (h : key ∉ eventKeys event) :
    event.get? key = none := by
  cases event with
  | object fields => exact Assoc.get?_eq_none_iff.mpr h
  | _ => rfl

/-- An event is its unified form iff the shared fields agree. -/
theorem unifiedEvent_eq_iff {i : ℕ} (hwf : (eventAt records i).WF) (hobject : (eventAt records i).asObject?.isSome) :
    unifiedEvent records i = eventAt records i ↔ ∀ key ∈ eventKeys (eventAt records i),
      isShared records (indicesOf records (eventKeys (eventAt records i))) key = true →
      (eventAt records i).index key =
        (eventAt records ((indicesOf records (eventKeys (eventAt records i))).headD 0)).index key := by
  constructor
  · intro heq key hkey hshared
    have hget := get?_unifiedEvent records i key
    rw [heq, get?_of_mem_eventKeys hkey, if_pos hkey, if_pos hshared] at hget
    exact Option.some.inj hget
  · intro h
    obtain ⟨fields, hfields⟩ := Option.isSome_iff_exists.mp hobject
    have hevent := Value.asObject?_eq_some.mp hfields
    have hget : ∀ key, (unifiedEvent records i).get? key = (eventAt records i).get? key := by
      intro key
      rw [get?_unifiedEvent]
      by_cases hkey : key ∈ eventKeys (eventAt records i)
      · rw [if_pos hkey, get?_of_mem_eventKeys hkey]
        split
        · rename_i hshared
          rw [h key hkey hshared]
        · rfl
      · rw [if_neg hkey, get?_of_not_mem_eventKeys hkey]
    have hascending : Assoc.Ascending fields := (Value.wf_object.mp (hevent ▸ hwf)).1
    rw [unifiedEvent]
    refine (Value.object_ext (Assoc.Ascending.insertAll ?_ _) hascending fun key => ?_).trans hevent.symm
    · exact Assoc.Ascending.insertAll (by simp [Assoc.Ascending]) _
    · have := hget key
      rwa [unifiedEvent, Value.get?_object, hevent, Value.get?_object, ← hevent] at this

theorem Record.toValue_injective {r r' : Record} (h : r.toValue = r'.toValue) : r = r' := by
  obtain ⟨line, event⟩ := r
  obtain ⟨line', event'⟩ := r'
  simp only [Record.toValue, Value.object.injEq, List.cons.injEq, Prod.mk.injEq, true_and, and_true,
    Value.nat, Value.number.injEq, Number.posInt.injEq] at h
  rw [h.1, h.2]

/-- Pages that differ in their records at most are told apart by their JSON. -/
theorem records_of_toValue {page page' : Page} (h : page.toValue = page'.toValue) : page.records = page'.records := by
  have hrecords : page.records.map Record.toValue = page'.records.map Record.toValue :=
    Value.array.inj (Option.some.inj (congrArg (fun v => v.get? "records") h))
  exact List.map_injective_iff.mpr (fun r r' => Record.toValue_injective) hrecords

theorem unify_toValue_iff {page : Page} (hwf : ∀ r ∈ page.records, r.event.WF)
    (hobject : ∀ r ∈ page.records, r.event.asObject?.isSome) :
    (unify page).toValue = page.toValue ↔ SharedExact page.records := by
  have hiff : ∀ i (hi : i < page.records.length), (unifiedEvent page.records i = eventAt page.records i ↔
      ∀ key ∈ eventKeys (eventAt page.records i),
        isShared page.records (indicesOf page.records (eventKeys (eventAt page.records i))) key = true →
        (eventAt page.records i).index key = (eventAt page.records
          ((indicesOf page.records (eventKeys (eventAt page.records i))).headD 0)).index key) := by
    intro i hi
    have hget := List.getElem?_eq_getElem hi
    refine unifiedEvent_eq_iff ?_ ?_ <;> rw [eventAt_eq hget]
    · exact hwf _ (List.getElem_mem hi)
    · exact hobject _ (List.getElem_mem hi)
  have hrecord : ∀ i, (unify page).records[i]? =
      page.records[i]?.map fun r => Record.mk r.line (unifiedEvent page.records i) := by
    intro i
    rw [unify, List.getElem?_map, List.getElem?_zipIdx, Option.map_map]
    cases page.records[i]? <;> simp
  constructor
  · intro h i hi
    have hrecords := records_of_toValue h
    refine (hiff i hi).mp ?_
    have hget := List.getElem?_eq_getElem hi
    have hsame := hrecord i
    rw [hrecords, hget, Option.map_some, Option.some.injEq] at hsame
    rw [eventAt_eq hget]
    exact (congrArg Record.event hsame).symm
  · intro h
    have hrecords : (unify page).records = page.records := by
      refine List.ext_getElem? fun i => ?_
      rw [hrecord]
      cases hget : page.records[i]? with
      | none => rfl
      | some r =>
        have hi := (List.getElem?_eq_some_iff.mp hget).1
        rw [Option.map_some, (hiff i hi).mpr (h i hi), eventAt_eq hget]
    have hpage : unify page = { page with records := (unify page).records } := rfl
    rw [hpage, hrecords]

end Innen.Conversation
