import Innen.Common.Paging
import Innen.TaskEntry.Budget
import Mathlib.Tactic.NormNum

/-!
# Pages under a size ceiling

A page that is cut to its budget says where the next one starts, so following it takes every row, as long as each page
keeps its first row. The fallback that keeps the best entry looks only at lists of which nothing was chosen: when a later
row is short enough and the best row is not, the leading run is empty and the page starts again where it started.
`fitToBudget_iff` says when a brief keeps what is promised, and when following `next_offset` takes every row.
-/

namespace Innen.TaskEntry

open Common

variable (P : Pricing)

/-! ## The statement -/

/-- How much is used behind an entry. -/
def spend (budget used : ℕ) (e : BriefEntry) : ℕ := (room P budget used e).elim used fun kept => used + kept.cost

/-- The entry at a place finds room when its turn comes. -/
def FindsRoom (originals : BriefList → List Value) (budget used : ℕ) (l : BriefList) (p : ℕ) : Prop :=
  ∃ before e after, tried P originals = before ++ e :: after ∧ e.list = l ∧ e.pos = p ∧
    (room P budget (before.foldl (spend P budget) used) e).isSome

/-- The brief fits, or the best entry of a list finds room, or no entry of the list does. -/
def BestHasRoom (budget : ℕ) (out : Value) (l : BriefList) : Prop :=
  size P out ≤ budget ∨ FindsRoom P (listOf out) budget (size P (emptied out)) l 0 ∨
    ∀ p, ¬FindsRoom P (listOf out) budget (size P (emptied out)) l p

/-- What a brief under a budget promises. -/
structure Budgeted (budget offset : ℕ) (out out' : Value) : Prop where
  constraint : ∀ first rest, listOf out .constraints = first :: rest →
    ∃ kept rest', listOf out' .constraints = kept :: rest' ∧ (kept = first ∨ kept = shortened first)
  row : ∀ first rest, listOf out .rows = first :: rest → ∃ rest', listOf out' .rows = first :: rest'
  leading : (listOf out' .rows).IsPrefix (listOf out .rows)
  next : out'.index "next_offset" ≠ .null →
    out'.index "next_offset" = .nat (offset + (listOf out' .rows).length) ∧
      (listOf out .rows ≠ [] → 0 < (listOf out' .rows).length)
  fits : ∀ b, (out'.index "budget").index "fits" = .bool b → (b = true ↔ size P out' ≤ budget)
  frame : ∀ key, key ∉ ["constraints", "neighborhood", "rows", "next_offset", "budget"] → out'.get? key = out.get? key

/-- The briefs of a request, at every offset. -/
structure RankedBriefs where
  ranked : List Value
  limit : ℕ
  limit_pos : 0 < limit
  brief : (offset : ℕ) → Brief offset
  rows_eq : ∀ offset, listOf (brief offset).out .rows = (ranked.drop offset).take limit
  next_eq : ∀ offset, (brief offset).out.index "next_offset" =
    if offset + ((ranked.drop offset).take limit).length < ranked.length then
      .nat (offset + ((ranked.drop offset).take limit).length)
    else .null

/-- A page of a request. -/
def pageAt (briefs : RankedBriefs) (budget offset : ℕ) : Value := fitToBudget P (briefs.brief offset).out budget offset

/-- Where a page says that the next one starts. -/
def nextOffset (page : Value) : Option ℕ := (page.index "next_offset").asU64?

/-- The offsets that are reached from the start. -/
def Visited (briefs : RankedBriefs) (budget offset : ℕ) : Prop :=
  Relation.ReflTransGen (fun o o' => nextOffset (pageAt P briefs budget o) = some o') 0 offset

/-- Following `next_offset` from the start ends, and shows every row once and in order. -/
def ShowsAll (briefs : RankedBriefs) (budget : ℕ) : Prop :=
  ∃ pages, Walk (fun o => (.ok (pageAt P briefs budget o) : Except Unit Value)) nextOffset 0 pages ∧
    pages.flatMap (listOf · .rows) = briefs.ranked

/-! ## What is chosen -/

variable {P}

section Choose

variable {budget : ℕ} {originals : BriefList → List Value}

theorem used_foldl_tryEntry (es : List BriefEntry) (s : Choice) :
    (es.foldl (tryEntry P budget) s).used = es.foldl (spend P budget) s.used := by
  induction es generalizing s with
  | nil => rfl
  | cons e rest ih =>
    have hstep : (tryEntry P budget s e).used = spend P budget s.used e := by
      unfold tryEntry spend
      cases room P budget s.used e <;> rfl
    rw [List.foldl_cons, List.foldl_cons, ih, hstep]

/-- A place is chosen by an entry that finds room, and stays chosen. -/
theorem chosen_tryEntry_isSome (s : Choice) (e : BriefEntry) (l : BriefList) (p : ℕ) :
    ((tryEntry P budget s e).chosen l p).isSome ↔
      (s.chosen l p).isSome ∨ e.list = l ∧ e.pos = p ∧ (room P budget s.used e).isSome := by
  unfold tryEntry
  cases hroom : room P budget s.used e with
  | none => simp
  | some kept =>
    by_cases h : l = e.list ∧ p = e.pos
    · simp [Choice.put, h]
    · have h' : ¬(e.list = l ∧ e.pos = p) := fun hl => h ⟨hl.1.symm, hl.2.symm⟩
      simp only [Choice.put, if_neg h, Option.isSome_some]
      tauto

theorem chosen_foldl_isSome (es : List BriefEntry) (s : Choice) (l : BriefList) (p : ℕ) :
    ((es.foldl (tryEntry P budget) s).chosen l p).isSome ↔ (s.chosen l p).isSome ∨
      ∃ before e after, es = before ++ e :: after ∧ e.list = l ∧ e.pos = p ∧
        (room P budget (before.foldl (spend P budget) s.used) e).isSome := by
  induction es generalizing s with
  | nil => simp
  | cons e rest ih =>
    have hused : (tryEntry P budget s e).used = spend P budget s.used e := used_foldl_tryEntry [e] s
    rw [List.foldl_cons, ih, chosen_tryEntry_isSome, hused, or_assoc]
    refine or_congr_right ⟨?_, ?_⟩
    · rintro (h | ⟨before, e', after, rfl, hl, hp, hroom⟩)
      · exact ⟨[], e, rest, rfl, h⟩
      · exact ⟨e :: before, e', after, rfl, hl, hp, hroom⟩
    · rintro ⟨before, e', after, heq, hl, hp, hroom⟩
      cases before with
      | nil =>
        obtain ⟨rfl, rfl⟩ := List.cons.inj heq
        exact .inl ⟨hl, hp, hroom⟩
      | cons b before =>
        obtain ⟨rfl, rfl⟩ := List.cons.inj heq
        exact .inr ⟨before, e', after, rfl, hl, hp, hroom⟩

/-- A place is chosen iff its entry finds room. -/
theorem chosen_isSome_iff (used : ℕ) (l : BriefList) (p : ℕ) :
    ((chooseEntries P originals budget used).chosen l p).isSome ↔ FindsRoom P originals budget used l p := by
  rw [chooseEntries, chosen_foldl_isSome]
  simp only [Option.isSome_none, Bool.false_eq_true, false_or]
  rfl

/-- What is chosen for a place is the entry there, or a shortened constraint. -/
def Sourced (originals : BriefList → List Value) (s : Choice) : Prop :=
  ∀ l p v, s.chosen l p = some v →
    ∃ entry, (originals l)[p]? = some entry ∧ (v = entry ∨ l = .constraints ∧ v = shortened entry)

theorem Sourced.put {s : Choice} (h : Sourced originals s) {l : BriefList} {p : ℕ} {v entry : Value}
    (hentry : (originals l)[p]? = some entry) (hv : v = entry ∨ l = .constraints ∧ v = shortened entry)
    (used count : ℕ) : Sourced originals ⟨used, s.put l p v, count⟩ := by
  intro l' p' v' hv'
  simp only [Choice.put] at hv'
  split at hv'
  · rename_i heq
    obtain ⟨rfl, rfl⟩ := heq
    obtain rfl := Option.some.inj hv'
    exact ⟨entry, hentry, hv⟩
  · exact h l' p' v' hv'

/-- An entry that is tried is in its list. -/
theorem getElem?_of_mem_tried {e : BriefEntry} (h : e ∈ tried P originals) :
    (originals e.list)[e.pos]? = some e.entry := by
  rw [tried, List.mem_mergeSort, List.mem_flatMap] at h
  obtain ⟨l, -, h⟩ := h
  obtain ⟨x, hx, rfl⟩ := List.mem_map.mp h
  exact List.mem_zipIdx_iff_getElem?.mp hx

theorem Sourced.tryEntry {s : Choice} (h : Sourced originals s) {e : BriefEntry}
    (he : (originals e.list)[e.pos]? = some e.entry) : Sourced originals (TaskEntry.tryEntry P budget s e) := by
  unfold TaskEntry.tryEntry room
  split_ifs with hfits hshort
  · exact h.put he (.inl rfl) _ _
  · exact h.put he (.inr ⟨hshort.1, rfl⟩) _ _
  · exact h

theorem sourced_chooseEntries (used : ℕ) : Sourced originals (chooseEntries P originals budget used) := by
  have hrun : ∀ (es : List BriefEntry) (s : Choice), (∀ e ∈ es, (originals e.list)[e.pos]? = some e.entry) →
      Sourced originals s → Sourced originals (es.foldl (TaskEntry.tryEntry P budget) s) := by
    intro es
    induction es with
    | nil => exact fun s _ hs => hs
    | cons e rest ih =>
      intro s hes hs
      exact ih _ (fun e' he' => hes e' (List.mem_cons_of_mem _ he')) (hs.tryEntry (hes e List.mem_cons_self))
  exact hrun _ _ (fun e he => getElem?_of_mem_tried he) fun l p v hv => absurd hv (by simp)

theorem Sourced.keepFirst {s : Choice} (h : Sourced originals s) (l : BriefList) :
    Sourced originals (TaskEntry.keepFirst originals l s) := by
  unfold TaskEntry.keepFirst
  split
  · exact h
  · rename_i first rest horiginals
    split_ifs with hnone hl
    · exact h.put (by rw [horiginals]; rfl) (.inr ⟨hl, rfl⟩) _ _
    · exact h.put (by rw [horiginals]; rfl) (.inl rfl) _ _
    · exact h

/-- The other lists are as they were. -/
theorem chosen_keepFirst_ne {l l' : BriefList} (h : l' ≠ l) (s : Choice) :
    (keepFirst originals l s).chosen l' = s.chosen l' := by
  unfold keepFirst
  split
  · rfl
  · split
    · funext p
      exact if_neg fun heq => h heq.1
    · rfl

/-- The first place of a list is chosen in the end iff it was chosen or nothing of the list was. -/
theorem chosen_keepFirst_isSome {l : BriefList} {s : Choice} (hs : Sourced originals s) (hne : originals l ≠ []) :
    ((keepFirst originals l s).chosen l 0).isSome ↔ (s.chosen l 0).isSome ∨ ∀ p, ¬(s.chosen l p).isSome := by
  unfold keepFirst
  split
  · rename_i hnil
    exact absurd hnil hne
  · rename_i first rest horiginals
    have hall : ((List.range (rest.length + 1)).all fun p => (s.chosen l p).isNone) = true ↔
        ∀ p, ¬(s.chosen l p).isSome := by
      rw [List.all_eq_true]
      refine ⟨fun h p hp => ?_, fun h p _ => by simpa using h p⟩
      obtain ⟨v, hv⟩ := Option.isSome_iff_exists.mp hp
      obtain ⟨entry, hentry, -⟩ := hs l p v hv
      have hlt : p < rest.length + 1 := by
        have := (List.getElem?_eq_some_iff.mp hentry).1
        rwa [horiginals, List.length_cons] at this
      exact absurd (h p (List.mem_range.mpr hlt)) (by simp [hv])
    split
    · rename_i hnone
      exact iff_of_true (by simp [Choice.put]) (.inr (hall.mp hnone))
    · rename_i hsome
      exact (or_iff_left fun h => hsome (hall.mpr h)).symm

/-! ## What is kept of a list -/

/-- A run that starts at a place is a first part of the items from there on. -/
theorem leadingRun_isPrefix {f : ℕ → Option Value} {items : List Value}
    (hf : ∀ p v, f p = some v → items[p]? = some v) (n k : ℕ) :
    (leadingRun ((List.range' k n).map f)).IsPrefix (items.drop k) := by
  induction n generalizing k with
  | zero => exact List.nil_prefix
  | succ n ih =>
    rw [List.range'_succ, List.map_cons]
    cases hv : f k with
    | none => exact List.nil_prefix
    | some v =>
      obtain ⟨hlt, hget⟩ := List.getElem?_eq_some_iff.mp (hf k v hv)
      rw [leadingRun, List.drop_eq_getElem_cons hlt, hget]
      exact List.cons_prefix_cons.mpr ⟨rfl, ih (k + 1)⟩

theorem keptOf_rows (s : Choice) : keptOf originals s .rows =
    leadingRun ((List.range' 0 (originals .rows).length).map (s.chosen .rows)) := by
  rw [keptOf, if_pos rfl, List.range_eq_range']

theorem keptOf_rows_isPrefix {s : Choice} (hs : Sourced originals s) :
    (keptOf originals s .rows).IsPrefix (originals .rows) := by
  rw [keptOf_rows]
  refine leadingRun_isPrefix (fun p v hv => ?_) _ 0
  obtain ⟨entry, hentry, rfl | ⟨hl, -⟩⟩ := hs .rows p v hv
  · exact hentry
  · exact absurd hl (by decide)

/-- The kept rows start with the best row iff its place is chosen. -/
theorem keptOf_rows_ne_nil {s : Choice} (hne : originals .rows ≠ []) :
    keptOf originals s .rows ≠ [] ↔ (s.chosen .rows 0).isSome := by
  obtain ⟨first, rest, hcons⟩ := List.exists_cons_of_ne_nil hne
  rw [keptOf_rows, hcons, List.length_cons, List.range'_succ, List.map_cons]
  cases s.chosen .rows 0 <;> simp [leadingRun]

/-- The list keeps no more than it had. -/
theorem length_keptOf_le {s : Choice} (l : BriefList) : (keptOf originals s l).length ≤ (originals l).length := by
  have hrun : ∀ l : List (Option Value), (leadingRun l).length ≤ l.length := by
    intro l
    induction l with
    | nil => exact le_rfl
    | cons o rest ih =>
      cases o with
      | none => exact Nat.zero_le _
      | some v => exact Nat.succ_le_succ ih
  unfold keptOf
  split
  · exact (hrun _).trans (by simp)
  · exact (List.length_filterMap_le _ _).trans (by simp)

theorem index_id_shortened (entry : Value) : (shortened entry).index "id" = entry.index "id" := by
  unfold shortened
  dsimp only
  split
  · cases entry with
    | object fields =>
      rw [Value.index, Value.get?_set_object, if_neg (by decide)]
      rfl
    | _ => rfl
  · rfl

/-- The kept constraints start with the best one, perhaps shortened, iff its place is chosen. -/
theorem keptOf_constraints_iff {s : Choice} (hs : Sourced originals s) {first : Value} {rest : List Value}
    (hcons : originals .constraints = first :: rest)
    (hdistinct : ((originals .constraints).map fun c => c.index "id").Nodup) :
    (∃ kept rest', keptOf originals s .constraints = kept :: rest' ∧ (kept = first ∨ kept = shortened first)) ↔
      (s.chosen .constraints 0).isSome := by
  have hkept : keptOf originals s .constraints =
      ((List.range' 0 (rest.length + 1)).map (s.chosen .constraints)).filterMap id := by
    rw [keptOf, if_neg (by decide), List.range_eq_range', hcons, List.length_cons]
  rw [hkept, List.range'_succ, List.map_cons]
  have hid : ∀ p v, s.chosen .constraints p = some v →
      ∃ entry, (originals .constraints)[p]? = some entry ∧ v.index "id" = entry.index "id" := by
    intro p v hv
    obtain ⟨entry, hentry, rfl | ⟨-, rfl⟩⟩ := hs .constraints p v hv
    · exact ⟨_, hentry, rfl⟩
    · exact ⟨entry, hentry, index_id_shortened entry⟩
  cases hv : s.chosen .constraints 0 with
  | some v =>
    refine iff_of_true ⟨v, _, rfl, ?_⟩ rfl
    obtain ⟨entry, hentry, h⟩ := hs .constraints 0 v hv
    rw [hcons] at hentry
    obtain rfl : first = entry := Option.some.inj hentry
    exact h.imp_right And.right
  | none =>
    refine iff_of_false ?_ (by simp)
    rintro ⟨kept, rest', heq, hfirst⟩
    -- another constraint would have the id of the first one
    have hmem : kept ∈ ((List.range' 1 rest.length).map (s.chosen .constraints)).filterMap id := by
      have : kept ∈ (none :: (List.range' 1 rest.length).map (s.chosen .constraints)).filterMap id := by
        rw [heq]
        exact List.mem_cons_self
      simpa using this
    obtain ⟨o, ho, rfl⟩ := List.mem_filterMap.mp hmem
    obtain ⟨p, hp, hchosen⟩ := List.mem_map.mp ho
    have hpos : 1 ≤ p := (List.mem_range'_1.mp hp).1
    obtain ⟨entry, hentry, hids⟩ := hid p kept hchosen
    have hkeptid : kept.index "id" = first.index "id" := by
      rcases hfirst with rfl | rfl
      · rfl
      · exact index_id_shortened first
    have hfirst0 : ((originals .constraints).map fun c => c.index "id")[0]? = some (first.index "id") := by
      rw [hcons]
      rfl
    have hentryp : ((originals .constraints).map fun c => c.index "id")[p]? = some (first.index "id") := by
      rw [List.getElem?_map, hentry, Option.map_some, ← hids, hkeptid]
    obtain ⟨h0, hget0⟩ := List.getElem?_eq_some_iff.mp hfirst0
    obtain ⟨hp', hgetp⟩ := List.getElem?_eq_some_iff.mp hentryp
    have heq0 := (hdistinct.getElem_inj_iff).mp (hget0.trans hgetp.symm)
    omega

end Choose

/-! ## The fields of the brief -/

/-- An object with the three lists. -/
structure HasLists (out : Value) : Prop where
  isObject : ∃ fields, out = .object fields
  lists : ∀ l : BriefList, ∃ items, out.get? l.key = some (.array items)

theorem Brief.hasLists {offset : ℕ} (b : Brief offset) : HasLists b.out := ⟨⟨b.fields, rfl⟩, b.lists⟩

theorem key_injective : ∀ {l l' : BriefList}, l.key = l'.key → l = l' := by
  intro l l' h
  cases l <;> cases l' <;> first | rfl | exact absurd h (by decide)

theorem HasLists.get?_set {out : Value} (h : HasLists out) (key : String) (v : Value) (k : String) :
    (out.set key v).get? k = if k = key then some v else out.get? k := by
  obtain ⟨fields, rfl⟩ := h.isObject
  exact Value.get?_set_object fields key k v

theorem HasLists.set {out : Value} (h : HasLists out) {key : String} {v : Value}
    (hv : ∀ l : BriefList, l.key = key → ∃ items, v = .array items) : HasLists (out.set key v) where
  isObject := by
    obtain ⟨fields, rfl⟩ := h.isObject
    exact ⟨_, rfl⟩
  lists l := by
    rw [h.get?_set]
    split
    · rename_i heq
      obtain ⟨items, rfl⟩ := hv l heq
      exact ⟨items, rfl⟩
    · exact h.lists l

theorem HasLists.setList_eq {out : Value} (h : HasLists out) (l : BriefList) (items : List Value) :
    setList out l items = out.set l.key (.array items) := by
  obtain ⟨old, hold⟩ := h.lists l
  rw [setList, Value.index_eq_of_get? hold]
  exact if_pos rfl

theorem HasLists.setList {out : Value} (h : HasLists out) (l : BriefList) (items : List Value) :
    HasLists (TaskEntry.setList out l items) := by
  rw [h.setList_eq]
  exact h.set fun _ _ => ⟨items, rfl⟩

theorem HasLists.get?_setList {out : Value} (h : HasLists out) (l : BriefList) (items : List Value) (k : String) :
    (TaskEntry.setList out l items).get? k = if k = l.key then some (.array items) else out.get? k := by
  rw [h.setList_eq, h.get?_set]

theorem listOf_of_get? {out : Value} {l : BriefList} {items : List Value}
    (h : out.get? l.key = some (.array items)) : listOf out l = items := by
  rw [listOf, Value.index_eq_of_get? h]
  rfl

/-- Emptying the lists changes nothing else. -/
theorem HasLists.emptied {out : Value} (h : HasLists out) : HasLists (TaskEntry.emptied out) ∧
    ∀ k, (∀ l : BriefList, k ≠ l.key) → (TaskEntry.emptied out).get? k = out.get? k := by
  have h₁ := h.setList .constraints []
  have h₂ := h₁.setList .neighborhood []
  refine ⟨h₂.setList .rows [], fun k hk => ?_⟩
  exact ((h₂.get?_setList .rows [] k).trans (if_neg (hk _))).trans
    (((h₁.get?_setList .neighborhood [] k).trans (if_neg (hk _))).trans
      ((h.get?_setList .constraints [] k).trans (if_neg (hk _))))

section PutBack

variable (offset : ℕ) (originals kept : BriefList → List Value)

/-- Putting back one list sets the list, and the next offset where rows are cut. -/
theorem HasLists.putBack {s : Value × List String} (h : HasLists s.1) (l : BriefList) :
    HasLists (TaskEntry.putBack offset originals kept s l).1 ∧
      ∀ k, (TaskEntry.putBack offset originals kept s l).1.get? k =
        if k = l.key then some (.array (kept l))
        else if k = "next_offset" ∧ l = .rows ∧ (kept l).length < (originals l).length then
          some (.nat (offset + (kept l).length))
        else s.1.get? k := by
  have hnext : HasLists (s.1.set "next_offset" (.nat (offset + (kept l).length))) :=
    h.set fun l' hl' => by cases l' <;> exact absurd hl' (by decide)
  unfold TaskEntry.putBack
  by_cases hcut : (kept l).length < (originals l).length ∧ l = .rows
  · simp only [decide_eq_true_eq, if_pos hcut]
    refine ⟨hnext.setList l _, fun k => ?_⟩
    have hiff : (k = "next_offset" ∧ l = .rows ∧ (kept l).length < (originals l).length) ↔ k = "next_offset" :=
      and_iff_left ⟨hcut.2, hcut.1⟩
    rw [hnext.get?_setList, h.get?_set]
    simp only [hiff]
  · simp only [decide_eq_true_eq, if_neg hcut]
    refine ⟨h.setList l _, fun k => ?_⟩
    have hno : ¬(k = "next_offset" ∧ l = .rows ∧ (kept l).length < (originals l).length) :=
      fun hk => hcut ⟨hk.2.2, hk.2.1⟩
    rw [h.get?_setList, if_neg hno]

/-- The brief with what is kept. -/
def putBackAll (out : Value) : Value × List String := BriefList.all.foldl (putBack offset originals kept) (out, [])

theorem HasLists.putBackAll {out : Value} (h : HasLists out) :
    HasLists (TaskEntry.putBackAll offset originals kept out).1 ∧
      ∀ k, (TaskEntry.putBackAll offset originals kept out).1.get? k =
        if k = "rows" then some (.array (kept .rows))
        else if k = "next_offset" ∧ (kept .rows).length < (originals .rows).length then
          some (.nat (offset + (kept .rows).length))
        else if k = "neighborhood" then some (.array (kept .neighborhood))
        else if k = "constraints" then some (.array (kept .constraints))
        else out.get? k := by
  obtain ⟨h₁, hget₁⟩ := HasLists.putBack offset originals kept (s := (out, [])) h .constraints
  obtain ⟨h₂, hget₂⟩ := h₁.putBack offset originals kept .neighborhood
  obtain ⟨h₃, hget₃⟩ := h₂.putBack offset originals kept .rows
  refine ⟨h₃, fun k => (hget₃ k).trans ?_⟩
  rw [hget₂, hget₁]
  simp [BriefList.key]

end PutBack

/-! ## The report -/

/-- Two texts for a field change the length of an object by as much as they differ. -/
theorem length_fieldsText_insert (floatText : UInt64 → String) (k : String) (v w : Value) (l : Fields) :
    (Value.fieldsText floatText (Assoc.insert k v l)).length + (w.toText floatText).length =
      (Value.fieldsText floatText (Assoc.insert k w l)).length + (v.toText floatText).length := by
  induction l with
  | nil =>
    simp only [Assoc.insert, Value.fieldsText, String.length_append]
    omega
  | cons e rest ih =>
    obtain ⟨k', u⟩ := e
    have hne : ∀ v : Value, (Assoc.insert k v rest).isEmpty = false := by
      intro v
      cases rest with
      | nil => rfl
      | cons e' rest =>
        simp only [Assoc.insert]
        split_ifs <;> rfl
    simp only [Assoc.insert]
    split_ifs
    · simp only [Value.fieldsText, String.length_append]
      omega
    · simp only [Value.fieldsText, String.length_append]
      omega
    · simp only [Value.fieldsText, String.length_append, hne]
      omega

/-- The report that the brief does not fit is one character longer than the report that it does. -/
theorem size_report {out : Value} (h : HasLists out) (budget : ℕ) (cut : List String) :
    size P (out.set "budget" (budgetReport budget false cut)) =
      size P (out.set "budget" (budgetReport budget true cut)) + 1 := by
  obtain ⟨fields, rfl⟩ := h.isObject
  have hlen := length_fieldsText_insert P.floatText "budget" (budgetReport budget false cut)
    (budgetReport budget true cut) fields
  have hreport : ((budgetReport budget false cut).toText P.floatText).length =
      ((budgetReport budget true cut).toText P.floatText).length + 1 := by
    simp only [budgetReport, Value.toText, Value.fieldsText, String.length_append]
    rfl
  simp only [size, Value.set, Value.toText, String.length_append]
  omega

/-- The report says whether the brief that holds it fits, and changes nothing else. -/
theorem reportFits_eq {out : Value} (h : HasLists out) (budget : ℕ) (cut : List String) :
    ∃ b : Bool, reportFits P budget out cut = out.set "budget" (budgetReport budget b cut) ∧
      (b = true ↔ size P (reportFits P budget out cut) ≤ budget) := by
  have hnested : ∀ b : Bool, ((out.set "budget" (budgetReport budget true cut)).index "budget").set "fits" (.bool b) =
      budgetReport budget b cut := by
    intro b
    obtain ⟨fields, rfl⟩ := h.isObject
    rw [Value.index_set_self]
    rfl
  refine ⟨decide (size P (out.set "budget" (budgetReport budget true cut)) ≤ budget), ?_, ?_⟩
  · rw [reportFits, hnested, Value.set_set_self]
  · rw [reportFits, hnested, Value.set_set_self, decide_eq_true_eq]
    by_cases hfits : size P (out.set "budget" (budgetReport budget true cut)) ≤ budget
    · rw [decide_eq_true hfits]
    · rw [decide_eq_false hfits, size_report h]
      exact iff_of_false hfits (by omega)

/-! ## One brief -/

section Brief

variable {offset budget : ℕ} (b : Brief offset)

/-- What is chosen in the end of a brief that is too long. -/
def finalChoice (P : Pricing) (budget : ℕ) (out : Value) : Choice :=
  keepFirst (listOf out) .rows
    (keepFirst (listOf out) .constraints (chooseEntries P (listOf out) budget (size P (emptied out))))

/-- What is left of a brief that is too long. -/
structure Fitted (P : Pricing) (budget offset : ℕ) (out out' : Value) : Prop where
  lists : ∀ l, listOf out' l = keptOf (listOf out) (finalChoice P budget out) l
  next : out'.index "next_offset" =
    if (keptOf (listOf out) (finalChoice P budget out) .rows).length < (listOf out .rows).length then
      .nat (offset + (keptOf (listOf out) (finalChoice P budget out) .rows).length)
    else out.index "next_offset"
  fits : ∃ b : Bool, (out'.index "budget").index "fits" = .bool b ∧ (b = true ↔ size P out' ≤ budget)
  frame : ∀ key, key ∉ ["constraints", "neighborhood", "rows", "next_offset", "budget"] → out'.get? key = out.get? key

theorem fitted_of_over (hover : ¬size P b.out ≤ budget) :
    Fitted P budget offset b.out (fitToBudget P b.out budget offset) := by
  obtain ⟨hempty, hsame⟩ := b.hasLists.emptied
  obtain ⟨hput, hget⟩ := hempty.putBackAll offset (listOf b.out)
    (keptOf (listOf b.out) (finalChoice P budget b.out))
  obtain ⟨cut, hout⟩ : ∃ cut, fitToBudget P b.out budget offset = reportFits P budget
      (putBackAll offset (listOf b.out) (keptOf (listOf b.out) (finalChoice P budget b.out)) (emptied b.out)).1 cut := by
    rw [fitToBudget, if_neg hover]
    exact ⟨_, rfl⟩
  obtain ⟨fits, hreport, hiff⟩ := reportFits_eq (P := P) hput budget cut
  rw [← hout] at hreport hiff
  have hfields : ∀ k, k ≠ "budget" → (fitToBudget P b.out budget offset).get? k =
      (putBackAll offset (listOf b.out) (keptOf (listOf b.out) (finalChoice P budget b.out)) (emptied b.out)).1.get? k := by
    intro k hk
    rw [hreport, hput.get?_set, if_neg hk]
  refine ⟨fun l => ?_, ?_, ⟨fits, ?_, hiff⟩, fun k hk => ?_⟩
  · refine listOf_of_get? ((hfields _ (by cases l <;> decide)).trans ((hget _).trans ?_))
    cases l <;> rfl
  · rw [Value.index, hfields _ (by decide), hget, if_neg (by decide)]
    simp only [true_and]
    split
    · rfl
    · rw [if_neg (by decide), if_neg (by decide), hsame _ (fun l => by cases l <;> decide)]
      rfl
  · rw [hreport]
    obtain ⟨fields, hfieldsEq⟩ := hput.isObject
    rw [hfieldsEq, Value.index_set_self]
    rfl
  · simp only [List.mem_cons, List.not_mem_nil, or_false, not_or] at hk
    obtain ⟨hconstraints, hneighborhood, hrows, hnext, hbudget⟩ := hk
    rw [hfields _ hbudget, hget, if_neg hrows, if_neg fun h => hnext h.1, if_neg hneighborhood, if_neg hconstraints]
    exact hsame k fun l => by cases l <;> assumption

theorem sourced_finalChoice (P : Pricing) (budget : ℕ) (out : Value) : Sourced (listOf out) (finalChoice P budget out) :=
  ((sourced_chooseEntries _).keepFirst .constraints).keepFirst .rows

/-- The best entry of a list that is filled up is chosen iff it finds room or nothing of the list does. -/
theorem finalChoice_isSome (out : Value) {l : BriefList} (hl : l = .constraints ∨ l = .rows) (hne : listOf out l ≠ []) :
    ((finalChoice P budget out).chosen l 0).isSome ↔ FindsRoom P (listOf out) budget (size P (emptied out)) l 0 ∨
      ∀ p, ¬FindsRoom P (listOf out) budget (size P (emptied out)) l p := by
  have hsourced : Sourced (listOf out) (chooseEntries P (listOf out) budget (size P (emptied out))) :=
    sourced_chooseEntries _
  simp only [← chosen_isSome_iff]
  rcases hl with rfl | rfl
  · rw [finalChoice, chosen_keepFirst_ne (by decide), chosen_keepFirst_isSome hsourced hne]
  · rw [finalChoice, chosen_keepFirst_isSome (hsourced.keepFirst .constraints) hne]
    simp only [chosen_keepFirst_ne (show BriefList.rows ≠ .constraints by decide)]

/-- The best row is kept iff it has room. -/
theorem row_kept_iff {first : Value} {rest : List Value} (hrows : listOf b.out .rows = first :: rest) :
    (∃ rest', listOf (fitToBudget P b.out budget offset) .rows = first :: rest') ↔ BestHasRoom P budget b.out .rows := by
  by_cases hfits : size P b.out ≤ budget
  · have heq : fitToBudget P b.out budget offset = b.out := if_pos hfits
    rw [heq]
    exact iff_of_true ⟨rest, hrows⟩ (.inl hfits)
  · have hne : listOf b.out .rows ≠ [] := by simp [hrows]
    have hlead := keptOf_rows_isPrefix (sourced_finalChoice P budget b.out)
    rw [(fitted_of_over b hfits).lists, BestHasRoom, or_iff_right hfits, ← finalChoice_isSome b.out (.inr rfl) hne,
      ← keptOf_rows_ne_nil hne]
    rw [hrows] at hlead
    cases hkept : keptOf (listOf b.out) (finalChoice P budget b.out) .rows with
    | nil => simp
    | cons v rest' =>
      rw [hkept] at hlead
      obtain ⟨rfl, -⟩ := List.cons_prefix_cons.mp hlead
      exact iff_of_true ⟨rest', rfl⟩ (by simp)

/-- The best constraint is kept iff it has room. -/
theorem constraint_kept_iff {first : Value} {rest : List Value} (hfirst : listOf b.out .constraints = first :: rest) :
    (∃ kept rest', listOf (fitToBudget P b.out budget offset) .constraints = kept :: rest' ∧
        (kept = first ∨ kept = shortened first)) ↔ BestHasRoom P budget b.out .constraints := by
  by_cases hfits : size P b.out ≤ budget
  · have heq : fitToBudget P b.out budget offset = b.out := if_pos hfits
    rw [heq]
    exact iff_of_true ⟨first, rest, hfirst, .inl rfl⟩ (.inl hfits)
  · have hne : listOf b.out .constraints ≠ [] := by simp [hfirst]
    rw [(fitted_of_over b hfits).lists, BestHasRoom, or_iff_right hfits, ← finalChoice_isSome b.out (.inl rfl) hne]
    exact keptOf_constraints_iff (sourced_finalChoice P budget b.out) hfirst b.distinct

/-- The rows that are kept, and where the next page starts: this holds of every brief. -/
theorem paged_fitToBudget (P : Pricing) (budget : ℕ) :
    (listOf (fitToBudget P b.out budget offset) .rows).IsPrefix (listOf b.out .rows) ∧
      (fitToBudget P b.out budget offset).index "next_offset" =
        if (listOf (fitToBudget P b.out budget offset) .rows).length < (listOf b.out .rows).length then
          .nat (offset + (listOf (fitToBudget P b.out budget offset) .rows).length)
        else b.out.index "next_offset" := by
  by_cases hfits : size P b.out ≤ budget
  · have heq : fitToBudget P b.out budget offset = b.out := if_pos hfits
    rw [heq]
    exact ⟨List.prefix_rfl, (if_neg (lt_irrefl _)).symm⟩
  · obtain ⟨hlists, hnext, -, -⟩ := fitted_of_over b hfits
    rw [hnext, hlists]
    exact ⟨keptOf_rows_isPrefix (sourced_finalChoice P budget b.out), rfl⟩

/-- A brief keeps its promises iff the best constraint and the best row have room. -/
theorem budgeted_iff : Budgeted P budget offset b.out (fitToBudget P b.out budget offset) ↔
    (listOf b.out .constraints ≠ [] → BestHasRoom P budget b.out .constraints) ∧
      (listOf b.out .rows ≠ [] → BestHasRoom P budget b.out .rows) := by
  constructor
  · intro h
    constructor
    · intro hne
      obtain ⟨first, rest, hcons⟩ := List.exists_cons_of_ne_nil hne
      exact (constraint_kept_iff b hcons).mp (h.constraint first rest hcons)
    · intro hne
      obtain ⟨first, rest, hcons⟩ := List.exists_cons_of_ne_nil hne
      exact (row_kept_iff b hcons).mp (h.row first rest hcons)
  · rintro ⟨hconstraint, hrow⟩
    obtain ⟨hlead, hnext⟩ := paged_fitToBudget b P budget
    have hrows : ∀ first rest, listOf b.out .rows = first :: rest →
        ∃ rest', listOf (fitToBudget P b.out budget offset) .rows = first :: rest' :=
      fun first rest hcons => (row_kept_iff b hcons).mpr (hrow (by simp [hcons]))
    have hkept : listOf b.out .rows ≠ [] → 0 < (listOf (fitToBudget P b.out budget offset) .rows).length := by
      intro hne
      obtain ⟨first, rest, hcons⟩ := List.exists_cons_of_ne_nil hne
      obtain ⟨rest', heq⟩ := hrows first rest hcons
      rw [heq]
      exact Nat.succ_pos _
    refine ⟨fun first rest hcons => (constraint_kept_iff b hcons).mpr (hconstraint (by simp [hcons])), hrows, hlead,
      fun hset => ⟨?_, hkept⟩, ?_, ?_⟩
    · rw [hnext] at hset ⊢
      split
      · rfl
      · rename_i hall
        rw [if_neg hall] at hset
        have hlen : (listOf (fitToBudget P b.out budget offset) .rows).length = (listOf b.out .rows).length :=
          le_antisymm hlead.length_le (not_lt.mp hall)
        rw [hlen]
        exact b.next.resolve_left hset
    · by_cases hfits : size P b.out ≤ budget
      · have heq : fitToBudget P b.out budget offset = b.out := if_pos hfits
        have hnone : b.out.index "budget" = .null := by rw [Value.index, Brief.out, Value.get?_object, b.unbudgeted]; rfl
        intro fits hreport
        rw [heq, hnone] at hreport
        exact absurd hreport (by simp [Value.index, Value.get?])
      · obtain ⟨fits, hreport, hiff⟩ := (fitted_of_over b hfits).fits
        intro fits' hreport'
        obtain rfl := Value.bool.inj (hreport.symm.trans hreport')
        exact hiff
    · by_cases hfits : size P b.out ≤ budget
      · have heq : fitToBudget P b.out budget offset = b.out := if_pos hfits
        exact fun key _ => by rw [heq]
      · exact (fitted_of_over b hfits).frame

end Brief

/-! ## All pages -/

section Pages

variable (briefs : RankedBriefs) {budget : ℕ}

/-- The rows that a page shows are the next ranked rows, and the next page starts behind them, if there are more. -/
theorem page_rows (P : Pricing) (budget offset : ℕ) :
    ∃ rest, briefs.ranked.drop offset = listOf (pageAt P briefs budget offset) .rows ++ rest ∧
      nextOffset (pageAt P briefs budget offset) =
        if rest = [] then none else some (offset + (listOf (pageAt P briefs budget offset) .rows).length) := by
  obtain ⟨hlead, hnext⟩ := paged_fitToBudget (briefs.brief offset) P budget
  rw [briefs.next_eq, briefs.rows_eq] at hnext
  rw [briefs.rows_eq] at hlead
  obtain ⟨tail, htail⟩ := hlead
  have hdrop : briefs.ranked.drop offset = listOf (pageAt P briefs budget offset) .rows ++
      (tail ++ (briefs.ranked.drop offset).drop briefs.limit) := by
    rw [← List.append_assoc, pageAt, htail, List.take_append_drop]
  refine ⟨_, hdrop, ?_⟩
  have hcut := congrArg List.length htail
  rw [List.length_append] at hcut
  rw [nextOffset, pageAt, hnext]
  cases tail with
  | cons v tail =>
    rw [List.length_cons] at hcut
    rw [if_pos (by omega), if_neg (by simp)]
    rfl
  | nil =>
    rw [List.length_nil, Nat.add_zero] at hcut
    rw [if_neg (by omega), List.nil_append]
    have hlen : ((briefs.ranked.drop offset).take briefs.limit).length +
        ((briefs.ranked.drop offset).drop briefs.limit).length = briefs.ranked.length - offset := by
      rw [← List.length_append, List.take_append_drop, List.length_drop]
    by_cases hrest : (briefs.ranked.drop offset).drop briefs.limit = []
    · rw [hrest, List.length_nil] at hlen
      rw [if_neg (by omega), if_pos hrest]
      rfl
    · have := List.length_pos_of_ne_nil hrest
      rw [if_pos (by omega), if_neg hrest, hcut]
      rfl

/-- What is visited from a page of a walk starts a walk itself. -/
theorem walk_of_visited {o o' : ℕ} {pages : List Value}
    (h : Walk (fun o => (.ok (pageAt P briefs budget o) : Except Unit Value)) nextOffset o pages)
    (hreach : Relation.ReflTransGen (fun o o' => nextOffset (pageAt P briefs budget o) = some o') o o') :
    ∃ pages', Walk (fun o => (.ok (pageAt P briefs budget o) : Except Unit Value)) nextOffset o' pages' := by
  induction hreach with
  | refl => exact ⟨pages, h⟩
  | tail _ hstep ih =>
    obtain ⟨pages', hwalk⟩ := ih
    cases hwalk with
    | last hpage hend =>
      obtain rfl := Except.ok.inj hpage
      rw [hstep] at hend
      cases hend
    | more hpage hnext hlt hrest =>
      obtain rfl := Except.ok.inj hpage
      obtain rfl := Option.some.inj (hstep.symm.trans hnext)
      exact ⟨_, hrest⟩

/-- A page that is passed shows a row, if there is one. -/
theorem row_shown_of_walk {o : ℕ} {pages : List Value}
    (h : Walk (fun o => (.ok (pageAt P briefs budget o) : Except Unit Value)) nextOffset o pages)
    (hne : listOf (briefs.brief o).out .rows ≠ []) : listOf (pageAt P briefs budget o) .rows ≠ [] := by
  intro hnone
  obtain ⟨rest, hdrop, hnext⟩ := page_rows briefs P budget o
  rw [hnone, List.nil_append] at hdrop
  have hrest : rest ≠ [] := by
    rintro rfl
    rw [briefs.rows_eq, hdrop, List.take_nil] at hne
    exact hne rfl
  rw [if_neg hrest, hnone, List.length_nil, Nat.add_zero] at hnext
  cases h with
  | last hpage hend =>
    obtain rfl := Except.ok.inj hpage
    rw [hnext] at hend
    cases hend
  | more hpage hnext' hlt _ =>
    obtain rfl := Except.ok.inj hpage
    obtain rfl := Option.some.inj (hnext.symm.trans hnext')
    exact absurd hlt (lt_irrefl _)

/-- If every page that is reached shows a row, the pages from an offset on show what is left. -/
theorem exists_walk_from (n o : ℕ) (hn : (briefs.ranked.drop o).length ≤ n)
    (h : ∀ o', Relation.ReflTransGen (fun o o' => nextOffset (pageAt P briefs budget o) = some o') o o' →
      listOf (briefs.brief o').out .rows ≠ [] → listOf (pageAt P briefs budget o') .rows ≠ []) :
    ∃ pages, Walk (fun o => (.ok (pageAt P briefs budget o) : Except Unit Value)) nextOffset o pages ∧
      pages.flatMap (listOf · .rows) = briefs.ranked.drop o := by
  induction n generalizing o with
  | zero =>
    obtain ⟨rest, hdrop, hnext⟩ := page_rows briefs P budget o
    have hnil : briefs.ranked.drop o = [] := List.eq_nil_of_length_eq_zero (Nat.le_zero.mp hn)
    rw [hnil] at hdrop ⊢
    obtain ⟨hrows, rfl⟩ := List.append_eq_nil_iff.mp hdrop.symm
    rw [if_pos rfl] at hnext
    exact ⟨[pageAt P briefs budget o], .last rfl hnext, by rw [List.flatMap_singleton, hrows]⟩
  | succ n ih =>
    obtain ⟨rest, hdrop, hnext⟩ := page_rows briefs P budget o
    by_cases hrest : rest = []
    · subst hrest
      rw [if_pos rfl] at hnext
      refine ⟨[pageAt P briefs budget o], .last rfl hnext, ?_⟩
      rw [List.flatMap_singleton, hdrop, List.append_nil]
    · rw [if_neg hrest] at hnext
      have hne : listOf (briefs.brief o).out .rows ≠ [] := by
        rw [briefs.rows_eq]
        have hlimit := briefs.limit_pos
        have hleft : briefs.ranked.drop o ≠ [] := by
          rw [hdrop]
          exact List.append_ne_nil_of_right_ne_nil _ hrest
        intro htake
        rw [List.take_eq_nil_iff] at htake
        exact htake.elim (fun h => by omega) hleft
      have hshown := List.length_pos_of_ne_nil (h o .refl hne)
      have hbehind : briefs.ranked.drop (o + (listOf (pageAt P briefs budget o) .rows).length) = rest := by
        rw [← List.drop_drop, hdrop, List.drop_left]
      have hshort : (briefs.ranked.drop (o + (listOf (pageAt P briefs budget o) .rows).length)).length ≤ n := by
        rw [hdrop, List.length_append] at hn
        rw [hbehind]
        omega
      obtain ⟨pages, hwalk, hflat⟩ := ih _ hshort fun o' hreach => h o' (.head hnext hreach)
      refine ⟨pageAt P briefs budget o :: pages, .more rfl hnext (by omega) hwalk, ?_⟩
      rw [List.flatMap_cons, hflat, hbehind, hdrop]

/-- Following the pages shows every row iff the best row of each page that is reached has room. -/
theorem showsAll_iff : ShowsAll P briefs budget ↔
    ∀ o, Visited P briefs budget o → listOf (briefs.brief o).out .rows ≠ [] →
      BestHasRoom P budget (briefs.brief o).out .rows := by
  have hshown : ∀ o, listOf (briefs.brief o).out .rows ≠ [] →
      (listOf (pageAt P briefs budget o) .rows ≠ [] ↔ BestHasRoom P budget (briefs.brief o).out .rows) := by
    intro o hne
    obtain ⟨first, rest, hcons⟩ := List.exists_cons_of_ne_nil hne
    rw [← row_kept_iff (briefs.brief o) hcons]
    obtain ⟨hlead, -⟩ := paged_fitToBudget (briefs.brief o) P budget
    rw [hcons] at hlead
    rw [pageAt]
    cases hpage : listOf (fitToBudget P (briefs.brief o).out budget o) .rows with
    | nil => simp
    | cons v rest' =>
      rw [hpage] at hlead
      obtain ⟨rfl, -⟩ := List.cons_prefix_cons.mp hlead
      exact iff_of_true (by simp) ⟨rest', rfl⟩
  constructor
  · rintro ⟨pages, hwalk, -⟩ o hvisited hne
    obtain ⟨pages', hwalk'⟩ := walk_of_visited briefs hwalk hvisited
    exact (hshown o hne).mp (row_shown_of_walk briefs hwalk' hne)
  · intro h
    obtain ⟨pages, hwalk, hflat⟩ := exists_walk_from briefs _ 0 le_rfl
      fun o hvisited hne => (hshown o hne).mpr (h o hvisited hne)
    exact ⟨pages, hwalk, hflat⟩

end Pages

/-- A brief keeps its best constraint and its best row, and with them all it promises, iff each of them finds room when
its turn comes or no entry of its list does; and following `next_offset` shows every row once iff this holds of the best
row of each page that is reached. -/
theorem fitToBudget_iff (P : Pricing) (budget : ℕ) :
    (∀ (offset : ℕ) (b : Brief offset), Budgeted P budget offset b.out (fitToBudget P b.out budget offset) ↔
      (listOf b.out .constraints ≠ [] → BestHasRoom P budget b.out .constraints) ∧
        (listOf b.out .rows ≠ [] → BestHasRoom P budget b.out .rows)) ∧
      ∀ briefs : RankedBriefs, ShowsAll P briefs budget ↔
        ∀ o, Visited P briefs budget o → listOf (briefs.brief o).out .rows ≠ [] →
          BestHasRoom P budget (briefs.brief o).out .rows :=
  ⟨fun _ b => budgeted_iff b, fun briefs => showsAll_iff briefs⟩

/-! ## A long row before a short one -/

/-- The best row: it has a long label. -/
def longRow : Value :=
  .array [.string "page:a", .string "Page", .string "The launch plan and its budget", .number (.float 0x3FF0000000000000),
    .string "unknown", .string "label"]

def shortRow : Value :=
  .array [.string "page:b", .string "Page", .string "Plan", .number (.float 0x3FE0000000000000), .string "unknown",
    .string "label"]

def longBrief : Brief 0 where
  fields :=
    [("constraints", .array []), ("neighborhood", .array []), ("next_offset", .null),
      ("rows", .array [longRow, shortRow]), ("total", .nat 2)]
  lists l := by cases l <;> exact ⟨_, rfl⟩
  distinct := List.nodup_nil
  next := .inl rfl
  unbudgeted := rfl

/-- Rows are valued by their scores, 1 and 1/2. -/
def scorePricing : Pricing where
  floatText bits := if bits = 0x3FF0000000000000 then "1.0" else "0.5"
  value _ pos _ := if pos = 0 then 4 / 5 else 17 / 50

theorem size_longRow : size scorePricing longRow = 72 := by decide +kernel

theorem size_shortRow : size scorePricing shortRow = 46 := by decide +kernel

theorem size_emptied_longBrief : size scorePricing (emptied longBrief.out) = 75 := by decide +kernel

/-- The best row is tried first. -/
theorem tried_longBrief : tried scorePricing (listOf longBrief.out) =
    [⟨.rows, 0, 4 / 5, 73, longRow⟩, ⟨.rows, 1, 17 / 50, 47, shortRow⟩] := by
  have hentries : (BriefList.all.flatMap fun l => entriesOf scorePricing l (listOf longBrief.out l)) =
      [⟨.rows, 0, 4 / 5, size scorePricing longRow + 1, longRow⟩,
        ⟨.rows, 1, 17 / 50, size scorePricing shortRow + 1, shortRow⟩] := rfl
  rw [tried, hentries, size_longRow, size_shortRow]
  refine List.mergeSort_of_pairwise (List.pairwise_pair.mpr (decide_eq_true (.inl ?_)))
  norm_num [BriefEntry.density]

/-- Under a budget of 140 characters the short row is chosen and the best one is not: no row is shown, and the next page
starts at the same offset. -/
theorem longBrief_keeps_no_row : ¬∀ (P : Pricing) (budget offset : ℕ) (b : Brief offset),
    Budgeted P budget offset b.out (fitToBudget P b.out budget offset) := by
  intro h
  have hroom := ((budgeted_iff longBrief).mp (h scorePricing 140 0 longBrief)).2 (by decide)
  rw [BestHasRoom, FindsRoom, size_emptied_longBrief] at hroom
  rcases hroom with hfits | ⟨before, e, after, heq, -, hpos, hsome⟩ | hnone
  · exact absurd hfits (by decide +kernel)
  · rw [tried_longBrief] at heq
    rcases before with _ | ⟨e', before⟩
    · obtain ⟨rfl, -⟩ := List.cons.inj heq
      exact absurd hsome (by simp [room])
    · obtain ⟨rfl, htail⟩ := List.cons.inj heq
      have hmem : e ∈ [(⟨.rows, 1, 17 / 50, 47, shortRow⟩ : BriefEntry)] :=
        htail ▸ List.mem_append_right _ List.mem_cons_self
      obtain rfl := List.mem_singleton.mp hmem
      exact absurd hpos (by decide)
  · refine hnone 1 ⟨[⟨.rows, 0, 4 / 5, 73, longRow⟩], ⟨.rows, 1, 17 / 50, 47, shortRow⟩, [], ?_, rfl, rfl, ?_⟩
    · rw [tried_longBrief]
      rfl
    · simp [spend, room]

end Innen.TaskEntry
