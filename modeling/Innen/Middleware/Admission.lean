import Innen.Common.Admission
import Innen.Middleware.Model
import Mathlib.Data.List.Sort

/-!
# Which items enter a packet

With a tokenizer that always answers, a request with valid ids either needs more for its required items than the budget
gives, or its packet fits. Then an optional item is left out exactly when the packet with it would not have fit beside
what was tried before it (`prepare_greedy`). What the tokenizer counts is arbitrary.
-/

namespace Innen.Middleware

open Innen.Common

variable (P : Platform) (count : String → ℕ) (request : Request)

/-! ## A tokenizer that always answers -/

/-- The platform with a total token counter. -/
def Platform.counting : Platform := { P with tokensText := fun text => .ok (count text) }

/-- The packet of the items that are kept, as text. -/
def packetWhere (keep : Item × ℕ → Bool) : String :=
  structText P.floatText (packetFields .object request ((request.items.zipIdx.filter keep).map Prod.fst))

/-- One item is tried before another one: it has a higher priority, or the same and an earlier position. -/
def triedEarlier (a b : Item × ℕ) : Bool := triedBefore a b && a.2 ≠ b.2

/-- What the selection of a packet is: everything is told by the ids in the result. -/
structure Greedy (prepared : Prepared) : Prop where
  required : ∀ item ∈ request.items, item.required = true → item.id ∈ prepared.selectedIds
  selected : prepared.selectedIds = (request.items.filter fun item => item.id ∈ prepared.selectedIds).map (·.id)
  omitted : prepared.omittedIds = (request.items.filter fun item => item.id ∉ prepared.selectedIds).map (·.id)
  rendered : prepared.packetJson = packetWhere P request fun e => e.1.id ∈ prepared.selectedIds
  fits : count prepared.packetJson ≤ request.budgetTokens
  /-- An optional item is left out iff it did not fit beside the required items and the optional ones that were
  selected before it. -/
  omitted_iff : ∀ e ∈ request.items.zipIdx, e.1.required = false → (e.1.id ∈ prepared.omittedIds ↔
    request.budgetTokens < count (packetWhere P request fun x =>
      x.1.required || (x.1.id ∈ prepared.selectedIds && triedEarlier x e) || x.2 = e.2))

/-! ## The run over the optional items -/

/-- The packet of some positions is within the budget. -/
def fitsBudget (s : SortedSet ℕ) : Bool := count (packetJson P request s) ≤ request.budgetTokens

theorem packetJson_eq (s : SortedSet ℕ) : packetJson P request s = packetWhere P request fun e => e.2 ∈ s := rfl

/-- The run is that of the positions alone. -/
theorem foldlM_tryOptional (l : List (Item × ℕ)) (s : SortedSet ℕ) :
    l.foldlM (tryOptional (P.counting count) request) s =
      .ok ((l.map Prod.snd).foldl (letIn (fitsBudget P count request)) s) := by
  induction l generalizing s with
  | nil => rfl
  | cons e rest ih =>
    have hstep : tryOptional (P.counting count) request s e = .ok (letIn (fitsBudget P count request) s e.2) := by
      simp only [tryOptional, letIn, fitsBudget, decide_eq_true_eq]
      rfl
    rw [List.foldlM_cons, hstep, List.map_cons, List.foldl_cons, ← ih]
    rfl

/-- The optional items in the order in which they are tried. -/
def triedOrder : List (Item × ℕ) := (request.items.zipIdx.filter fun e => !e.1.required).mergeSort triedBefore

variable {request}

theorem triedBefore_trans (a b c : Item × ℕ) (hab : triedBefore a b = true) (hbc : triedBefore b c = true) :
    triedBefore a c = true := by
  simp only [triedBefore, decide_eq_true_eq] at *
  omega

theorem triedBefore_total (a b : Item × ℕ) : (triedBefore a b || triedBefore b a) = true := by
  simp only [triedBefore, Bool.or_eq_true, decide_eq_true_eq]
  omega

theorem mem_triedOrder {e : Item × ℕ} : e ∈ triedOrder request ↔ e ∈ request.items.zipIdx ∧ e.1.required = false := by
  rw [triedOrder, List.mem_mergeSort, List.mem_filter, Bool.not_eq_true']

theorem nodup_positions : ((triedOrder request).map Prod.snd).Nodup := by
  have hperm : ((triedOrder request).map Prod.snd).Perm
      ((request.items.zipIdx.filter fun e => !e.1.required).map Prod.snd) := (List.mergeSort_perm _ _).map _
  rw [hperm.nodup_iff]
  refine List.Nodup.sublist (List.filter_sublist.map _) ?_
  rw [List.zipIdx_map_snd]
  exact List.nodup_range'

/-- An item of the list is at its position. -/
theorem eq_of_position {e e' : Item × ℕ} (he : e ∈ request.items.zipIdx) (he' : e' ∈ request.items.zipIdx)
    (h : e.2 = e'.2) : e = e' := by
  rw [List.mem_zipIdx_iff_getElem?] at he he'
  rw [h, he'] at he
  exact Prod.ext (Option.some.inj he).symm h

/-- What stands before an item in the order is what is tried earlier. -/
theorem mem_before_iff {pre post : List (Item × ℕ)} {e x : Item × ℕ} (h : triedOrder request = pre ++ e :: post)
    (hx : x ∈ triedOrder request) : x ∈ pre ↔ triedEarlier x e = true := by
  have hsorted : (triedOrder request).Pairwise fun a b => triedBefore a b = true :=
    List.pairwise_mergeSort triedBefore_trans triedBefore_total _
  have hnodup : ((triedOrder request).map Prod.snd).Nodup := nodup_positions
  rw [h] at hsorted hnodup hx
  rw [List.pairwise_append] at hsorted
  rw [List.map_append, List.map_cons, List.nodup_append] at hnodup
  rw [triedEarlier, Bool.and_eq_true, decide_eq_true_eq]
  constructor
  · intro hmem
    exact ⟨hsorted.2.2 x hmem e List.mem_cons_self,
      hnodup.2.2 x.2 (List.mem_map_of_mem hmem) e.2 List.mem_cons_self⟩
  · rintro ⟨hbefore, hne⟩
    rcases List.mem_append.mp hx with hmem | hmem
    · exact hmem
    · rcases List.mem_cons.mp hmem with rfl | hmem
      · exact absurd rfl hne
      · have hafter := (List.pairwise_cons.mp hsorted.2.1).1 x hmem
        simp only [triedBefore, decide_eq_true_eq] at hbefore hafter
        omega

/-! ## Ids and positions -/

/-- Valid ids differ from each other. -/
theorem nodup_of_validIds {items : List Item} {ids : SortedSet String} (h : validIds ids items = true) :
    (∀ item ∈ items, item.id ∉ ids) ∧ (items.map (·.id)).Nodup := by
  induction items generalizing ids with
  | nil => exact ⟨fun item hitem => absurd hitem List.not_mem_nil, List.nodup_nil⟩
  | cons item rest ih =>
    rw [validIds, Bool.and_eq_true, Bool.and_eq_true, decide_eq_true_eq, decide_eq_true_eq] at h
    obtain ⟨⟨-, hfresh⟩, hrest⟩ := h
    obtain ⟨hothers, hnodup⟩ := ih hrest
    refine ⟨fun other hother => ?_, List.nodup_cons.mpr ⟨fun hmem => ?_, hnodup⟩⟩
    · rcases List.mem_cons.mp hother with rfl | hother
      · exact hfresh
      · exact fun hin => hothers other hother (SortedSet.mem_insert.mpr (.inr hin))
    · obtain ⟨other, hother, hid⟩ := List.mem_map.mp hmem
      exact hothers other hother (SortedSet.mem_insert.mpr (.inl hid))

/-- Positions of the list, as the entries that stand there. -/
theorem elems_eq_positions {s : SortedSet ℕ} (hs : ∀ i ∈ s, i < request.items.length) :
    s.elems = (request.items.zipIdx.filter fun e => e.2 ∈ s).map Prod.snd := by
  have hascending : ((request.items.zipIdx.filter fun e => e.2 ∈ s).map Prod.snd).Pairwise (· < ·) := by
    refine List.Pairwise.sublist (List.filter_sublist.map _) ?_
    rw [List.zipIdx_map_snd]
    exact List.pairwise_lt_range'
  refine congrArg SortedSet.elems (SortedSet.ext_mem (s := s) (t := ⟨_, hascending⟩) fun i => ?_)
  change i ∈ s ↔ i ∈ (request.items.zipIdx.filter fun e => e.2 ∈ s).map Prod.snd
  simp only [List.mem_map, List.mem_filter, List.mem_zipIdx_iff_getElem?, decide_eq_true_eq, Prod.exists]
  constructor
  · exact fun hi => ⟨request.items.get ⟨i, hs i hi⟩, i, ⟨List.getElem?_eq_getElem (hs i hi), hi⟩, rfl⟩
  · rintro ⟨item, j, ⟨-, hj⟩, rfl⟩
    exact hj

/-- The ids at some positions, in input order. -/
theorem idsAt_eq {s : SortedSet ℕ} (hs : ∀ i ∈ s, i < request.items.length) :
    idsAt request s = (request.items.zipIdx.filter fun e => e.2 ∈ s).map (·.1.id) := by
  rw [idsAt, elems_eq_positions hs, List.filterMap_map, ← List.filterMap_eq_map]
  refine List.filterMap_congr fun e he => ?_
  have hget := List.mem_zipIdx_iff_getElem?.mp (List.mem_filter.mp he).1
  rw [Function.comp_apply, hget]
  rfl

/-- An id is among those at some positions iff its position is among them. -/
theorem mem_idsAt_iff {s : SortedSet ℕ} (hs : ∀ i ∈ s, i < request.items.length)
    (hnodup : (request.items.map (·.id)).Nodup) {e : Item × ℕ} (he : e ∈ request.items.zipIdx) :
    e.1.id ∈ idsAt request s ↔ e.2 ∈ s := by
  rw [idsAt_eq hs, List.mem_map]
  constructor
  · rintro ⟨x, hx, hid⟩
    obtain ⟨hx, hmem⟩ := List.mem_filter.mp hx
    rw [List.mem_zipIdx_iff_getElem?] at he hx
    have hsame : (request.items.map (·.id))[x.2]? = (request.items.map (·.id))[e.2]? := by
      rw [List.getElem?_map, List.getElem?_map, hx, he, Option.map_some, Option.map_some, hid]
    have hlt : x.2 < (request.items.map (·.id)).length := by
      rw [List.length_map]
      exact (List.getElem?_eq_some_iff.mp hx).1
    exact (List.getElem?_inj hlt hnodup).mp hsame ▸ of_decide_eq_true hmem
  · exact fun hmem => ⟨e, List.mem_filter.mpr ⟨he, decide_eq_true hmem⟩, rfl⟩

/-- Items that are told by a position are told by their id. -/
theorem filter_positions {keep : Item × ℕ → Bool} {keepItem : Item → Bool}
    (h : ∀ e ∈ request.items.zipIdx, keep e = keepItem e.1) :
    (request.items.zipIdx.filter keep).map (·.1.id) = (request.items.filter keepItem).map (·.id) := by
  have hitems : request.items.filter keepItem = (request.items.zipIdx.filter fun e => keepItem e.1).map Prod.fst := by
    conv_lhs => rw [← List.zipIdx_map_fst 0 request.items]
    rw [List.filter_map]
    rfl
  rw [hitems, List.map_map, List.filter_congr h]
  rfl

/-! ## The result -/

/-- The positions that are selected in the end. -/
def admitted (request : Request) : SortedSet ℕ :=
  ((triedOrder request).map Prod.snd).foldl (letIn (fitsBudget P count request)) (positionsWhere request (·.required))

theorem admitted_lt {i : ℕ} (hi : i ∈ admitted P count request) : i < request.items.length := by
  rcases mem_of_mem_foldl_letIn hi with hi | hi
  · obtain ⟨item, hitem, -⟩ := mem_positionsWhere.mp hi
    exact (List.getElem?_eq_some_iff.mp hitem).1
  · obtain ⟨e, he, rfl⟩ := List.mem_map.mp hi
    exact (List.getElem?_eq_some_iff.mp (List.mem_zipIdx_iff_getElem?.mp (mem_triedOrder.mp he).1)).1

theorem mem_required_iff {e : Item × ℕ} (he : e ∈ request.items.zipIdx) :
    e.2 ∈ positionsWhere request (·.required) ↔ e.1.required = true := by
  rw [List.mem_zipIdx_iff_getElem?] at he
  rw [mem_positionsWhere, he]
  exact ⟨fun ⟨item, hitem, hreq⟩ => Option.some.inj hitem ▸ hreq, fun hreq => ⟨e.1, rfl, hreq⟩⟩

/-- An optional item is selected iff the packet with it fits beside what was tried before it. -/
theorem mem_admitted_iff {e : Item × ℕ} (he : e ∈ request.items.zipIdx) (hoptional : e.1.required = false) :
    e.2 ∈ admitted P count request ↔ count (packetWhere P request fun x =>
      x.1.required || (decide (x.2 ∈ admitted P count request) && triedEarlier x e) || x.2 = e.2) ≤
        request.budgetTokens := by
  obtain ⟨pre, post, horder⟩ := List.append_of_mem (mem_triedOrder.mpr ⟨he, hoptional⟩)
  have hnodup : ((triedOrder request).map Prod.snd).Nodup := nodup_positions
  have hrequired : e.2 ∉ positionsWhere request (·.required) := by
    rw [mem_required_iff he, hoptional]
    exact Bool.false_ne_true
  rw [horder, List.map_append, List.map_cons] at hnodup
  obtain ⟨hpre, hpost, hdisjoint⟩ := List.nodup_append.mp hnodup
  have hpre' : e.2 ∉ pre.map Prod.snd := fun h => hdisjoint _ h _ List.mem_cons_self rfl
  have hpost' : e.2 ∉ post.map Prod.snd := (List.nodup_cons.mp hpost).1
  have hmem : e.2 ∈ admitted P count request ↔ fitsBudget P count request
      (((pre.map Prod.snd).foldl (letIn (fitsBudget P count request)) (positionsWhere request (·.required))).insert
        e.2) = true := by
    rw [admitted, horder, List.map_append, List.map_cons]
    exact mem_foldl_letIn_iff hrequired hpre' hpost'
  rw [hmem, fitsBudget, decide_eq_true_eq, packetJson_eq]
  -- What was selected by then is what is selected in the end of what is tried earlier.
  have hkeep : ∀ x ∈ request.items.zipIdx, decide (x.2 ∈ ((pre.map Prod.snd).foldl (letIn (fitsBudget P count request))
      (positionsWhere request (·.required))).insert e.2) =
        (x.1.required || (decide (x.2 ∈ admitted P count request) && triedEarlier x e) || decide (x.2 = e.2)) := by
    intro x hx
    rw [Bool.eq_iff_iff, decide_eq_true_eq, Bool.or_eq_true, Bool.or_eq_true, Bool.and_eq_true, decide_eq_true_eq,
      decide_eq_true_eq, SortedSet.mem_insert, or_comm]
    refine or_congr_left ?_
    cases hreq : x.1.required with
    | true =>
      exact iff_of_true (subset_foldl_letIn ((mem_required_iff hx).mpr hreq)) (.inl rfl)
    | false =>
      have hxorder := mem_triedOrder.mpr ⟨hx, hreq⟩
      have hnot : x.2 ∉ positionsWhere request (·.required) := by
        rw [mem_required_iff hx, hreq]
        exact Bool.false_ne_true
      rw [← mem_before_iff horder hxorder]
      constructor
      · intro hin
        obtain ⟨y, hy, hyx⟩ := List.mem_map.mp ((mem_of_mem_foldl_letIn hin).resolve_left hnot)
        have hyorder : y ∈ triedOrder request := horder ▸ List.mem_append_left _ hy
        obtain rfl := eq_of_position (mem_triedOrder.mp hyorder).1 hx hyx
        refine .inr ⟨?_, hy⟩
        rw [admitted, horder, List.map_append, List.foldl_append]
        exact subset_foldl_letIn hin
      · rintro (h | ⟨hin, hxpre⟩)
        · cases h
        · rw [admitted, horder, List.map_append] at hin
          refine (mem_foldl_letIn_append ?_).mp hin
          exact fun hlater => hdisjoint x.2 (List.mem_map_of_mem hxpre) x.2 (by rwa [List.map_cons] at hlater) rfl
  rw [packetWhere, List.filter_congr hkeep, packetWhere]

/-- What the required items need. -/
def requiredTokens (request : Request) : ℕ := count (packetWhere P request (·.1.required))

theorem count_required (request : Request) :
    count (packetJson P request (positionsWhere request (·.required))) = requiredTokens P count request := by
  rw [requiredTokens, packetJson_eq, packetWhere, packetWhere]
  have hkeep : ∀ e ∈ request.items.zipIdx,
      decide (e.2 ∈ positionsWhere request (·.required)) = e.1.required := by
    intro e he
    rw [Bool.eq_iff_iff, decide_eq_true_eq]
    exact mem_required_iff he
  rw [List.filter_congr hkeep]

/-- The result for a request whose required items fit. -/
theorem prepare_ok (hvalid : validateItems request = .ok ())
    (hfits : requiredTokens P count request ≤ request.budgetTokens) :
    ∃ prepared, prepare (P.counting count) request = .ok prepared ∧
      prepared.selectedIds = idsAt request (admitted P count request) ∧
      prepared.omittedIds =
        (request.items.zipIdx.filter fun e => e.2 ∉ admitted P count request).map (·.1.id) ∧
      prepared.packetJson = packetJson P request (admitted P count request) := by
  have hbudget : ¬request.budgetTokens < count (packetJson P request (positionsWhere request (·.required))) := by
    rw [count_required P count request]
    omega
  obtain ⟨expansions, hexpansions⟩ : ∃ expansions,
      request.items.zipIdx.mapM (expansionOf (P.counting count) (admitted P count request)) = .ok expansions :=
    ⟨_, List.mapM_pure⟩
  exact ⟨_, bind_eq_ok.mpr ⟨(), hvalid, bind_eq_ok.mpr ⟨_, rfl, bind_eq_ok.mpr ⟨_, rfl, bind_eq_ok.mpr
    ⟨(), failIf_eq_ok.mpr hbudget, bind_eq_ok.mpr ⟨_, foldlM_tryOptional P count request _ _, bind_eq_ok.mpr
      ⟨_, rfl, bind_eq_ok.mpr ⟨expansions, hexpansions, rfl⟩⟩⟩⟩⟩⟩⟩, rfl, rfl, rfl⟩

/-- The result for a request whose required items do not fit. -/
theorem prepare_refused (hvalid : validateItems request = .ok ())
    (hlarge : request.budgetTokens < requiredTokens P count request) :
    prepare (P.counting count) request = .error (.requiredDoesNotFit request.budgetTokens
      (requiredTokens P count request) (idsAt request (positionsWhere request (·.required)))) := by
  rw [prepare, hvalid]
  change (failIf (request.budgetTokens < count (packetJson P request (positionsWhere request (·.required))))
    (Error.requiredDoesNotFit request.budgetTokens
      (count (packetJson P request (positionsWhere request (·.required)))) _) >>= _) = _
  rw [count_required P count request, failIf, if_pos hlarge]
  rfl

theorem greedy_of_admitted {prepared : Prepared} (hnodup : (request.items.map (·.id)).Nodup)
    (hfits : requiredTokens P count request ≤ request.budgetTokens)
    (hselected : prepared.selectedIds = idsAt request (admitted P count request))
    (homitted : prepared.omittedIds =
      (request.items.zipIdx.filter fun e => e.2 ∉ admitted P count request).map (·.1.id))
    (hjson : prepared.packetJson = packetJson P request (admitted P count request)) :
    Greedy P count request prepared := by
  have hlt : ∀ i ∈ admitted P count request, i < request.items.length := fun i hi => admitted_lt P count hi
  have hmem : ∀ e ∈ request.items.zipIdx,
      (e.1.id ∈ prepared.selectedIds ↔ e.2 ∈ admitted P count request) := fun e he => by
    rw [hselected]
    exact mem_idsAt_iff hlt hnodup he
  have hkeep : ∀ e ∈ request.items.zipIdx,
      decide (e.2 ∈ admitted P count request) = decide (e.1.id ∈ prepared.selectedIds) := fun e he => by
    rw [decide_eq_decide, hmem e he]
  have hdrop : ∀ e ∈ request.items.zipIdx,
      decide (e.2 ∉ admitted P count request) = decide (e.1.id ∉ prepared.selectedIds) := fun e he => by
    rw [decide_eq_decide, hmem e he]
  have homitted' : prepared.omittedIds =
      (request.items.filter fun item => item.id ∉ prepared.selectedIds).map (·.id) := by
    rw [homitted]
    exact filter_positions hdrop
  refine ⟨fun item hitem hreq => ?_, ?_, homitted', ?_, ?_, fun e he hoptional => ?_⟩
  · obtain ⟨i, hi⟩ := List.getElem?_of_mem hitem
    have he : (item, i) ∈ request.items.zipIdx := List.mem_zipIdx_iff_getElem?.mpr hi
    exact (hmem _ he).mpr (subset_foldl_letIn ((mem_required_iff he).mpr hreq))
  · conv_lhs => rw [hselected, idsAt_eq hlt]
    exact filter_positions hkeep
  · rw [hjson, packetJson_eq, packetWhere, packetWhere, List.filter_congr hkeep]
  · have hrequired : fitsBudget P count request (positionsWhere request (·.required)) = true := by
      rw [fitsBudget, decide_eq_true_eq, count_required P count request]
      exact hfits
    rw [hjson]
    exact of_decide_eq_true (fits_foldl_letIn hrequired)
  · have hid : e.1.id ∈ prepared.omittedIds ↔ e.2 ∉ admitted P count request := by
      rw [homitted', List.mem_map, ← hmem e he]
      constructor
      · rintro ⟨item, hitem, hid⟩
        exact hid ▸ of_decide_eq_true (List.mem_filter.mp hitem).2
      · intro hnot
        refine ⟨e.1, List.mem_filter.mpr ⟨?_, decide_eq_true hnot⟩, rfl⟩
        exact List.mem_of_getElem? (List.mem_zipIdx_iff_getElem?.mp he)
    rw [hid, mem_admitted_iff P count he hoptional, not_le, packetWhere, packetWhere]
    have hsame : ∀ x ∈ request.items.zipIdx,
        (x.1.required || (decide (x.2 ∈ admitted P count request) && triedEarlier x e) || decide (x.2 = e.2)) =
          (x.1.required || (decide (x.1.id ∈ prepared.selectedIds) && triedEarlier x e) || decide (x.2 = e.2)) :=
      fun x hx => by rw [hkeep x hx]
    rw [List.filter_congr hsame]

/-- A request is refused for its ids or their number, or because its required items do not fit, or its packet is that
of the greedy selection. -/
theorem prepare_greedy (request : Request) :
    (∃ e, validateItems request = .error e ∧ prepare (P.counting count) request = .error e) ∨
      (validateItems request = .ok () ∧
        ((request.budgetTokens < requiredTokens P count request ∧
            prepare (P.counting count) request = .error (.requiredDoesNotFit request.budgetTokens
              (requiredTokens P count request) (idsAt request (positionsWhere request (·.required))))) ∨
          (requiredTokens P count request ≤ request.budgetTokens ∧
            ∃ prepared, prepare (P.counting count) request = .ok prepared ∧ Greedy P count request prepared))) := by
  cases hvalid : validateItems request with
  | error e =>
    refine .inl ⟨e, rfl, ?_⟩
    rw [prepare, hvalid]
    rfl
  | ok _ =>
    refine .inr ⟨rfl, ?_⟩
    rcases Nat.lt_or_ge request.budgetTokens (requiredTokens P count request) with hlarge | hfits
    · exact .inl ⟨hlarge, prepare_refused P count hvalid hlarge⟩
    · obtain ⟨prepared, hprepared, hselected, homitted, hjson⟩ := prepare_ok P count hvalid hfits
      refine .inr ⟨hfits, prepared, hprepared, greedy_of_admitted P count ?_ hfits hselected homitted hjson⟩
      rw [validateItems] at hvalid
      split_ifs at hvalid with hmany hids
      exact (nodup_of_validIds hids).2

/-- A request with an item that has no id. -/
def unnamedRequest : Request := ⟨.null, .null, [⟨"", .null, true, none⟩], 100⟩

/-- A platform that finds no tokens. -/
def silentPlatform : Platform := ⟨fun _ => "0.0", id, fun _ => "", fun _ => .ok 0⟩

/-- A required item without an id is neither selected nor reported as too large. -/
theorem unnamed_refused : ¬∀ request : Request,
    (∃ prepared, prepare (silentPlatform.counting fun _ => 0) request = .ok prepared ∧
        ∀ item ∈ request.items, item.required = true → item.id ∈ prepared.selectedIds) ∨
      ∃ budget needed ids,
        prepare (silentPlatform.counting fun _ => 0) request = .error (.requiredDoesNotFit budget needed ids) := by
  intro h
  have hrefused : prepare (silentPlatform.counting fun _ => 0) unnamedRequest = .error .invalidItems := by
    have hvalid : validateItems unnamedRequest = .error .invalidItems := by decide +kernel
    rw [prepare, hvalid]
    rfl
  rcases h unnamedRequest with ⟨prepared, hprepared, -⟩ | ⟨budget, needed, ids, hlarge⟩
  · rw [hrefused] at hprepared
    cases hprepared
  · rw [hrefused] at hlarge
    cases hlarge

end Innen.Middleware
