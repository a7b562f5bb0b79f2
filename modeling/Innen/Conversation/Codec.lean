import Innen.Conversation.Deltas
import Innen.Conversation.Rows

/-!
# Encoding and decoding a page

Whatever layers are used, decoding an encoded page gives its JSON back, except that rows take fields that are `==`
for the same (`pageKept_iff`).
-/

namespace Innen.Conversation

open Innen.Common

variable {floatText : UInt64 → String}

/-! ## Wrappers -/

/-- A key that is reserved is not used. -/
theorem reservedKey_not_mem (base : String) (v : Value) : reservedKey base v ∉ v.allKeys :=
  Value.freshKey_not_mem _ _ _ (List.length_filter_le _ _)

theorem textAt_textRef {texts : List String} {s : String} {ref : Value} (h : textRef texts s = some ref) :
    textAt (texts.map .string) ref = .ok (.string s) := by
  rw [textRef] at h
  split at h
  · rename_i hmem
    obtain rfl := Option.some.inj h
    have hget : (texts.map Value.string)[texts.idxOf s]? = some (.string s) := by
      rw [List.getElem?_map, List.getElem?_idxOf hmem]
      rfl
    simp only [textAt, Value.asU64?_nat, okOr_some, bind, Except.bind, hget]
  · cases h

/-- Marking strings does not make up an encoding. -/
theorem encodingOf_mark {f : String → Option Value} {key : String} {v : Value} {e : String}
    (hobject : v.asObject?.isSome) (h : encodingOf (v.mark f key) = some e) : encodingOf v = some e := by
  obtain ⟨fields, hfields⟩ := Option.isSome_iff_exists.mp hobject
  obtain rfl := Value.asObject?_eq_some.mp hfields
  rw [encodingOf, Value.index, Value.get?_mark] at h
  rw [encodingOf, Value.index]
  cases hget : (Value.object fields).get? "encoding" with
  | none => rw [hget] at h; exact h
  | some w =>
    rw [hget, Option.map_some, Option.getD_some] at h
    rw [Option.getD_some]
    cases w with
    | string s =>
      rw [Value.mark] at h
      cases hs : f s with
      | none => rw [hs] at h; exact h
      | some ref => rw [hs] at h; cases h
    | array items => rw [Value.mark_array] at h; cases h
    | object fields => rw [Value.mark_object] at h; cases h
    | _ => rw [Value.mark] at h <;> first | exact h | simp

theorem asObject?_mark {f : String → Option Value} {key : String} {v : Value} (h : v.asObject?.isSome) :
    (v.mark f key).asObject?.isSome := by
  obtain ⟨fields, hfields⟩ := Option.isSome_iff_exists.mp h
  obtain rfl := Value.asObject?_eq_some.mp hfields
  rw [Value.mark_object]
  rfl

theorem any_strings (l : List String) : ((l.map Value.string).any fun s => s.asStr?.isNone) = false := by
  induction l with
  | nil => rfl
  | cons s l ih => rw [List.map_cons, List.any_cons, ih]; rfl

/-- A table of strings is taken off exactly. -/
theorem decodeStrings_packStrings {v : Value} (hobject : v.asObject?.isSome)
    (hencoding : encodingOf v ≠ some "innen.strings.v1") : decodeStrings (packStrings v) = .ok v := by
  have hdecode : decodeStrings (packStrings v) = (do
      failIf (((repeatedStrings v).map Value.string).any fun s => s.asStr?.isNone) "invalid string table"
      let page ← okOr ((some (v.mark (textRef (repeatedStrings v)) (reservedKey "$text" v))).filter fun p =>
        p.asObject?.isSome) "missing page"
      failIf (encodingOf page = some "innen.strings.v1") "nested string encoding"
      page.unmark (textAt ((repeatedStrings v).map Value.string)) "ambiguous string reference"
        (reservedKey "$text" v)) := rfl
  have hmark : encodingOf (v.mark (textRef (repeatedStrings v)) (reservedKey "$text" v)) ≠
      some "innen.strings.v1" := fun h => hencoding (encodingOf_mark hobject h)
  rw [hdecode, any_strings]
  simp only [Option.filter_some, asObject?_mark hobject, if_true, okOr_some, failIf, Bool.false_eq_true, if_false,
    hmark, bind, Except.bind]
  exact Value.unmark_mark (fun s ref => textAt_textRef) v (reservedKey_not_mem _ v)

theorem mapM_fragmentAt {fragments : List String} {join : List ℕ} {parts : List String}
    (h : join.map (fun i => fragments[i]?) = parts.map some) :
    (join.map Value.nat).mapM (fragmentAt (fragments.map .string)) = .ok parts := by
  induction join generalizing parts with
  | nil =>
    obtain rfl := List.map_eq_nil_iff.mp h.symm
    rfl
  | cons i join ih =>
    cases parts with
    | nil => cases h
    | cons part parts =>
      have hi : fragments[i]? = some part := (List.cons.inj h).1
      have hget : fragmentAt (fragments.map .string) (.nat i) = .ok part := by
        have hsome : (fragments.map Value.string)[i]?.bind Value.asStr? = some part := by
          rw [List.getElem?_map, hi]
          rfl
        rw [fragmentAt, Value.asU64?_nat]
        simp only [okOr_some, bind, Except.bind, hsome]
      rw [List.map_cons, List.mapM_cons, hget, ih (List.cons.inj h).2]
      rfl

theorem joinedText_joinRef {j : Joins} (hj : j.Exact) {s : String} {ref : Value} (h : joinRef j s = some ref) :
    joinedText (j.fragments.map .string) ref = .ok (.string s) := by
  rw [joinRef] at h
  cases hget : j.replacements.get? s with
  | none => rw [hget] at h; cases h
  | some join =>
    rw [hget] at h
    obtain rfl := Option.some.inj h
    obtain ⟨parts, hparts, hjoin⟩ := hj s join hget
    simp only [joinedText, Value.asArray?_array, okOr_some, bind, Except.bind, mapM_fragmentAt hparts, hjoin]

/-- Joins are taken off exactly. -/
theorem decodeEdges_packJoins {j : Joins} (hj : j.Exact) {v : Value} (hobject : v.asObject?.isSome) :
    decodeEdges (packJoins j v) = .ok v := by
  have hdecode : decodeEdges (packJoins j v) = (do
      failIf ((j.fragments.map Value.string).any fun f => f.asStr?.isNone) "nonliteral fragment"
      let page ← okOr ((some (v.mark (joinRef j) (reservedKey "$join" v))).filter fun p => p.asObject?.isSome)
        "missing page"
      page.unmark (joinedText (j.fragments.map Value.string)) "ambiguous join marker" (reservedKey "$join" v)) := rfl
  rw [hdecode, any_strings]
  simp only [Option.filter_some, asObject?_mark hobject, if_true, okOr_some, failIf, Bool.false_eq_true, if_false,
    bind, Except.bind]
  exact Value.unmark_mark (fun s ref => joinedText_joinRef hj) v (reservedKey_not_mem _ v)

/-! ## Layers -/

theorem decode_packStrings {v : Value} (hobject : v.asObject?.isSome)
    (hencoding : encodingOf v ≠ some "innen.strings.v1") : decode (packStrings v) = decode v := by
  refine decode_of_unwrap ?_
  have hunwrap : unwrap (packStrings v) = (decodeStrings (packStrings v)).map some := rfl
  rw [hunwrap, decodeStrings_packStrings hobject hencoding]
  rfl

theorem decode_packJoins {j : Joins} (hj : j.Exact) {v : Value} (hobject : v.asObject?.isSome) :
    decode (packJoins j v) = decode v := by
  refine decode_of_unwrap ?_
  have hunwrap : unwrap (packJoins j v) = (decodeEdges (packJoins j v)).map some := rfl
  rw [hunwrap, decodeEdges_packJoins hj hobject]
  rfl

variable (floatText) in
theorem shorter_cases (packed original : Value) :
    shorter floatText packed original = packed ∨ shorter floatText packed original = original := by
  rw [shorter]
  split
  · exact .inl rfl
  · exact .inr rfl

theorem textLen_shorter (packed original : Value) :
    textLen floatText (shorter floatText packed original) ≤ textLen floatText original := by
  rw [shorter]
  split
  · exact Nat.le_of_lt ‹_›
  · exact Nat.le_refl _

variable (floatText) in
theorem factorStrings_cases (v : Value) : factorStrings floatText v = v ∨ factorStrings floatText v = packStrings v := by
  rw [factorStrings]
  split
  · exact .inl rfl
  · exact (shorter_cases floatText _ _).symm

theorem textLen_factorStrings (v : Value) : textLen floatText (factorStrings floatText v) ≤ textLen floatText v := by
  rw [factorStrings]
  split
  · exact Nat.le_refl _
  · exact textLen_shorter _ _

theorem encodeEdges_cases (v : Value) : encodeEdges floatText v = v ∨
    ∃ j : Joins, j.Exact ∧ encodeEdges floatText v = packJoins j v := by
  simp only [encodeEdges]
  split
  · exact .inl rfl
  · rcases shorter_cases floatText (packJoins (joinEdges (sortedLongStrings v) ⟨[], ∅⟩) v) v with h | h
    · exact .inr ⟨_, exact_joinEdges _ exact_nil, h⟩
    · exact .inl h

theorem encodeStarts_some {v packed : Value} (h : encodeStarts floatText v = some packed) :
    packed = packJoins (joinStarts v) v ∧ textLen floatText packed < textLen floatText v := by
  simp only [encodeStarts] at h
  split at h
  · cases h
  · split at h
    · rename_i hlt
      obtain rfl := Option.some.inj h
      exact ⟨rfl, hlt⟩
    · cases h

variable (floatText) in
theorem encodeDeltas_cases (v : Value) : encodeDeltas floatText v = v ∨
    ∃ j : Joins, j.Exact ∧ encodeDeltas floatText v = packJoins j v := by
  rw [encodeDeltas]
  split
  · rename_i packed hpacked
    rcases shorter_cases floatText packed (encodeEdges floatText v) with h | h
    · exact .inr ⟨_, exact_joinStarts v, h.trans (encodeStarts_some hpacked).1⟩
    · rw [h]
      exact encodeEdges_cases v
  · exact encodeEdges_cases v

theorem textLen_encodeDeltas (v : Value) : textLen floatText (encodeDeltas floatText v) ≤ textLen floatText v := by
  have hedges : textLen floatText (encodeEdges floatText v) ≤ textLen floatText v := by
    simp only [encodeEdges]
    split
    · exact Nat.le_refl _
    · exact textLen_shorter _ _
  rw [encodeDeltas]
  split
  · exact (textLen_shorter _ _).trans hedges
  · exact hedges

/-! ## Pages -/

theorem decode_toValue (page : Page) : decode page.toValue = .ok page.toValue :=
  decode_of_unwrap_none rfl

theorem encodingOf_packRows (page : Page) : encodingOf (packRows page) = some "innen.rows.v1" := by
  rw [packRows_eq]
  rfl

theorem decode_packRows {page : Page} (hwf : ∀ r ∈ page.records, r.event.WF) :
    decode (packRows page) =
      if ∀ r ∈ page.records, 0 < r.line then .ok (unify page).toValue else .error "invalid source line" := by
  rw [decode_of_unwrap_none, decodeRows_packRows page hwf]
  rw [unwrap, encodingOf_packRows]
  rfl

/-- Whether a page is written as rows. -/
def RowsChosen (floatText : UInt64 → String) (page : Page) : Prop :=
  (∀ r ∈ page.records, r.event.asObject?.isSome) ∧ textLen floatText (packRows page) < textLen floatText page.toValue

/-- What rows take for granted: records have lines, and fields that are `==` are the same. -/
def RowsExact (page : Page) : Prop := (∀ r ∈ page.records, 0 < r.line) ∧ SharedExact page.records

variable (floatText) in
/-- The value behind the table of strings. -/
theorem encode_cases (page : Page) :
    (RowsChosen floatText page ∧
      encode floatText page = factorStrings floatText (packRows page)) ∨
    (¬RowsChosen floatText page ∧ (encode floatText page = factorStrings floatText page.toValue ∨
      encode floatText page = page.toValue)) := by
  rw [encode]
  split
  · rename_i hall
    have hobject : ∀ r ∈ page.records, r.event.asObject?.isSome := fun r hr => List.all_eq_true.mp hall r hr
    rw [shorter]
    split
    · exact .inl ⟨⟨hobject, ‹_›⟩, rfl⟩
    · rename_i hlen
      exact .inr ⟨fun h => hlen h.2, .inl rfl⟩
  · rename_i hall
    exact .inr ⟨fun h => hall (List.all_eq_true.mpr fun r hr => h.1 r hr), .inr rfl⟩

theorem decode_factorStrings {v : Value} (hobject : v.asObject?.isSome)
    (hencoding : encodingOf v ≠ some "innen.strings.v1") : decode (factorStrings floatText v) = decode v := by
  rcases factorStrings_cases floatText v with h | h
  · rw [h]
  · rw [h, decode_packStrings hobject hencoding]

theorem decode_encodeDeltas {v : Value} (hobject : v.asObject?.isSome) :
    decode (encodeDeltas floatText v) = decode v := by
  rcases encodeDeltas_cases floatText v with h | ⟨j, hj, h⟩
  · rw [h]
  · rw [h, decode_packJoins hj hobject]

/-- A compact page decodes to the page iff rows are exact where they are used. -/
theorem decode_encode_iff {page : Page} (hwf : ∀ r ∈ page.records, r.event.WF) :
    decode (encode floatText page) = .ok page.toValue ↔ (RowsChosen floatText page → RowsExact page) := by
  rcases encode_cases floatText page with ⟨hrows, h⟩ | ⟨hrows, h | h⟩
  · have hobject : (packRows page).asObject?.isSome := by rw [packRows_eq]; rfl
    have hencoding : encodingOf (packRows page) ≠ some "innen.strings.v1" := by
      rw [encodingOf_packRows]
      decide
    rw [h, decode_factorStrings hobject hencoding, decode_packRows hwf]
    have hiff := unify_toValue_iff hwf hrows.1
    by_cases hlines : ∀ r ∈ page.records, 0 < r.line
    · rw [if_pos hlines, Except.ok.injEq, hiff]
      exact ⟨fun hs _ => ⟨hlines, hs⟩, fun hs => (hs hrows).2⟩
    · rw [if_neg hlines]
      refine ⟨fun h => ?_, fun hs => absurd (hs hrows).1 hlines⟩
      cases h
  · have hdecode : decode (encode floatText page) = .ok page.toValue := by
      have hencoding : encodingOf page.toValue = none := rfl
      rw [h, decode_factorStrings rfl (by rw [hencoding]; simp), decode_toValue]
    exact ⟨fun _ hchosen => absurd hchosen hrows, fun _ => hdecode⟩
  · rw [h, decode_toValue]
    exact ⟨fun _ hchosen => absurd hchosen hrows, fun _ => rfl⟩

/-! ## All layers -/

/-- A page with any of the layers. -/
def layered (floatText : UInt64 → String) (compact deltas guide : Bool) (page : Page) : Value :=
  let packed := if compact then encode floatText page else page.toValue
  let packed := if deltas then encodeDeltas floatText packed else packed
  if guide then withGuide packed else packed

/-- What the layers can emit of a page. -/
inductive Emitted (page : Page) : Value → Prop
  | plain : Emitted page page.toValue
  | rows : Emitted page (packRows page)
  | strings (v : Value) : Emitted page (packStrings v)
  | joins (j : Joins) (v : Value) : Emitted page (packJoins j v)

theorem emitted_encode (page : Page) : Emitted page (encode floatText page) := by
  rcases encode_cases floatText page with ⟨-, h⟩ | ⟨-, h | h⟩
  · rw [h]
    rcases factorStrings_cases floatText (packRows page) with h | h <;> rw [h]
    · exact .rows
    · exact .strings _
  · rw [h]
    rcases factorStrings_cases floatText page.toValue with h | h <;> rw [h]
    · exact .plain
    · exact .strings _
  · rw [h]
    exact .plain

theorem Emitted.encodeDeltas {page : Page} {v : Value} (h : Emitted page v) :
    Emitted page (encodeDeltas floatText v) := by
  rcases encodeDeltas_cases floatText v with heq | ⟨j, -, heq⟩ <;> rw [heq]
  · exact h
  · exact .joins j v

theorem Emitted.isObject {page : Page} {v : Value} (h : Emitted page v) : v.asObject?.isSome := by
  cases h with
  | rows => rw [packRows_eq]; rfl
  | _ => rfl

/-- Decoding does not see the guide. -/
theorem Emitted.decode_withGuide {page : Page} {v : Value} (h : Emitted page v) : decode (withGuide v) = decode v := by
  cases h with
  | plain => rfl
  | rows =>
    rw [withGuide]
    split
    · rfl
    · rw [decode_of_unwrap_none, decode_of_unwrap_none]
      · rw [packRows_eq]
        rfl
      · rw [unwrap, encodingOf_packRows]
        rfl
      · rw [packRows_eq]
        rfl
  | strings v =>
    rw [withGuide]
    split
    · rfl
    · rw [decode, decode]
      rfl
  | joins j v =>
    rw [withGuide]
    split
    · rfl
    · rw [decode, decode]
      rfl

theorem emitted_layered (page : Page) (compact deltas : Bool) :
    Emitted page (layered floatText compact deltas false page) := by
  have hcompact : Emitted page (if compact then encode floatText page else page.toValue) := by
    cases compact
    · exact .plain
    · exact emitted_encode page
  cases deltas
  · exact hcompact
  · exact hcompact.encodeDeltas

/-- The outer layers keep what the inner one keeps. -/
theorem decode_layered (page : Page) (compact deltas guide : Bool) :
    decode (layered floatText compact deltas guide page) =
      if compact then decode (encode floatText page) else .ok page.toValue := by
  have hguide : decode (layered floatText compact deltas guide page) =
      decode (layered floatText compact deltas false page) := by
    cases guide
    · rfl
    · exact (emitted_layered page compact deltas).decode_withGuide
  have hcompact : decode (if compact then encode floatText page else page.toValue) =
      if compact then decode (encode floatText page) else .ok page.toValue := by
    cases compact
    · exact decode_toValue page
    · rfl
  rw [hguide, ← hcompact]
  cases deltas
  · rfl
  · refine decode_encodeDeltas ?_
    cases compact
    · rfl
    · exact (emitted_encode page).isObject

theorem textLen_encode (page : Page) :
    textLen floatText (encode floatText page) ≤ textLen floatText page.toValue := by
  rw [encode]
  split
  · exact (textLen_factorStrings _).trans (textLen_shorter _ _)
  · exact Nat.le_refl _

theorem textLen_layered (page : Page) (compact deltas : Bool) :
    textLen floatText (layered floatText compact deltas false page) ≤ textLen floatText page.toValue := by
  have hcompact : textLen floatText (if compact then encode floatText page else page.toValue) ≤
      textLen floatText page.toValue := by
    cases compact
    · exact Nat.le_refl _
    · exact textLen_encode page
  cases deltas
  · exact hcompact
  · exact (textLen_encodeDeltas _).trans hcompact

/-- A page is kept by all combinations of layers, and none makes it longer. -/
structure PageKept (floatText : UInt64 → String) (page : Page) : Prop where
  decoded : ∀ compact deltas guide, decode (layered floatText compact deltas guide page) = .ok page.toValue
  length : ∀ compact deltas,
    textLen floatText (layered floatText compact deltas false page) ≤ textLen floatText page.toValue

/-- A page is kept unless it is written as rows in which some field that is `==` in all of them is not the same,
or as a row of a record without a line. -/
theorem pageKept_iff (floatText : UInt64 → String) {page : Page} (hwf : ∀ r ∈ page.records, r.event.WF) :
    PageKept floatText page ↔ (RowsChosen floatText page → RowsExact page) := by
  rw [← decode_encode_iff hwf]
  constructor
  · intro h
    have hdecoded := h.decoded true false false
    rw [decode_layered, if_pos rfl] at hdecoded
    exact hdecoded
  · intro h
    refine ⟨fun compact deltas guide => ?_, fun compact deltas => textLen_layered page compact deltas⟩
    rw [decode_layered]
    cases compact
    · rfl
    · exact h

/-! ## The sign of zero -/

/-- The texts of the two zeros. -/
def zeroText (bits : UInt64) : String := if bits = 0 then "0.0" else "-0.0"

/-- A record with a number. -/
def numberRecord (line : ℕ) (bits : UInt64) : Record := ⟨line, .object [("x", .number (.float bits))]⟩

/-- Records that hold zero, the last one with a sign. -/
def zeros : Page where
  sessionId := "s"
  source := .codex
  sourcePath := "s.jsonl"
  view := .events
  offset := 0
  nextOffset := none
  records := [numberRecord 1 0, numberRecord 2 0, numberRecord 3 0, numberRecord 4 0, numberRecord 5 0,
    numberRecord 6 0, numberRecord 7 0, numberRecord 8 0x8000000000000000]
  warnings := []

theorem wf_zeros : ∀ r ∈ zeros.records, r.event.WF := by
  have hnumber : ∀ line bits, (numberRecord line bits).event.WF := fun line bits => by
    simp [numberRecord, Assoc.Ascending]
  simp [zeros, hnumber]

/-- When these records are kept. -/
theorem pageKept_zeros : PageKept zeroText zeros ↔ (RowsChosen zeroText zeros → RowsExact zeros) :=
  pageKept_iff zeroText wf_zeros

theorem rowsChosen_zeros : RowsChosen zeroText zeros := by
  refine ⟨by decide, ?_⟩
  rw [textLen, textLen, Value.utf8ByteSize_toText, Value.utf8ByteSize_toText]
  decide +kernel

/-- The sign of the last zero is lost. -/
theorem sign_lost : ¬PageKept zeroText zeros := by
  intro h
  have hdecoded := h.decoded true false false
  rw [decode_layered, if_pos rfl, decode_encode_iff wf_zeros] at hdecoded
  have hshared := (hdecoded rowsChosen_zeros).2 7 (by decide) "x" (by decide) (by decide +kernel)
  exact absurd hshared (by decide +kernel)

end Innen.Conversation
