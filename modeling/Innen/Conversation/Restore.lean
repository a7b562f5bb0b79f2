import Innen.Conversation.Attachments

/-!
# Restoring attachments

Walking over a page takes out the slots of its payloads, and what is listed for a slot finds its string in the source
again. So putting the listed strings back undoes `externalize`, as far as the encoding around it can be undone.
-/

namespace Innen.Conversation

open Innen.Common

variable {sha : String → String} {floatText : UInt64 → String} {fetch : ℕ → Page}

/-! ## Walking takes out slots -/

/-- Whether the string at a path is left out. -/
def isPayload (encrypted : Bool) (path : List String) (text : String) : Bool :=
  (payloadKind encrypted (pointerText path) text).isSome

variable (sha) in
/-- What is listed for a string at a path. -/
def refTo (encrypted : Bool) (record line : ℕ) (path : List String) (text : String) : Reference :=
  ⟨record, line, pointerText path, (payloadKind encrypted (pointerText path) text).getD "", text.utf8ByteSize,
    sha text⟩

theorem pointerText_item (path : List String) (i : ℕ) :
    pointerText path ++ "/" ++ toString i = pointerText (path ++ [toString i]) := by
  rw [pointerText_concat, escapeToken_toString]

section

variable {encrypted : Bool} {record line : ℕ}

theorem walkItems_eq {items : List Value} {path : List String}
    (h : ∀ v ∈ items, ∀ path refs, walk sha encrypted record line v (pointerText path) refs =
      (v.vacate (isPayload encrypted) marker path refs.length,
        refs ++ (v.slots (isPayload encrypted) path).map fun e => refTo sha encrypted record line (path ++ e.1) e.2))
    (i : ℕ) (refs : List Reference) :
    walkItems sha encrypted record line items (pointerText path) i refs =
      (Value.vacateItems (isPayload encrypted) marker items path i refs.length,
        refs ++ (Value.itemSlots (isPayload encrypted) items path i).map fun e =>
          refTo sha encrypted record line (path ++ e.1) e.2) := by
  induction items generalizing i refs with
  | nil => rw [walkItems, Value.vacateItems, Value.itemSlots, List.map_nil, List.append_nil]
  | cons v rest ih =>
    have hrest := ih fun w hw => h w (List.mem_cons_of_mem _ hw)
    simp only [walkItems, Value.vacateItems, Value.itemSlots, pointerText_item, h v List.mem_cons_self, hrest,
      List.map_append, List.map_map, Function.comp_def, List.append_assoc, List.singleton_append,
      List.length_append, List.length_map]

theorem walkFields_eq {fields : Fields} {path : List String}
    (h : ∀ e ∈ fields, ∀ path refs, walk sha encrypted record line e.2 (pointerText path) refs =
      (e.2.vacate (isPayload encrypted) marker path refs.length,
        refs ++ (e.2.slots (isPayload encrypted) path).map fun e => refTo sha encrypted record line (path ++ e.1) e.2))
    (refs : List Reference) :
    walkFields sha encrypted record line fields (pointerText path) refs =
      (Value.vacateFields (isPayload encrypted) marker fields path refs.length,
        refs ++ (Value.fieldSlots (isPayload encrypted) fields path).map fun e =>
          refTo sha encrypted record line (path ++ e.1) e.2) := by
  induction fields generalizing refs with
  | nil => rw [walkFields, Value.vacateFields, Value.fieldSlots, List.map_nil, List.append_nil]
  | cons e rest ih =>
    obtain ⟨key, v⟩ := e
    have hfirst := h (key, v) List.mem_cons_self
    have hrest := ih fun w hw => h w (List.mem_cons_of_mem _ hw)
    simp only [walkFields, Value.vacateFields, Value.fieldSlots, ← pointerText_concat, hfirst, hrest,
      List.map_append, List.map_map, Function.comp_def, List.append_assoc, List.singleton_append,
      List.length_append, List.length_map]

variable (sha encrypted record line) in
/-- `walk` vacates the slots of the payloads and lists them. -/
theorem walk_eq (v : Value) (path : List String) (refs : List Reference) :
    walk sha encrypted record line v (pointerText path) refs =
      (v.vacate (isPayload encrypted) marker path refs.length,
        refs ++ (v.slots (isPayload encrypted) path).map fun e =>
          refTo sha encrypted record line (path ++ e.1) e.2) := by
  induction v using Value.induct generalizing path refs with
  | string s =>
    rw [walk, Value.vacate, Value.slots, isPayload]
    cases hkind : payloadKind encrypted (pointerText path) s with
    | none => exact Prod.ext rfl (List.append_nil _).symm
    | some kind =>
      simp only [Option.isSome_some, if_true, List.map_singleton, refTo, List.append_nil, hkind, Option.getD_some]
  | array items ih => simp only [walk, Value.vacate, Value.slots, walkItems_eq ih]
  | object fields ih => simp only [walk, Value.vacate, Value.slots, walkFields_eq ih]
  | _ => rw [walk, Value.vacate, Value.slots, List.map_nil, List.append_nil] <;> simp

end

/-! ## The records of a page -/

/-- A page with other records. -/
def Page.setRecords (page : Page) (records : List Record) : Page := { page with records := records }

theorem Page.toValue_setRecords (page : Page) (records : List Record) :
    (page.setRecords records).toValue =
      .object ([("next_offset", .optional .nat page.nextOffset), ("offset", .nat page.offset)] ++
        ("records", .array (records.map Record.toValue)) ::
        [("session_id", .string page.sessionId), ("source", .string page.source.asStr),
          ("source_path", .string page.sourcePath), ("view", .string page.view.asStr),
          ("warnings", .strings page.warnings)]) := rfl

/-- The slots of an event. -/
def eventSlots (source : Source) (event : Value) : List Slot := event.slots (isPayload (isEncrypted source event)) []

/-- The slots of numbered records. -/
def recordSlots (source : Source) (rs : List (Record × ℕ)) : List ((Record × ℕ) × Slot) :=
  rs.flatMap fun r => (eventSlots source r.1.event).map fun e => (r, e)

/-- Records without their payloads, the markers numbered on from a number. -/
def vacated (source : Source) : List (Record × ℕ) → ℕ → List Record
  | [], _ => []
  | r :: rest, n =>
    ⟨r.1.line, r.1.event.vacate (isPayload (isEncrypted source r.1.event)) marker [] n⟩ ::
      vacated source rest (n + (eventSlots source r.1.event).length)

variable (sha) in
/-- What is listed for a slot of a record. -/
def refOf (source : Source) (x : (Record × ℕ) × Slot) : Reference :=
  refTo sha (isEncrypted source x.1.1.event) x.1.2 x.1.1.line x.2.1 x.2.2

/-- A slot of a record as one of the page. -/
def pageSlot (x : (Record × ℕ) × Slot) : Slot := (["records", toString x.1.2, "event"] ++ x.2.1, x.2.2)

theorem foldl_walkRecord (source : Source) (rs : List (Record × ℕ)) (s : List Record × List Reference) :
    rs.foldl (walkRecord sha source) s =
      (s.1 ++ vacated source rs s.2.length, s.2 ++ (recordSlots source rs).map (refOf sha source)) := by
  induction rs generalizing s with
  | nil => exact Prod.ext (List.append_nil _).symm (List.append_nil _).symm
  | cons r rest ih =>
    have hwalk := walk_eq sha (isEncrypted source r.1.event) r.2 r.1.line r.1.event [] s.2
    rw [pointerText_nil] at hwalk
    have hslots : recordSlots source (r :: rest) =
        ((eventSlots source r.1.event).map fun e => (r, e)) ++ recordSlots source rest := rfl
    rw [List.foldl_cons, ih, hslots, List.map_append, List.map_map, vacated]
    simp only [walkRecord, hwalk, List.append_assoc, List.singleton_append, List.length_append, List.length_map,
      List.nil_append]
    rfl

theorem references_eq (sha : String → String) (page : Page) :
    references sha page = (recordSlots page.source page.records.zipIdx).map (refOf sha page.source) := by
  rw [references, walkRecords, foldl_walkRecord]
  rfl

theorem withoutPayloads_eq (sha : String → String) (page : Page) :
    withoutPayloads sha page = page.setRecords (vacated page.source page.records.zipIdx 0) := by
  rw [withoutPayloads, walkRecords, foldl_walkRecord]
  rfl

/-- The event of a record of a page. -/
theorem focus_event (page : Page) (line : ℕ) (done rest : List Record) :
    Value.Focus ["records", toString done.length, "event"] fun w =>
      (page.setRecords (done ++ ⟨line, w⟩ :: rest)).toValue := by
  have hrecords : "records" ∉ Assoc.keys [("next_offset", Value.optional .nat page.nextOffset),
      ("offset", .nat page.offset)] := by
    simp [Assoc.keys]
  have hpage := Value.focus_field hrecords
    [("session_id", .string page.sessionId), ("source", .string page.source.asStr),
      ("source_path", .string page.sourcePath), ("view", .string page.view.asStr), ("warnings", .strings page.warnings)]
  have hitem := Value.focus_item (done.map Record.toValue) (rest.map Record.toValue)
  rw [List.length_map] at hitem
  have hkey : "event" ∉ Assoc.keys ([] : Fields) := List.not_mem_nil
  have hevent := Value.focus_field hkey [("line", .nat line)]
  have hfocus := (hpage.comp hitem).comp hevent
  simp only [Page.toValue_setRecords, List.map_append, List.map_cons]
  exact hfocus

/-- Filling the slots of all records gives the page back. -/
theorem fill_vacated (page : Page) (records done : List Record) (hwf : ∀ r ∈ records, r.event.WF) (n : ℕ) :
    Value.fill marker n ((recordSlots page.source (records.zipIdx done.length)).map pageSlot)
      (page.setRecords (done ++ vacated page.source (records.zipIdx done.length) n)).toValue =
      some (page.setRecords (done ++ records)).toValue := by
  induction records generalizing done n with
  | nil => rfl
  | cons r rest ih =>
    have hevent := Value.fill_focus marker
      (focus_event page r.line done (vacated page.source (rest.zipIdx (done.length + 1))
        (n + (eventSlots page.source r.event).length))) n (eventSlots page.source r.event)
      (r.event.vacate (isPayload (isEncrypted page.source r.event)) marker [] n)
    have hfill : Value.fill marker n (eventSlots page.source r.event)
        (r.event.vacate (isPayload (isEncrypted page.source r.event)) marker [] n) = some r.event :=
      Value.fill_vacate r.event (hwf r List.mem_cons_self) [] n
    rw [hfill] at hevent
    have hrest := ih (done ++ [r]) (fun r hr => hwf r (List.mem_cons_of_mem _ hr))
      (n + (eventSlots page.source r.event).length)
    rw [List.length_append, List.length_singleton, List.append_assoc, List.append_assoc, List.singleton_append,
      List.singleton_append] at hrest
    rw [List.zipIdx_cons, recordSlots, List.flatMap_cons, vacated, List.map_append, List.map_map, Value.fill_append,
      List.length_map]
    exact (congrArg (Option.bind · _) hevent).trans hrest

/-! ## The strings of the slots are found -/

/-- What is relied on of a hash: it is written as 64 lower-case hexadecimal digits. -/
def HexDigests (sha : String → String) : Prop :=
  ∀ s, (sha s).utf8ByteSize = 64 ∧ ∀ c ∈ (sha s).toList, c ∈ "0123456789abcdef".toList

/-- The source still has the records of a page: reading one at a time finds each of them. -/
def Retained (fetch : ℕ → Page) (page : Page) : Prop :=
  ∀ r ∈ page.records, (fetch (r.line - 1)).view = .events ∧ (fetch (r.line - 1)).records = [r]

theorem HexDigests.all_isHexDigit (h : HexDigests sha) (s : String) : (sha s).toList.all isHexDigit = true := by
  have hdigits : ∀ c ∈ "0123456789abcdef".toList, isHexDigit c = true := List.all_eq_true.mp (by decide)
  exact List.all_eq_true.mpr fun c hc => hdigits c ((h s).2 c hc)

theorem HexDigests.asciiLower_eq (h : HexDigests sha) (s : String) : asciiLower (sha s) = sha s := by
  have hdigits : ∀ c ∈ "0123456789abcdef".toList, (c.toLower == c) = true := List.all_eq_true.mp (by decide)
  have hmap : (sha s).toList.map Char.toLower = (sha s).toList :=
    (List.map_congr_left fun c hc => eq_of_beq (hdigits c ((h s).2 c hc))).trans (List.map_id _)
  rw [asciiLower, hmap, String.ofList_toList]

/-- `resolve` finds the string at a path whose hash it is asked for. -/
theorem resolve_of_at? (hsha : HexDigests sha) {page : Page} {r : Record} (hview : page.view = .events)
    (hrecords : page.records = [r]) (hline : 0 < r.line) {key : String} {path : List String} {text : String}
    (hat : r.event.at? (key :: path) = some (.string text)) :
    resolve sha page (r.line - 1) (pointerText (key :: path)) (sha text) =
      .ok (.object [("bytes", .nat text.utf8ByteSize), ("line", .nat r.line),
        ("pointer", .string (pointerText (key :: path))), ("sha256", .string (sha text)), ("value", .string text)]) := by
  have hslash : startsWith (pointerText (key :: path)) "/" = true := by
    have hs : "/".toList = ['/'] := rfl
    rw [startsWith, toList_pointerText_cons, hs]
    rfl
  rw [resolve, if_neg (by simp [(hsha text).1, hsha.all_isHexDigit text]), hrecords]
  simp only [hslash, hview, Value.pointer_pointerText, hat, Option.bind_some, Value.asStr?_string]
  rw [if_neg (by simp), if_neg (by omega), if_neg (by simp)]

/-- Whatever `resolve` returns has the hash that it is asked for. -/
theorem resolve_value (hsha : HexDigests sha) {text : String} (hinj : ∀ s, sha s = sha text → s = text) {page : Page}
    {offset : ℕ} {pointer : String} {answer : Value} (h : resolve sha page offset pointer (sha text) = .ok answer) :
    answer.index "value" = .string text := by
  rw [resolve] at h
  split at h
  · cases h
  · split at h
    · rename_i record _
      split at h
      · cases h
      · split at h
        · cases h
        · split at h
          · cases h
          · rename_i found _
            split at h
            · cases h
            · rename_i hsame
              obtain rfl := Except.ok.inj h
              rw [not_not, hsha.asciiLower_eq, hsha.asciiLower_eq] at hsame
              rw [hinj found hsame]
              rfl
    · cases h

/-! ## Putting the strings back -/

theorem mem_recordSlots {source : Source} {rs : List (Record × ℕ)} {x : (Record × ℕ) × Slot} :
    x ∈ recordSlots source rs ↔ x.1 ∈ rs ∧ x.2 ∈ eventSlots source x.1.1.event := by
  rw [recordSlots, List.mem_flatMap]
  constructor
  · rintro ⟨r, hr, hx⟩
    obtain ⟨e, he, rfl⟩ := List.mem_map.mp hx
    exact ⟨hr, he⟩
  · rintro ⟨hr, he⟩
    exact ⟨x.1, hr, List.mem_map.mpr ⟨x.2, he, rfl⟩⟩

/-- A slot of an object has a path that is not empty, and its string is there. -/
theorem at?_eventSlot {source : Source} {event : Value} (hwf : event.WF) (hobject : event.asObject?.isSome) {e : Slot}
    (h : e ∈ eventSlots source event) : ∃ key path, e.1 = key :: path ∧ event.at? (key :: path) = some (.string e.2) := by
  have hat := (Value.at?_slot hwf h).1
  obtain ⟨path, text⟩ := e
  cases path with
  | nil =>
    obtain rfl := Option.some.inj hat
    cases hobject
  | cons key path => exact ⟨key, path, rfl, hat⟩

/-- Putting one string back fills its slot. -/
theorem putBack_eq (hsha : HexDigests sha) {page : Page} (hfetch : Retained fetch page)
    (hwf : ∀ r ∈ page.records, r.event.WF) (hobject : ∀ r ∈ page.records, r.event.asObject?.isSome)
    (hline : ∀ r ∈ page.records, 0 < r.line) {x : (Record × ℕ) × Slot}
    (hx : x ∈ recordSlots page.source page.records.zipIdx) (w : Value) (k : ℕ) :
    putBack sha fetch w ((refOf sha page.source x).toValue, k) =
      Value.update (Value.exchange (marker k) (.string (pageSlot x).2)) (pageSlot x).1 w := by
  obtain ⟨hr, he⟩ := mem_recordSlots.mp hx
  have hmem : x.1.1 ∈ page.records := List.fst_mem_of_mem_zipIdx hr
  obtain ⟨key, path, hpath, hat⟩ := at?_eventSlot (hwf _ hmem) (hobject _ hmem) he
  obtain ⟨hview, hrecords⟩ := hfetch _ hmem
  have hresolve := resolve_of_at? hsha hview hrecords (hline _ hmem) hat
  have hput : putBack sha fetch w ((refOf sha page.source x).toValue, k) =
      (resolve sha (fetch (x.1.1.line - 1)) (x.1.1.line - 1) (pointerText x.2.1) (sha x.2.2)).toOption.bind fun answer =>
        (pointerTokens (pointerText x.2.1)).bind fun path =>
          Value.update (Value.exchange (marker k) (answer.index "value"))
            (["records", toString x.1.2, "event"] ++ path) w := rfl
  rw [hput, hpath, hresolve, pointerTokens_pointerText, pageSlot, hpath]
  rfl

theorem foldlM_putBack (hsha : HexDigests sha) {page : Page} (hfetch : Retained fetch page)
    (hwf : ∀ r ∈ page.records, r.event.WF) (hobject : ∀ r ∈ page.records, r.event.asObject?.isSome)
    (hline : ∀ r ∈ page.records, 0 < r.line) {xs : List ((Record × ℕ) × Slot)}
    (hxs : ∀ x ∈ xs, x ∈ recordSlots page.source page.records.zipIdx) (w : Value) (n : ℕ) :
    (((xs.map (refOf sha page.source)).map Reference.toValue).zipIdx n).foldlM (putBack sha fetch) w =
      Value.fill marker n (xs.map pageSlot) w := by
  induction xs generalizing w n with
  | nil => rfl
  | cons x rest ih =>
    rw [List.map_cons, List.map_cons, List.zipIdx_cons, List.foldlM_cons, List.map_cons, Value.fill,
      putBack_eq hsha hfetch hwf hobject hline (hxs x List.mem_cons_self)]
    exact Option.bind_congr fun w' _ => ih (fun y hy => hxs y (List.mem_cons_of_mem _ hy)) w' (n + 1)

/-! ## Pages with references -/

theorem Emitted.encodingOf_ne {page : Page} {v : Value} (h : Emitted page v) :
    encodingOf v ≠ some "innen.attachments.v1" := by
  cases h with
  | rows =>
    rw [encodingOf_packRows]
    decide
  | plain =>
    have hnone : encodingOf page.toValue = none := rfl
    rw [hnone]
    exact (Option.some_ne_none _).symm
  | _ =>
    intro h
    exact absurd (Option.some.inj h) (by decide)

theorem emitted_asValue (useCompact : Bool) (page : Page) : Emitted page (asValue floatText useCompact page) := by
  cases useCompact
  · exact .plain
  · exact emitted_encode page

variable (sha floatText) in
/-- The page that is written: without its payloads, unless there are none or the references make it longer. -/
def writtenPage (page : Page) (useCompact : Bool) : Page :=
  if references sha page ≠ [] ∧ textLen floatText (packedPage sha floatText useCompact page) <
      textLen floatText (asValue floatText useCompact page) then withoutPayloads sha page
  else page

/-- When the encoding around a page is exact. -/
theorem decode_asValue_iff {page : Page} (hwf : ∀ r ∈ page.records, r.event.WF) (hline : ∀ r ∈ page.records, 0 < r.line)
    (useCompact : Bool) : decode (asValue floatText useCompact page) = .ok page.toValue ↔
      (useCompact = true → RowsChosen floatText page → SharedExact page.records) := by
  cases useCompact with
  | false =>
    simp only [Bool.false_eq_true, false_implies, iff_true]
    exact decode_toValue page
  | true =>
    rw [asValue, if_pos rfl, decode_encode_iff hwf]
    exact ⟨fun h _ hrows => (h hrows).2, fun h hrows => ⟨hline, h rfl hrows⟩⟩

theorem mem_vacated {source : Source} {rs : List (Record × ℕ)} {n : ℕ} {r' : Record} (h : r' ∈ vacated source rs n) :
    ∃ r ∈ rs, ∃ n', r' =
      ⟨r.1.line, r.1.event.vacate (isPayload (isEncrypted source r.1.event)) marker [] n'⟩ := by
  induction rs generalizing n with
  | nil => cases h
  | cons r rest ih =>
    rcases List.mem_cons.mp h with rfl | h
    · exact ⟨r, List.mem_cons_self, n, rfl⟩
    · obtain ⟨r₀, hr₀, n', heq⟩ := ih h
      exact ⟨r₀, List.mem_cons_of_mem _ hr₀, n', heq⟩

theorem getElem?_vacated (source : Source) (records : List Record) (k n i : ℕ) :
    ∃ n', (vacated source (records.zipIdx k) n)[i]? = records[i]?.map fun r =>
      ⟨r.line, r.event.vacate (isPayload (isEncrypted source r.event)) marker [] n'⟩ := by
  induction records generalizing k n i with
  | nil => exact ⟨0, rfl⟩
  | cons r rest ih =>
    cases i with
    | zero => exact ⟨n, rfl⟩
    | succ i => exact ih (k + 1) _ i

variable (sha) in
/-- The records without payloads are as well formed as the others. -/
theorem withoutPayloads_records {page : Page} (hwf : ∀ r ∈ page.records, r.event.WF)
    (hline : ∀ r ∈ page.records, 0 < r.line) :
    (∀ r ∈ (withoutPayloads sha page).records, r.event.WF) ∧ ∀ r ∈ (withoutPayloads sha page).records, 0 < r.line := by
  have hmem : ∀ r' ∈ (withoutPayloads sha page).records, r'.event.WF ∧ 0 < r'.line := by
    intro r' hr'
    rw [withoutPayloads_eq] at hr'
    obtain ⟨r, hr, n', rfl⟩ := mem_vacated hr'
    have hrecord := List.fst_mem_of_mem_zipIdx hr
    exact ⟨Value.wf_vacate (fun n => by simp [marker, Value.nat, Assoc.Ascending]) (hwf _ hrecord) [] n',
      hline r.1 hrecord⟩
  exact ⟨fun r hr => (hmem r hr).1, fun r hr => (hmem r hr).2⟩

/-- Restoring a page with references gives a page back iff the encoding inside is exact. -/
theorem restore_packedPage_iff (hsha : HexDigests sha) {page : Page} (hfetch : Retained fetch page)
    (hwf : ∀ r ∈ page.records, r.event.WF) (hobject : ∀ r ∈ page.records, r.event.asObject?.isSome)
    (hline : ∀ r ∈ page.records, 0 < r.line) (useCompact : Bool) :
    restore sha fetch (packedPage sha floatText useCompact page) = some page.toValue ↔
      decode (asValue floatText useCompact (withoutPayloads sha page)) = .ok (withoutPayloads sha page).toValue := by
  have hfold : ∀ w : Value, ((references sha page).map Reference.toValue).zipIdx.foldlM (putBack sha fetch) w =
      Value.fill marker 0 ((recordSlots page.source page.records.zipIdx).map pageSlot) w := fun w => by
    rw [references_eq]
    exact foldlM_putBack hsha hfetch hwf hobject hline (fun _ hx => hx) w 0
  have hrestore : restore sha fetch (packedPage sha floatText useCompact page) =
      (decode (asValue floatText useCompact (withoutPayloads sha page))).toOption.bind
        fun inner => ((references sha page).map Reference.toValue).zipIdx.foldlM (putBack sha fetch) inner := rfl
  have hfill : Value.fill marker 0 ((recordSlots page.source page.records.zipIdx).map pageSlot)
      (withoutPayloads sha page).toValue = some page.toValue := by
    rw [withoutPayloads_eq]
    exact fill_vacated page page.records [] hwf 0
  rw [hrestore]
  cases hdecode : decode (asValue floatText useCompact (withoutPayloads sha page)) with
  | error e => exact ⟨fun h => (by cases h), fun h => (by cases h)⟩
  | ok inner =>
    refine Iff.trans (b := Value.fill marker 0 ((recordSlots page.source page.records.zipIdx).map pageSlot) inner =
      some page.toValue) (by rw [← hfold]; rfl) ?_
    rw [Except.ok.injEq]
    constructor
    · intro h
      exact Value.fill_injective _ _ h hfill
    · rintro rfl
      exact hfill

/-- What leaving out attachments promises: the page can be restored, values that only look like a reference are left
alone, and a hash finds no other string than the one it was taken of. -/
structure Externalized (sha : String → String) (floatText : UInt64 → String) (fetch : ℕ → Page) (page : Page)
    (useCompact : Bool) : Prop where
  restored : ∃ v, externalize sha floatText page useCompact = .ok v ∧ restore sha fetch v = some page.toValue
  literal : ∀ i r path n, page.records[i]? = some r → r.event.at? path = some (marker n) →
    (writtenPage sha floatText page useCompact).records[i]?.bind (fun r => r.event.at? path) = some (marker n) ∧
      ∀ ref ∈ references sha page, ref.record = i → ref.pointer ≠ pointerText path
  resolved : ∀ text, (∀ s, sha s = sha text → s = text) → ∀ row offset pointer answer,
    resolve sha row offset pointer (sha text) = .ok answer → answer.index "value" = .string text

/-- A value that looks like a reference stays, and no reference points at it. -/
theorem literal_kept {page : Page} (hwf : ∀ r ∈ page.records, r.event.WF) (useCompact : Bool) {i : ℕ} {r : Record}
    {path : List String} {n : ℕ} (hr : page.records[i]? = some r) (hat : r.event.at? path = some (marker n)) :
    (writtenPage sha floatText page useCompact).records[i]?.bind (fun r => r.event.at? path) = some (marker n) ∧
      ∀ ref ∈ references sha page, ref.record = i → ref.pointer ≠ pointerText path := by
  refine ⟨?_, fun ref href hrecord hpointer => ?_⟩
  · rw [writtenPage]
    split
    · rw [withoutPayloads_eq]
      obtain ⟨n', hn'⟩ := getElem?_vacated page.source page.records 0 0 i
      obtain ⟨path', k, hvacate⟩ := Value.at?_vacate (P := isPayload (isEncrypted page.source r.event)) hat [] n'
      refine (congrArg (Option.bind · _) hn').trans ?_
      rw [hr, Option.map_some, Option.bind_some]
      exact hvacate
    · rw [hr]
      exact hat
  · rw [references_eq] at href
    obtain ⟨x, hx, rfl⟩ := List.mem_map.mp href
    obtain ⟨hmem, he⟩ := mem_recordSlots.mp hx
    have hsame : page.records[x.1.2]? = some x.1.1 := mem_zipIdx_iff.mp hmem
    have hindex : x.1.2 = i := hrecord
    rw [hindex, hr, Option.some.injEq] at hsame
    have hpath : x.2.1 = path := pointerText_injective hpointer
    have hslot := (Value.at?_slot (hwf _ (List.fst_mem_of_mem_zipIdx hmem)) he).1
    rw [← hsame, hpath, hat] at hslot
    cases hslot

/-- A page keeps its attachments unless the page that is written is compact and its rows take fields for the same that
are only `==`. -/
theorem externalized_iff (hsha : HexDigests sha) (floatText : UInt64 → String) {page : Page}
    (hview : page.view = .events) (hfetch : Retained fetch page) (hwf : ∀ r ∈ page.records, r.event.WF)
    (hobject : ∀ r ∈ page.records, r.event.asObject?.isSome) (hline : ∀ r ∈ page.records, 0 < r.line)
    (useCompact : Bool) :
    Externalized sha floatText fetch page useCompact ↔
      (useCompact = true → RowsChosen floatText (writtenPage sha floatText page useCompact) →
        SharedExact (writtenPage sha floatText page useCompact).records) := by
  have hplain : restore sha fetch (asValue floatText useCompact page) = some page.toValue ↔
      decode (asValue floatText useCompact page) = .ok page.toValue := by
    rw [restore, if_neg (emitted_asValue useCompact page).encodingOf_ne]
    cases decode (asValue floatText useCompact page) with
    | error e => exact ⟨fun h => (by cases h), fun h => (by cases h)⟩
    | ok v => exact ⟨fun h => congrArg Except.ok (Option.some.inj h), fun h => congrArg some (Except.ok.inj h)⟩
  have hrestored : (∃ v, externalize sha floatText page useCompact = .ok v ∧ restore sha fetch v = some page.toValue) ↔
      (useCompact = true → RowsChosen floatText (writtenPage sha floatText page useCompact) →
        SharedExact (writtenPage sha floatText page useCompact).records) := by
    simp only [externalize, if_neg (not_not_intro hview), writtenPage, shorter]
    by_cases hrefs : references sha page = []
    · rw [if_pos hrefs, if_neg fun h => h.1 hrefs]
      simp only [Except.ok.injEq, exists_eq_left']
      exact hplain.trans (decode_asValue_iff hwf hline useCompact)
    · rw [if_neg hrefs]
      by_cases hlen : textLen floatText (packedPage sha floatText useCompact page) <
          textLen floatText (asValue floatText useCompact page)
      · rw [if_pos hlen, if_pos ⟨hrefs, hlen⟩]
        simp only [Except.ok.injEq, exists_eq_left']
        obtain ⟨hwf', hline'⟩ := withoutPayloads_records sha hwf hline
        exact (restore_packedPage_iff hsha hfetch hwf hobject hline useCompact).trans
          (decode_asValue_iff hwf' hline' useCompact)
      · rw [if_neg hlen, if_neg fun h => hlen h.2]
        simp only [Except.ok.injEq, exists_eq_left']
        exact hplain.trans (decode_asValue_iff hwf hline useCompact)
  refine ⟨fun h => hrestored.mp h.restored, fun h => ⟨hrestored.mpr h, ?_, ?_⟩⟩
  · intro i r path n hr hat
    exact literal_kept hwf useCompact hr hat
  · intro text hinj row offset pointer answer hanswer
    exact resolve_value hsha hinj hanswer

/-! ## Zeros next to an image -/

/-- A small image. -/
def image : String := "data:image/png;base64,YWJj"

/-- A hash that is right about the image. -/
def imageSha (s : String) : String :=
  if s = image then "763b16475bf5f6c9bd2c79335ec790cd368103c61e6f4f21db6d1125d27a57d3"
  else "0000000000000000000000000000000000000000000000000000000000000000"

/-- Records that hold zero, the last one with a sign, and an image. -/
def imagePage : Page := zeros.setRecords (zeros.records ++ [⟨9, .object [("image", .string image)]⟩])

/-- The source of these records. -/
def imageSource (offset : ℕ) : Page := imagePage.setRecords (imagePage.records.filter fun r => r.line = offset + 1)

theorem hexDigests_imageSha : HexDigests imageSha := by
  intro s
  have hdigits : ∀ {t : String}, (t.toList.all fun c => "0123456789abcdef".toList.contains c) = true →
      ∀ c ∈ t.toList, c ∈ "0123456789abcdef".toList :=
    fun h c hc => List.contains_iff_mem.mp (List.all_eq_true.mp h c hc)
  rw [imageSha]
  split <;> exact ⟨by decide, hdigits (by decide)⟩

theorem wf_imagePage : ∀ r ∈ imagePage.records, r.event.WF := by
  have himage : (Value.object [("image", .string image)]).WF := by simp [Assoc.Ascending]
  intro r hr
  rcases List.mem_append.mp hr with hr | hr
  · exact wf_zeros r hr
  · obtain rfl := List.mem_singleton.mp hr
    exact himage

theorem retained_imagePage : Retained imageSource imagePage := by
  have hall : ∀ r ∈ imagePage.records, (imagePage.records.filter fun r' => r'.line = r.line - 1 + 1) = [r] := by
    decide +kernel
  exact fun r hr => ⟨rfl, hall r hr⟩

/-- When the image and the zeros are kept. -/
theorem externalized_imagePage : Externalized imageSha zeroText imageSource imagePage true ↔
    (true = true → RowsChosen zeroText (writtenPage imageSha zeroText imagePage true) →
      SharedExact (writtenPage imageSha zeroText imagePage true).records) :=
  externalized_iff hexDigests_imageSha zeroText rfl retained_imagePage wf_imagePage (by decide) (by decide) true

theorem rowsChosen_imagePage : RowsChosen zeroText imagePage := by
  refine ⟨by decide, ?_⟩
  rw [textLen, textLen, Value.utf8ByteSize_toText, Value.utf8ByteSize_toText]
  decide +kernel

/-- The references would make this page longer, and the sign of the last zero is lost. -/
theorem image_sign_lost : ¬Externalized imageSha zeroText imageSource imagePage true := by
  intro h
  obtain ⟨v, hv, hrestore⟩ := h.restored
  have hlen : ¬textLen zeroText (packedPage imageSha zeroText true imagePage) <
      textLen zeroText (asValue zeroText true imagePage) := by
    rw [textLen, textLen, Value.utf8ByteSize_toText, Value.utf8ByteSize_toText]
    decide +kernel
  have hv' : externalize imageSha zeroText imagePage true = .ok (asValue zeroText true imagePage) := by
    have hrefs : references imageSha imagePage ≠ [] := by decide +kernel
    rw [externalize, if_neg (by decide)]
    simp only [if_neg hrefs, shorter, if_neg hlen]
  rw [hv'] at hv
  obtain rfl := Except.ok.inj hv
  rw [restore, if_neg (emitted_asValue true imagePage).encodingOf_ne] at hrestore
  cases hdecode : decode (asValue zeroText true imagePage) with
  | error e =>
    rw [hdecode] at hrestore
    cases hrestore
  | ok w =>
    rw [hdecode] at hrestore
    obtain rfl := Option.some.inj hrestore
    have hexact := (decode_asValue_iff wf_imagePage (by decide) true).mp hdecode rfl rowsChosen_imagePage
    have hshared := hexact 7 (by decide) "x" (by decide) (by decide +kernel)
    exact absurd hshared (by decide +kernel)

end Innen.Conversation
