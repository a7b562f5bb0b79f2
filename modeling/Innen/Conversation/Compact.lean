import Innen.Common.Except
import Innen.Conversation.Page
import Innen.Json.Markers
import Mathlib.Data.List.Lex

/-!
# Compact pages

A page may be written as rows that share the fields their layout has in common, and repeated long strings may
be moved to a table. Each layer is used only where it makes the text shorter. Decoding takes the layers off
again, those of `deltas` included.
-/

namespace Innen.Conversation

open Innen.Common

/-! ## The JSON of a page -/

/-- A record as JSON. -/
def Record.toValue (r : Record) : Value := .object [("event", r.event), ("line", .nat r.line)]

/-- A page as JSON, its fields in the order of the map. -/
def Page.toValue (p : Page) : Value :=
  .object [("next_offset", .optional .nat p.nextOffset), ("offset", .nat p.offset),
    ("records", .array (p.records.map Record.toValue)), ("session_id", .string p.sessionId),
    ("source", .string p.source.asStr), ("source_path", .string p.sourcePath), ("view", .string p.view.asStr),
    ("warnings", .strings p.warnings)]

/-- The `encoding` of a value. -/
def encodingOf (v : Value) : Option String := (v.index "encoding").asStr?

/-! ## Rows -/

/-- The keys of an event. -/
def eventKeys (event : Value) : List String := Assoc.keys (event.asObject?.getD [])

/-- The event of a record. -/
def eventAt (records : List Record) (i : ℕ) : Value := (records[i]?.map Record.event).getD .null

/-- The records by the keys of their events. -/
def groups (records : List Record) : SortedMap (List String) (List ℕ) :=
  SortedMap.groupBy (fun r : Record × ℕ => eventKeys r.1.event) (fun r => r.2) records.zipIdx

/-- The fields that a group of rows lists, and those that are the same in all of them. -/
structure Layout where
  fields : List String
  shared : Fields
deriving DecidableEq

/-- Whether a field is the same in all events, by the library's `==`. -/
def isShared (records : List Record) (indices : List ℕ) (key : String) : Bool :=
  indices.all fun i => ((eventAt records i).index key).beq ((eventAt records (indices.headD 0)).index key)

/-- The layout of a group. -/
def layoutOf (records : List Record) (keys : List String) (indices : List ℕ) : Layout where
  fields := keys.filter fun key => !isShared records indices key
  shared := Assoc.insertAll ((keys.filter (isShared records indices)).map fun key =>
    (key, (eventAt records (indices.headD 0)).index key)) []

/-- A layout as JSON. -/
def Layout.toValue (l : Layout) : Value :=
  .object [("fields", .strings l.fields), ("shared", .object l.shared)]

/-- The row of a record. -/
def rowValue (records : List Record) (number : ℕ) (layout : Layout) (i : ℕ) : Value :=
  .array [.nat ((records[i]?.map Record.line).getD 0), .nat number,
    .array (layout.fields.map fun key => (eventAt records i).index key)]

/-- Add the layout of a group, and its rows in their places. -/
def packGroup (records : List Record) (s : List Layout × List Value) (group : List String × List ℕ) :
    List Layout × List Value :=
  let layout := layoutOf records group.1 group.2
  (s.1 ++ [layout], group.2.foldl (fun rows i => rows.set i (rowValue records s.1.length layout i)) s.2)

/-- The layouts and the rows of a list of records. -/
def packRecords (records : List Record) : List Layout × List Value :=
  (groups records).entries.foldl (packGroup records) ([], List.replicate records.length .null)

/-- What the values of a row are. -/
def rowFields : Value := .strings ["line", "layout", "values"]

/-- A page as rows. -/
def packRows (page : Page) : Value :=
  let packed := packRecords page.records
  ((((page.toValue.remove "records").set "encoding" (.string "innen.rows.v1")).set "row_fields" rowFields).set
    "layouts" (.array (packed.1.map Layout.toValue))).set "rows" (.array packed.2)

/-! ## Shared strings -/

section

variable (floatText : UInt64 → String)

/-- The length of a value as text. -/
def textLen (v : Value) : ℕ := (v.toText floatText).utf8ByteSize

/-- The shorter of a value and its packed form. -/
def shorter (packed original : Value) : Value :=
  if textLen floatText packed < textLen floatText original then packed else original

/-- How often each long string occurs. -/
def longStrings (v : Value) : SortedMap String ℕ :=
  (v.allStrings.filter fun s => decide (256 ≤ s.utf8ByteSize)).foldl (fun m s => m.upsert s 0 (· + 1)) ∅

/-- The long strings that occur more than once. -/
def repeatedStrings (v : Value) : List String :=
  ((longStrings v).entries.filter fun e => decide (1 < e.2)).map Prod.fst

/-- A key that no object of a value has. -/
def reservedKey (base : String) (v : Value) : String := Value.freshKey v.allKeys v.allKeys.length base

/-- The reference to a string of a table. -/
def textRef (texts : List String) (s : String) : Option Value :=
  if s ∈ texts then some (.nat (texts.idxOf s)) else none

/-- A value with some strings in a table. -/
def packStrings (v : Value) : Value :=
  let texts := repeatedStrings v
  let key := reservedKey "$text" v
  .object [("encoding", .string "innen.strings.v1"), ("page", v.mark (textRef texts) key),
    ("ref_key", .string key), ("texts", .strings texts)]

/-- `factor_strings`. -/
def factorStrings (original : Value) : Value :=
  if repeatedStrings original = [] then original else shorter floatText (packStrings original) original

/-- `compact::encode`. -/
def encode (page : Page) : Value :=
  if page.records.all fun r => r.event.asObject?.isSome then
    factorStrings floatText (shorter floatText (packRows page) page.toValue)
  else page.toValue

end

/-! ## Decoding -/

/-- The event of a row, its fields merged with those that are shared. -/
def mergeFields (fields : List Value) (values : List Value) (shared : Fields) : Except String Fields :=
  (fields.zip values).foldlM (fun event e => do
    let key ← okOr e.1.asStr? "invalid field name"
    if (Assoc.get? key event).isSome then .error "duplicate field" else .ok (Assoc.insert key e.2 event)) shared

/-- One row. -/
def decodeRow (layouts : List Value) (row : Value) : Except String Value :=
  match row with
  | .array [line, number, values] => do
    let _ ← okOr (line.asU64?.filter fun n => decide (0 < n)) "invalid source line"
    let index ← okOr number.asU64? "invalid layout index"
    let layout ← okOr layouts[index]? "unknown layout"
    let fields ← okOr (layout.index "fields").asArray? "missing fields"
    let values ← okOr (values.asArray?.filter fun v => v.length = fields.length) "field count mismatch"
    let shared ← okOr (layout.index "shared").asObject? "missing shared fields"
    let event ← mergeFields fields values shared
    .ok (.object [("event", .object event), ("line", line)])
  | _ => .error "invalid row"

/-- Decode rows, or an ordinary page. -/
def decodeRows (value : Value) : Except String Value :=
  if (value.get? "encoding").isNone then .ok value
  else if encodingOf value ≠ some "innen.rows.v1" ∨ value.index "row_fields" ≠ rowFields then
    .error "unsupported conversation encoding"
  else do
    let layouts ← okOr (value.index "layouts").asArray? "missing layouts"
    let rows ← okOr (value.index "rows").asArray? "missing rows"
    let records ← rows.mapM (decodeRow layouts)
    .ok ((((((value.remove "encoding").remove "row_fields").remove "layouts").remove "rows").remove "guide").set
      "records" (.array records))

/-- The string that a reference of the table stands for. -/
def textAt (texts : List Value) (ref : Value) : Except String Value := do
  let i ← okOr ref.asU64? "invalid string index"
  okOr texts[i]? "unknown string index"

/-- The page inside a wrapper. -/
def innerPage (value : Value) : Except String Value :=
  okOr ((value.get? "page").filter fun p => p.asObject?.isSome) "missing page"

/-- Take off a table of strings. -/
def decodeStrings (value : Value) : Except String Value := do
  let key ← okOr (value.index "ref_key").asStr? "missing reference key"
  let texts ← okOr (value.index "texts").asArray? "missing strings"
  failIf (texts.any fun s => s.asStr?.isNone) "invalid string table"
  let page ← innerPage value
  failIf (encodingOf page = some "innen.strings.v1") "nested string encoding"
  page.unmark (textAt texts) "ambiguous string reference" key

/-- The fragment at an index. -/
def fragmentAt (fragments : List Value) (part : Value) : Except String String := do
  let i ← okOr part.asU64? "invalid fragment index"
  okOr (fragments[i]?.bind Value.asStr?) "missing fragment"

/-- The text that a list of fragments stands for. -/
def joinedText (fragments : List Value) (ref : Value) : Except String Value := do
  let parts ← okOr ref.asArray? "invalid join"
  let texts ← parts.mapM (fragmentAt fragments)
  .ok (.string (String.join texts))

/-- `deltas::decode` on a page that is encoded so. -/
def decodeEdges (value : Value) : Except String Value := do
  let key ← okOr (value.index "join_key").asStr? "missing join key"
  let fragments ← okOr (value.index "fragments").asArray? "missing fragments"
  failIf (fragments.any fun f => f.asStr?.isNone) "nonliteral fragment"
  let page ← innerPage value
  page.unmark (joinedText fragments) "ambiguous join marker" key

/-- Take off one wrapper, if there is one. -/
def unwrap (value : Value) : Except String (Option Value) :=
  if encodingOf value = some "innen.edges.v1" then (decodeEdges value).map some
  else if encodingOf value = some "innen.strings.v1" then (decodeStrings value).map some
  else .ok none

theorem nodes_innerPage {value page : Value} (h : innerPage value = .ok page) : page.nodes < value.nodes := by
  rw [innerPage] at h
  cases hpage : (value.get? "page").filter fun p => p.asObject?.isSome with
  | none => rw [hpage] at h; cases h
  | some p =>
    rw [hpage] at h
    obtain rfl := Except.ok.inj h
    exact Value.nodes_get? (Option.filter_eq_some_iff.mp hpage).1

theorem nodes_decodeStrings {value inner : Value} (h : decodeStrings value = .ok inner) :
    inner.nodes < value.nodes := by
  obtain ⟨key, -, h⟩ := bind_eq_ok.mp h
  obtain ⟨texts, -, h⟩ := bind_eq_ok.mp h
  obtain ⟨_, htexts, h⟩ := bind_eq_ok.mp h
  obtain ⟨page, hpage, h⟩ := bind_eq_ok.mp h
  obtain ⟨_, -, h⟩ := bind_eq_ok.mp h
  refine Nat.lt_of_le_of_lt (Value.nodes_unmark (fun ref w hw => ?_) page h) (nodes_innerPage hpage)
  obtain ⟨i, -, hw⟩ := bind_eq_ok.mp hw
  cases hi : texts[i]? with
  | none => rw [hi] at hw; cases hw
  | some text =>
    rw [hi] at hw
    obtain rfl := Except.ok.inj hw
    have hall := failIf_eq_ok.mp htexts
    rw [Bool.not_eq_true] at hall
    have hstring := List.any_eq_false.mp hall _ (List.mem_of_getElem? hi)
    cases text with
    | string s => rw [Value.nodes] <;> simp
    | _ => exact absurd rfl hstring

theorem nodes_decodeEdges {value inner : Value} (h : decodeEdges value = .ok inner) :
    inner.nodes < value.nodes := by
  obtain ⟨key, -, h⟩ := bind_eq_ok.mp h
  obtain ⟨fragments, -, h⟩ := bind_eq_ok.mp h
  obtain ⟨_, -, h⟩ := bind_eq_ok.mp h
  obtain ⟨page, hpage, h⟩ := bind_eq_ok.mp h
  refine Nat.lt_of_le_of_lt (Value.nodes_unmark (fun ref w hw => ?_) page h) (nodes_innerPage hpage)
  obtain ⟨parts, -, hw⟩ := bind_eq_ok.mp hw
  obtain ⟨texts, -, hw⟩ := bind_eq_ok.mp hw
  obtain rfl := Except.ok.inj hw
  rw [Value.nodes] <;> simp

/-- What is inside a wrapper is smaller. -/
theorem nodes_unwrap {value inner : Value} (h : unwrap value = .ok (some inner)) : inner.nodes < value.nodes := by
  rw [unwrap] at h
  split at h
  · cases hdecode : decodeEdges value with
    | error e => rw [hdecode] at h; cases h
    | ok w =>
      rw [hdecode] at h
      obtain rfl := Option.some.inj (Except.ok.inj h)
      exact nodes_decodeEdges hdecode
  · split at h
    · cases hdecode : decodeStrings value with
      | error e => rw [hdecode] at h; cases h
      | ok w =>
        rw [hdecode] at h
        obtain rfl := Option.some.inj (Except.ok.inj h)
        exact nodes_decodeStrings hdecode
    · cases h

/-- `compact::decode`. -/
def decode (value : Value) : Except String Value :=
  match _h : unwrap value with
  | .error e => .error e
  | .ok (some inner) => decode inner
  | .ok none => decodeRows value
termination_by value.nodes
decreasing_by exact nodes_unwrap _h

/-- A wrapped value is decoded by decoding what is inside. -/
theorem decode_of_unwrap {value inner : Value} (h : unwrap value = .ok (some inner)) :
    decode value = decode inner := by
  rw [decode]
  split
  · rename_i e he
    rw [h] at he
    cases he
  · rename_i inner' hinner
    rw [h] at hinner
    rw [Option.some.inj (Except.ok.inj hinner)]
  · rename_i hnone
    rw [h] at hnone
    cases hnone

theorem decode_of_unwrap_none {value : Value} (h : unwrap value = .ok none) : decode value = decodeRows value := by
  rw [decode]
  split
  · rename_i e he
    rw [h] at he
    cases he
  · rename_i inner hinner
    rw [h] at hinner
    cases hinner
  · rfl

/-! ## The guide -/

/-- How to read shared strings and rows. -/
def commonGuide : String :=
  "For innen.strings.v1, replace each singleton object keyed by ref_key in page with texts[index]. For " ++
    "innen.rows.v1, each row is [source line, layout index, values]; its event merges layout.shared with values keyed " ++
    "by layout.fields in order. Preserve row order and all page metadata. Other pages are ordinary JSON."

/-- How to read joined fragments. -/
def edgeGuide : String :=
  "For innen.edges.v1, replace each singleton object keyed by join_key in page with the concatenation of fragments " ++
    "at its listed indices, in order, with no separator. Fragments are literal strings. Then decode the restored page."

/-- How to read attachments. -/
def attachmentGuide : String :=
  "innen.attachments.v1 omits source payloads. Decode page, then each attachments entry identifies a record, " ++
    "source line and event JSON pointer. Retrieve using read at offset line minus one with --attachment pointer " ++
    "--expect-sha256 hash. Replace only the listed marker with the returned value. Images and encrypted content have " ++
    "not been interpreted."

/-- The text of an optional value that is a string. -/
def encodingIn (fields : Fields) : Option String := (Assoc.get? "encoding" fields).bind Value.asStr?

mutual

/-- The guides that a value needs, from the outermost wrapper on. -/
def guides : Value → List String
  | .object fields =>
    if encodingIn fields = some "innen.edges.v1" then edgeGuide :: pageGuides fields
    else if encodingIn fields = some "innen.attachments.v1" then attachmentGuide :: pageGuides fields
    else if encodingIn fields = some "innen.strings.v1" ∨ encodingIn fields = some "innen.rows.v1" then [commonGuide]
    else []
  | _ => []

/-- The guides that the page in a wrapper needs. -/
def pageGuides : Fields → List String
  | [] => []
  | (key, v) :: rest => if key = "page" then guides v else pageGuides rest

end

/-- `with_guide`. -/
def withGuide (value : Value) : Value :=
  if guides value = [] then value else value.set "guide" (.string ("\n".intercalate (guides value)))

end Innen.Conversation
