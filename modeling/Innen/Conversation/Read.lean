import Innen.Common.ByteLines
import Innen.Common.Except
import Innen.Conversation.Page

/-!
# Reading a page

A transcript is a file of one event a line, or one document that holds a list of events. Offsets count
physical rows, whatever a view shows of them. A read goes one shown event further than its limit, so that
`next_offset` says that there is more.

The projections of the views are a parameter.
-/

namespace Innen.Conversation

open Innen.Common

/-- The file of a session. -/
structure Located where
  source : Source
  path : String
  /-- Whether the path ends in `.json`: one document, not lines. -/
  isDocument : Bool
  /-- The bytes of the file, decompressed. -/
  content : ByteArray

/-- What one pass saw but could not show. -/
structure Tally where
  elided : SortedMap String ℕ
  truncated : List ℕ

/-- The state of a pass over the rows. -/
structure Pass where
  page : Page
  tally : Tally
  /-- How many rows were parsed. -/
  parsed : ℕ
  firstError : Option String

/-- The library and projection functions that reading calls. -/
structure Reader where
  /-- `serde_json::from_str::<Value>`, with its message. -/
  parseJson : String → Except String Value
  /-- `projection::dialogue`, `index` and `context`. -/
  projection : View → Source → Value → Except ReadError (Option Value)

variable (R : Reader)

/-- What the view of the page shows of an event. -/
def shown (view : View) (source : Source) (event : Value) : Except ReadError (Option Value) :=
  if view = .events then .ok (some event) else R.projection view source event

/-- `native_kind`. -/
def nativeKind (event : Value) : String :=
  let kind := ((event.get? "type").bind Value.asStr?).getD "other"
  match ((event.get? "payload").bind fun p => (p.get? "type").bind Value.asStr?) with
  | some sub => kind ++ ":" ++ sub
  | none => kind

/-- Count an event that the view does not show. -/
def Tally.elide (tally : Tally) (view : View) (event : Value) : Tally :=
  if view = .events then tally
  else { tally with elided := tally.elided.upsert (nativeKind event) 0 (· + 1) }

/-- Whether the source of a shown event was cut. -/
def isTruncated (event : Value) : Bool :=
  ((event.get? "truncated_fields").bind Value.asArray?).any fun fields => !fields.isEmpty

/-- Add a shown event. -/
def Pass.push (s : Pass) (event : Value) (index : ℕ) : Pass :=
  { s with
    page := { s.page with records := s.page.records ++ [⟨index + 1, event⟩] }
    tally := if isTruncated event then { s.tally with truncated := s.tally.truncated ++ [index + 1] } else s.tally }

/-- Stop before an event that does not fit on the page any more. -/
def Pass.stop (s : Pass) (index : ℕ) : Pass := { s with page := { s.page with nextOffset := some index } }

/-- The last selected line. -/
def lastSelected (lines : SortedSet ℕ) : ℕ := lines.elems.getLastD 0

/-- `accept`: take in one event; the result says whether the page is complete. -/
def accept (limit : ℕ) (selected : Option (SortedSet ℕ)) (s : Pass) (event : Value) (index : ℕ) :
    Except ReadError (Pass × Bool) :=
  if selected.any fun lines => index + 1 ∉ lines then
    .ok (s, selected.any fun lines => lastSelected lines < index + 1)
  else if event.asObject?.isNone then
    .error ⟨"unsupported transcript event at " ++ s.page.sourcePath ++ ":" ++ toString (index + 1) ++
      ": expected object"⟩
  else match shown R s.page.view s.page.source event with
    | .error e => .error e
    | .ok none => .ok ({ s with tally := s.tally.elide s.page.view event }, false)
    | .ok (some event) =>
      if s.page.records.length = limit then .ok (s.stop index, true)
      else .ok (s.push event index, selected.any fun lines => s.page.records.length + 1 = lines.card)

/-- A line that is no JSON. -/
def Pass.skip (s : Pass) (index : ℕ) (m : String) : Pass :=
  { s with
    firstError := s.firstError.or (some ("invalid transcript JSON at " ++ s.page.sourcePath ++ ":" ++
      toString (index + 1) ++ ": " ++ m))
    page := { s.page with warnings := s.page.warnings ++ ["skipped unreadable transcript line " ++
      s.page.sourcePath ++ ":" ++ toString (index + 1) ++ ": " ++ m] } }

/-- The loop over the lines of a transcript. -/
def readLines (offset limit : ℕ) (selected : Option (SortedSet ℕ)) :
    List (Option String × ℕ) → Pass → Except ReadError Pass
  | [], s => .ok s
  | (none, _) :: _, s => .error ⟨"read " ++ s.page.sourcePath ++ ": stream did not contain valid UTF-8"⟩
  | (some line, index) :: rest, s =>
    if selected.any fun lines => lastSelected lines < index + 1 then .ok s
    else if index < offset ∨ blank line = true ∨ selected.any (fun lines => index + 1 ∉ lines) then
      readLines offset limit selected rest s
    else match R.parseJson line with
      | .error m => readLines offset limit selected rest (s.skip index m)
      | .ok event =>
        match accept R limit selected { s with parsed := s.parsed + 1 } event index with
        | .error e => .error e
        | .ok (s', true) => .ok s'
        | .ok (s', false) => readLines offset limit selected rest s'

/-- The loop over the events of a document. -/
def readEvents (limit : ℕ) (selected : Option (SortedSet ℕ)) :
    List (Value × ℕ) → Pass → Except ReadError Pass
  | [], s => .ok s
  | (event, index) :: rest, s =>
    match accept R limit selected s event index with
    | .error e => .error e
    | .ok (s', true) => .ok s'
    | .ok (s', false) => readEvents limit selected rest s'

/-- `load_document`. -/
def loadDocument (located : Located) : Except ReadError (List Value) :=
  match String.fromUTF8? located.content with
  | none => .error ⟨"read " ++ located.path ++ ": stream did not contain valid UTF-8"⟩
  | some text =>
    match R.parseJson text with
    | .error m => .error ⟨"read " ++ located.path ++ ": " ++ m⟩
    | .ok data =>
      match located.source with
      | .gemini =>
        match (data.get? "messages").bind Value.asArray? with
        | some events => .ok events
        | none => .error ⟨"Gemini document missing messages array"⟩
      | .vscode =>
        match (data.get? "requests").bind Value.asArray? with
        | some events => .ok events
        | none => .error ⟨"VS Code document missing requests array"⟩
      | _ => .error ⟨"unsupported document source"⟩

/-- The page before anything is read. -/
def firstPage (located : Located) (id : String) (view : View) (offset : ℕ) : Page where
  sessionId := id
  source := located.source
  sourcePath := located.path
  view := view
  offset := offset
  nextOffset := none
  records := []
  warnings := if located.source = .cursor then ["Cursor exported transcripts may omit tool outputs; events " ++
    "cannot restore data absent from the export"] else []

/-- A transcript without a readable line fails with its first unreadable one. -/
def checkReadable (s : Pass) : Except ReadError Pass :=
  if s.parsed = 0 ∧ s.page.records = [] then
    match s.firstError with
    | some m => .error ⟨m⟩
    | none => .ok s
  else .ok s

/-- `read_pass`. -/
def readPass (located : Located) (id : String) (view : View) (offset limit : ℕ)
    (selected : Option (SortedSet ℕ)) : Except ReadError Pass :=
  let start : Pass := ⟨firstPage located id view offset, ⟨∅, []⟩, 0, none⟩
  if located.isDocument then do
    let events ← loadDocument R located
    readEvents R limit selected (events.zipIdx.drop offset) start
  else do
    let s ← readLines R offset limit selected (bufLines located.content).zipIdx start
    checkReadable s

/-! ## Warnings -/

/-- The end of the run of consecutive lines that begins with `last`, and what is behind it. -/
def takeRun (last : ℕ) : List ℕ → ℕ × List ℕ
  | [] => (last, [])
  | n :: rest => if n = last + 1 then takeRun n rest else (last, n :: rest)

theorem length_takeRun (last : ℕ) (rest : List ℕ) : (takeRun last rest).2.length ≤ rest.length := by
  induction rest generalizing last with
  | nil => exact le_rfl
  | cons n rest ih =>
    rw [takeRun]
    split
    · exact (ih n).trans (Nat.le_succ _)
    · exact le_rfl

/-- The parts of `line_ranges`. -/
def lineRangeParts : List ℕ → List String
  | [] => []
  | n :: rest =>
    (if n < (takeRun n rest).1 then toString n ++ "-" ++ toString (takeRun n rest).1 else toString n) ::
      lineRangeParts (takeRun n rest).2
termination_by lines => lines.length
decreasing_by exact Nat.lt_succ_of_le (length_takeRun n rest)

/-- `line_ranges`. -/
def lineRanges (lines : List ℕ) : String := ",".intercalate (lineRangeParts lines)

/-- `Tally::report`: the warnings of a tally. -/
def Tally.report (tally : Tally) (view : View) : List String :=
  (if tally.truncated = [] then [] else
    ["source text truncated in " ++ toString tally.truncated.length ++ " shown events (lines " ++
      lineRanges tally.truncated ++ "); this reader cannot restore it"]) ++
  if tally.elided.entries = [] then [] else
    ["not shown in " ++ view.asStr ++ " view: " ++
      ",".intercalate (tally.elided.entries.map fun e => e.1 ++ "x" ++ toString e.2) ++
      "; read them with --view events"]

/-- `read_located`. -/
def readLocated (located : Located) (id : String) (view : View) (offset limit : ℕ)
    (selected : Option (SortedSet ℕ)) : Except ReadError Page := do
  let s ← readPass R located id view offset limit selected
  .ok { s.page with warnings := s.page.warnings ++ s.tally.report view }

/-! ## Links between the events of a page -/

/-- The call id of an event, if it is a string. -/
def callId (event : Value) : Option String := (event.index "call_id").asStr?

/-- Whether an event is a call. -/
def isCall (event : Value) : Bool :=
  (event.index "kind").asStr? = some "function_call" ∨ (event.index "kind").asStr? = some "custom_tool_call"

/-- The lines of the calls of a page, by call id. -/
def callLines (records : List Record) : SortedMap String (List ℕ) :=
  records.foldl (fun calls r =>
    match (if isCall r.event then callId r.event else none) with
    | some id => calls.upsert id [] (· ++ [r.line])
    | none => calls) ∅

/-- The event with its call id replaced by the line of the call. -/
def linkEvent (calls : SortedMap String (List ℕ)) (event : Value) : Value :=
  match (callId event).bind calls.get? with
  | some [line] => (event.set "call_line" (.nat line)).remove "call_id"
  | _ => event

/-- `link_index`. -/
def linkIndex (records : List Record) : List Record :=
  records.map fun r => { r with event := linkEvent (callLines records) r.event }

/-- Whether the events of a page are linked. -/
def isLinked (view : View) (source : Source) : Bool := view = .index ∨ (view = .context ∧ source = .codex)

/-- `read`; the session is located already. -/
def read (located : Located) (id viewName : String) (offset limit : ℕ) : Except ReadError Page :=
  match View.parse? viewName with
  | none => .error ⟨"expected view dialogue|events|index|context and limit 1..100"⟩
  | some view =>
    if ¬(1 ≤ limit ∧ limit ≤ 100) then
      .error ⟨"expected view dialogue|events|index|context and limit 1..100"⟩
    else do
      let page ← readLocated R located id view offset limit none
      .ok (if isLinked view page.source then { page with records := linkIndex page.records } else page)

end Innen.Conversation
