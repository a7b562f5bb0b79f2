import Innen.Conversation.Page

/-!
# Prune: what a page called

A call is reduced to one `ToolAction`, and the records of a page to the calls and the outputs they carry,
whatever the dialect.
-/

namespace Innen.Conversation.Prune

open Innen.Common

/-- What a tool call was asking for. -/
inductive ToolAction where
  | readFile (path : String)
  | writeFile (path : String)
  | search (query : String)
  | statusCheck (cmd : String)
deriving DecidableEq

/-! ## Classification -/

/-- `normalize_path`. -/
def normalizePath (raw : String) : String :=
  let s := trimMatches '"' (trimMatches '\x27' (trim raw))
  (stripStart s "./").getD s

/-- The text of an optional value. -/
def textOf (v : Option Value) : Option String := v.bind Value.asStr?

/-- `get_str`: the first of some fields that holds a text that is not blank. -/
def getStr (obj : Option Value) (keys : List String) : Option String :=
  keys.findSome? fun key => (textOf (obj.bind fun v => v.get? key)).filter fun s => !blank s

/-- What a shell command was asking for. -/
def commandAction (cmd : String) : Option ToolAction :=
  let trimmed := trim cmd
  let status := if startsWith trimmed "git status" ∨ startsWith trimmed "git diff" then
    some (ToolAction.statusCheck trimmed) else none
  match splitWhitespace trimmed with
  | program :: argument :: _ =>
    if program ∈ ["cat", "head", "tail", "bat"] ∧ startsWith argument "-" = false then
      some (.readFile (normalizePath argument))
    else if program ∈ ["rg", "grep"] then some (.search argument)
    else status
  | _ => status

variable (parseJson : String → Option Value)

/-- The arguments of a call: an object, or the text of one. -/
def parseArguments : Value → Option Value
  | .string text => parseJson text
  | .object fields => some (.object fields)
  | _ => none

/-- `extract_tool_action`. -/
def extractToolAction (name : String) (args : Value) : Option ToolAction :=
  let lowerName := asciiLower name
  let obj := parseArguments parseJson args
  let read := if lowerName ∈ ["read_file", "view_file", "view", "read", "cat"] then
    (getStr obj ["file_path", "path", "file", "AbsolutePath", "target"]).map fun p =>
      ToolAction.readFile (normalizePath p) else none
  let write := if lowerName ∈ ["write_to_file", "replace_file_content", "edit", "write", "write_file",
      "apply_patch", "str_replace_editor"] then
    (getStr obj ["file_path", "path", "file", "AbsolutePath", "TargetFile", "target"]).map fun p =>
      ToolAction.writeFile (normalizePath p) else none
  let search := if lowerName ∈ ["grep_search", "find_by_name", "file_search", "grep", "glob", "find"] then
    some (ToolAction.search ((getStr obj ["query", "pattern", "Query", "Pattern", "path"]).getD ""))
    else none
  let command := if lowerName ∈ ["exec_command", "bash", "sh"] then
    (getStr obj ["command", "cmd", "CommandLine"]).bind commandAction else none
  read.or (write.or (search.or command))

/-- `is_empty_search_output`. -/
def isEmptySearchOutput (text : String) : Bool :=
  let lower := asciiLower (trim text)
  lower = "" ∨ lower = "[]" ∨ lower = "no results found" ∨ startsWith lower "found 0 results" ∨
    containsText lower "0 matches" ∨ containsText lower "no matches found"

/-! ## Scanning -/

/-- A tool call in a record. -/
structure CallMeta where
  recordIdx : ℕ
  sourceLine : ℕ
  callId : Option String
  action : ToolAction
deriving DecidableEq

/-- A tool output in a record. -/
structure OutputMeta where
  recordIdx : ℕ
  sourceLine : ℕ
  callId : Option String
  callLine : Option ℕ
  isError : Bool
  contentPreview : String
  originalChars : ℕ
deriving DecidableEq

/-- The calls and outputs of a page, and the writes by path. -/
structure ScanResult where
  calls : List CallMeta
  outputs : List OutputMeta
  /-- Path to record index and source line. -/
  fileWrites : SortedMap String (List (ℕ × ℕ))

/-- A write call enters its path. -/
def noteWrite (fileWrites : SortedMap String (List (ℕ × ℕ))) (idx line : ℕ) :
    ToolAction → SortedMap String (List (ℕ × ℕ))
  | .writeFile path => fileWrites.upsert path [] (· ++ [(idx, line)])
  | _ => fileWrites

/-- Add a call, if it is one of the actions that matter. -/
def ScanResult.call (s : ScanResult) (idx line : ℕ) (callId : Option String) (name : String)
    (args : Value) : ScanResult :=
  match extractToolAction parseJson name args with
  | none => s
  | some action =>
    { s with
      calls := s.calls ++ [⟨idx, line, callId, action⟩]
      fileWrites := noteWrite s.fileWrites idx line action }

/-- Add an output. -/
def ScanResult.output (s : ScanResult) (out : OutputMeta) : ScanResult :=
  { s with outputs := s.outputs ++ [out] }

/-- An output whose text stands in the record. -/
def textOutput (idx line : ℕ) (callId : Option String) (isError : Bool) (text : String) : OutputMeta :=
  ⟨idx, line, callId, none, isError, takeChars 120 text, text.length⟩

/-- A field of a field. -/
def pointer2 (v : Value) (a b : String) : Option Value := (v.get? a).bind fun w => w.get? b

/-- One entry of a `tool_calls` array. -/
def scanToolCall (idx line : ℕ) (s : ScanResult) (tc : Value) : ScanResult :=
  s.call parseJson idx line (textOf (tc.get? "id"))
    ((textOf ((pointer2 tc "function" "name").or (tc.get? "name"))).getD "")
    ((((pointer2 tc "function" "arguments").or (tc.get? "arguments")).or (tc.get? "args")).getD .null)

/-- One part of a message. -/
def scanPart (idx line : ℕ) (s : ScanResult) (part : Value) : ScanResult :=
  if textOf (part.get? "type") = some "tool_use" then
    s.call parseJson idx line (textOf (part.get? "id")) ((textOf (part.get? "name")).getD "")
      ((part.get? "input").getD .null)
  else if textOf (part.get? "type") = some "tool_result" then
    s.output (textOutput idx line (textOf (part.get? "tool_use_id"))
      (((part.get? "is_error").bind Value.asBool?).getD false) ((textOf (part.get? "content")).getD ""))
  else s

/-- A raw payload, or else a user input behind some call. -/
def scanPayload (idx line : ℕ) (ev : Value) (s : ScanResult) : ScanResult :=
  if textOf (pointer2 ev "payload" "type") = some "function_call" then
    s.call parseJson idx line (textOf (pointer2 ev "payload" "call_id"))
      ((textOf (pointer2 ev "payload" "name")).getD "") ((pointer2 ev "payload" "arguments").getD .null)
  else if textOf (pointer2 ev "payload" "type") = some "function_call_output" then
    s.output (textOutput idx line (textOf (pointer2 ev "payload" "call_id")) false
      ((textOf (pointer2 ev "payload" "output")).getD ""))
  else if textOf (ev.get? "type") = some "USER_INPUT" ∧ s.calls ≠ [] ∧
      (textOf (ev.get? "content")).getD "" ≠ "" then
    s.output (textOutput idx line none false ((textOf (ev.get? "content")).getD ""))
  else s

/-- The output of a context or index record. -/
def contextOutput (idx line : ℕ) (ev : Value) : OutputMeta where
  recordIdx := idx
  sourceLine := line
  callId := textOf (ev.get? "call_id")
  callLine := (ev.get? "call_line").bind Value.asU64?
  isError := ((ev.get? "reported_exit_code").bind Value.asI64?).any (· ≠ 0)
  contentPreview := (textOf (ev.get? "preview")).getD ""
  originalChars := ((ev.get? "chars").bind Value.asU64?).getD ((textOf (ev.get? "preview")).getD "").utf8ByteSize

/-- The parts of a message, or none. -/
def messageParts (ev : Value) : List Value :=
  (((pointer2 ev "message" "content").or (ev.get? "content")).bind Value.asArray?).getD []

/-- One record of `scan_records`. -/
def scanRecord (s : ScanResult) (idx : ℕ) (record : Record) : ScanResult :=
  let ev := record.event
  let kind := textOf (ev.get? "kind")
  if kind = some "function_call" ∨ kind = some "custom_tool_call" then
    s.call parseJson idx record.line (textOf (ev.get? "call_id")) ((textOf (ev.get? "name")).getD "")
      (((ev.get? "arguments").or (ev.get? "input")).getD .null)
  else if kind = some "function_call_output" ∨ kind = some "custom_tool_call_output" then
    s.output (contextOutput idx record.line ev)
  else if textOf (ev.get? "role") = some "tool" then
    s.output (textOutput idx record.line none false ((textOf (ev.get? "content")).getD ""))
  else match (ev.get? "tool_calls").bind Value.asArray? with
    | some toolCalls => toolCalls.foldl (scanToolCall parseJson idx record.line) s
    | none =>
      scanPayload parseJson idx record.line ev
        ((messageParts ev).foldl (scanPart parseJson idx record.line) s)

/-- `scan_records`. -/
def scanRecords (records : List Record) : ScanResult :=
  records.zipIdx.foldl (fun s r => scanRecord parseJson s r.2 r.1) ⟨[], [], ∅⟩

end Innen.Conversation.Prune
