import Innen.Common.SortedMap
import Innen.Common.Text
import Innen.Json.Pointer

/-!
# Task state from a transcript

An agent that tracks its plan writes it with tool calls. The writes and the results of the calls are read off the
records of a transcript, in several dialects; a write counts once a successful result confirms it.

The JSON parser is a parameter: arguments and outputs may be JSON in a string.
-/

namespace Innen.Conversation.Tasks

open Innen.Common

/-! ## Items -/

/-- `TaskItemStatus`. -/
inductive TaskItemStatus
  | pending
  | inProgress
  | completed
  | cancelled
  /-- A status string that is not recognised. -/
  | unknown
deriving DecidableEq

/-- A name in lower case and without separators. -/
def plainKey (name : String) : String :=
  String.ofList ((asciiLower (trim name)).toList.filter Char.isAlphanum)

/-- `TaskItemStatus::parse`. -/
def TaskItemStatus.parse (raw : String) : Option TaskItemStatus :=
  let key := plainKey raw
  if key ∈ ["pending", "todo", "notstarted", "open", "new", "waiting", "queued", "planned", "backlog"] then
    some .pending
  else if key ∈ ["inprogress", "active", "doing", "running", "started", "working", "ongoing", "current"] then
    some .inProgress
  else if key ∈ ["completed", "complete", "done", "finished", "resolved", "closed", "succeeded"] then some .completed
  else if key ∈ ["cancelled", "canceled", "aborted", "rejected", "dropped", "skipped", "obsolete", "superseded",
      "wontfix"] then
    some .cancelled
  else none

structure TaskItem where
  content : String
  status : TaskItemStatus
  /-- The status string exactly as the tool wrote it. -/
  rawStatus : Option String
deriving DecidableEq

structure TaskCounts where
  total : Option ℕ
  active : Option ℕ
  completed : Option ℕ
  cancelled : Option ℕ
deriving DecidableEq

structure TaskState where
  tool : String
  items : List TaskItem
  line : ℕ
  confirmed : Bool
  counts : Option TaskCounts
deriving DecidableEq

/-- The first of some fields that a value has. -/
def firstField (v : Value) (keys : List String) : Option Value := keys.findSome? v.get?

/-- `parse_item`. -/
def parseItem (entry : Value) : Option TaskItem := do
  let text ← (firstField entry ["content", "text", "title", "task", "subject", "description", "name"]).bind Value.asStr?
  if trim text = "" then none
  let rawStatus := (firstField entry ["status", "state"]).bind Value.asStr?
  let status := match rawStatus with
    | none => .pending
    | some raw => (TaskItemStatus.parse raw).getD .unknown
  some ⟨trim text, status, rawStatus⟩

/-- The items of a list that has some. -/
def itemsOf (container : Value) (key : String) : Option (List TaskItem) :=
  ((container.get? key).bind Value.asArray?).bind fun entries =>
    let items := entries.filterMap parseItem
    if items = [] then none else some items

/-- `find_items`. -/
def findItems (container : Value) : Option (List TaskItem) :=
  ["todos", "todoList", "items", "plan", "planItems", "steps", "tasks"].findSome? (itemsOf container)

/-- `find_counts`. -/
def findCounts (container : Value) : Option TaskCounts :=
  let read := fun keys : List String => (firstField container keys).bind Value.asU64?
  let counts : TaskCounts := ⟨read ["total"], read ["active"], read ["completed"], read ["cancelled", "canceled"]⟩
  if counts = ⟨none, none, none, none⟩ then none else some counts

/-- `is_task_state_tool`. -/
def isTaskStateTool (name : String) : Bool :=
  plainKey name ∈ ["todowrite", "writetodos", "createtodos", "updatetodos", "settodo", "settodos", "updateplan",
    "updateplanlist", "updatetasklist", "createtasklist", "tasklist", "todo", "plan"]

/-! ## Observations -/

inductive Origin
  | call
  | result
deriving DecidableEq

structure Observation where
  line : ℕ
  origin : Origin
  tool : String
  callId : Option String
  items : Option (List TaskItem)
  counts : Option TaskCounts
  failed : Bool
deriving DecidableEq

/-- The fields that may hold a call id. -/
def callIdOf (part : Value) : Option String :=
  (firstField part ["call_id", "callId", "toolCallId", "tool_call_id", "tool_use_id", "id"]).bind Value.asStr?

variable (parseJson : String → Option Value)

/-- `parse_arguments`. -/
def parseArguments : Option Value → Option Value
  | some (.string text) => parseJson text
  | some .null => none
  | raw => raw

/-- `from_call`. -/
def fromCall (part : Value) (line : ℕ) : Observation :=
  let tool := ((firstField part ["name", "toolName", "tool"]).or (part.pointer "/function/name")).bind Value.asStr?
  let arguments := parseArguments parseJson (firstField part ["arguments", "input", "args", "parameters"])
  ⟨line, .call, tool.getD "", callIdOf part, arguments.bind findItems, arguments.bind findCounts, false⟩

/-- `result_failed`. -/
def resultFailed (part : Value) : Bool :=
  (["isError", "is_error", "failed", "error"].any fun key => (part.get? key).bind Value.asBool? = some true) ||
    decide ((part.get? "success").bind Value.asBool? = some false) ||
    ((part.get? "status").bind Value.asStr?).any fun status =>
      decide (plainKey status ∈ ["failed", "error", "cancelled", "canceled", "aborted"])

/-- `from_result`. -/
def fromResult (part : Value) (line : ℕ) : Observation :=
  let tool := (firstField part ["toolName", "tool_name", "tool", "name"]).bind Value.asStr?
  let details := part.get? "details"
  ⟨line, .result, tool.getD "", callIdOf part, (details.bind findItems).or (findItems part),
    (details.bind findCounts).or (findCounts part), resultFailed part⟩

/-- `payload_failed`: an output with an exit code other than zero. -/
def payloadFailed (payload : Value) : Bool :=
  if (payload.get? "is_error").bind Value.asBool? = some true then true
  else
    let parsed := match payload.get? "output" with
      | some (.string text) => parseJson text
      | other => other
    ((parsed.bind fun value => value.get? "exit_code").bind Value.asI64?).any fun code => code ≠ 0

/-- The parts of a message. -/
def contentParts (message : Value) : List Value := ((message.get? "content").bind Value.asArray?).getD []

def partType (part : Value) : String := ((part.get? "type").bind Value.asStr?).getD ""

/-- `observations`. -/
def observations (line : ℕ) (event : Value) : List Observation :=
  let message := (event.get? "message").getD event
  let role := ((message.get? "role").bind Value.asStr?).getD ""
  let harnessResult := if role = "toolResult" then [fromResult message line] else []
  let harnessCalls := if role = "assistant" then
      ((contentParts message).filter fun part => partType part = "toolCall" ∨ partType part = "tool_call").map
        fun part => fromCall parseJson part line
    else []
  let claude := (contentParts message).filterMap fun part =>
    if partType part = "tool_use" then some (fromCall parseJson part line)
    else if partType part = "tool_result" then some (fromResult part line)
    else none
  let payload := event.index "payload"
  let kind := ((event.pointer "/payload/type").bind Value.asStr?).getD ""
  let codex := if kind = "function_call" ∨ kind = "custom_tool_call" then [fromCall parseJson payload line]
    else if kind = "function_call_output" ∨ kind = "custom_tool_call_output" then
      let observation := fromResult payload line
      [{ observation with failed := observation.failed || payloadFailed parseJson payload }]
    else []
  let openaiCalls := (((message.get? "tool_calls").bind Value.asArray?).getD []).map
    fun call => fromCall parseJson call line
  let openaiResult := if role = "tool" then [fromResult message line] else []
  harnessResult ++ harnessCalls ++ claude ++ codex ++ openaiCalls ++ openaiResult

/-! ## Extraction -/

/-- One task-state write seen in the transcript. -/
structure Write where
  line : ℕ
  tool : String
  items : List TaskItem
  counts : Option TaskCounts
deriving DecidableEq

/-- `Write::into_state`. -/
def Write.intoState (w : Write) (confirmed : Bool) : TaskState := ⟨w.tool, w.items, w.line, confirmed, w.counts⟩

structure Extractor where
  /-- The last write a successful tool result confirmed. -/
  confirmed : Option Write
  /-- Writes that are still waiting for a tool result, keyed by call id. -/
  pending : SortedMap String Write
  /-- Writes that have no call id to pair a result with. -/
  unpaired : List Write

/-- The extractor before the first event. -/
def Extractor.empty : Extractor := ⟨none, ∅, []⟩

namespace Extractor

/-- `observe_call`. -/
def observeCall (s : Extractor) (o : Observation) : Extractor :=
  match o.items with
  | none => s
  | some items =>
    if isTaskStateTool o.tool then
      match o.callId with
      | some id => { s with pending := s.pending.insert id ⟨o.line, o.tool, items, o.counts⟩ }
      | none => { s with unpaired := s.unpaired ++ [⟨o.line, o.tool, items, o.counts⟩] }
    else s

/-- `pending.remove`. -/
def forget (s : Extractor) (id : String) : Extractor := { s with pending := s.pending.filterKeys fun k => k ≠ id }

/-- `tool_for`. -/
def toolFor (s : Extractor) (callId : Option String) : String :=
  ((callId.bind s.pending.get?).map Write.tool).getD ""

/-- `observe_result`. -/
def observeResult (s : Extractor) (o : Observation) : Extractor :=
  match o.items with
  | some items =>
    -- a result that carries the items is itself the authoritative write
    if o.failed then s
    else
      let tool := if o.tool = "" then s.toolFor o.callId else o.tool
      if isTaskStateTool tool then
        { o.callId.elim s s.forget with confirmed := some ⟨o.line, tool, items, o.counts⟩ }
      else s
  | none =>
    match o.callId with
    | none => s
    | some id =>
      match s.pending.get? id with
      | none => s
      | some write => if o.failed then s.forget id else { s.forget id with confirmed := some write }

/-- One observation. -/
def step (s : Extractor) (o : Observation) : Extractor :=
  match o.origin with
  | .call => s.observeCall o
  | .result => s.observeResult o

/-- `observe`. -/
def observe (s : Extractor) (line : ℕ) (event : Value) : Extractor := (observations parseJson line event).foldl step s

/-- `max_by_key` on the lines: the last of the writes with the greatest line. -/
def newest (writes : List Write) : Option Write :=
  writes.foldl (fun best w => if best.any fun b => w.line < b.line then best else some w) none

/-- `finish`. -/
def finish (s : Extractor) : Option TaskState :=
  match s.confirmed with
  | some write => some (write.intoState true)
  | none => (newest (s.pending.values ++ s.unpaired)).map (·.intoState false)

end Extractor

/-- The extractor after some events, each with its line. -/
def extractFrom (s : Extractor) (events : List (Value × ℕ)) : Extractor :=
  events.foldl (fun s e => s.observe parseJson (e.2 + 1) e.1) s

/-- `extract_events`. -/
def extractEvents (events : List Value) : Option TaskState :=
  (extractFrom parseJson .empty events.zipIdx).finish

end Innen.Conversation.Tasks
