import Innen.Conversation.Checkpoint
import Innen.Conversation.Prune.Pins
import Innen.Conversation.TaskState.Model
import Innen.Conversation.Unfinished.Tail

/-!
# Structural evidence

What the events in the tail of a transcript show: whose message is the newest, how the last turn ended, and whether a
tool failed. Each source has its own events; the newest line of each signal counts. The reasons are codes that all
sources share, and the confidence is graded by them.
-/

namespace Innen.Conversation.Unfinished

open Common

/-! ## Reasons -/

/-- `Reason`. -/
structure Reason where
  code : String
  detail : String
deriving DecidableEq

/-- `Confidence`. -/
inductive Confidence
  | high
  | medium
  | low
deriving DecidableEq

/-- The reason of a checkpoint that is open. -/
def checkpointReasons (checkpoint : Option Checkpoint) : List Reason :=
  match checkpoint with
  | none => []
  | some cp =>
    match cp.status with
    | .active => [⟨"checkpoint_active", "explicit active checkpoint updated at " ++ cp.updatedAt⟩]
    | .blocked => [⟨"checkpoint_blocked", "explicit blocked checkpoint updated at " ++ cp.updatedAt⟩]
    | _ => []

/-- The reason of a plan with open items. -/
def taskReasons (taskState : Option Tasks.TaskState) : List Reason :=
  match taskState with
  | none => []
  | some state =>
    let inProgress := (state.items.filter fun item => item.status = .inProgress).length
    let pending := (state.items.filter fun item => item.status = .pending).length
    if 0 < inProgress ∨ 0 < pending then
      [⟨"task_state_outstanding", "structured task state at line " ++ toString state.line ++ " reports " ++
        toString inProgress ++ " in progress and " ++ toString pending ++ " pending"⟩]
    else []

/-- `finish`. -/
def finish (reasons : List Reason) : List Reason × Confidence :=
  let reasons := if reasons = [] then
      [⟨"recent_activity_uncheckpointed", "recent activity within time window with no terminal completion record"⟩]
    else reasons
  let hasHigh := reasons.any fun r => decide (r.code ∈ ["checkpoint_active", "checkpoint_blocked",
    "interrupted_or_cancelled", "trailing_user_request_unanswered", "task_state_outstanding"])
  let hasMedium := reasons.any fun r => decide (r.code = "unresolved_tool_failure")
  (reasons, if hasHigh then .high else if hasMedium then .medium else .low)

/-- The reason of a tail that is not all of a file. -/
def tailReason : Reason :=
  ⟨"bounded_tail_incomplete",
    "structural inspection used only the bounded transcript tail; older records were not read"⟩

/-! ## Events -/

/-- A text field, empty where there is none. -/
def textAt (value : Value) (key : String) : String := ((value.index key).asStr?).getD ""

/-- The exit code that a line of an output gives. -/
def exitLine (line : String) : Option ℤ :=
  ((stripStart line "Process exited with code ").bind fun rest => Prune.parseI32 (trim rest)).or
    ((stripStart line "The command exited with code ").bind fun rest =>
      Prune.parseI32 (String.ofList ((trim rest).toList.rdropWhile (· = '.'))))

/-- `extract_exit_code`. -/
def extractExitCode (output : Value) : Option ℤ :=
  match (output.get? "exit_code").bind Value.asI64? with
  | some code => if Prune.isI32 code then some code else none
  | none => output.asStr?.bind fun s => (lines s).findSome? exitLine

/-- The newest lines of the signals of a transcript. -/
structure Signals where
  lastUser : Option ℕ
  lastAssistant : Option ℕ
  lastExitCode : Option ℤ
  exit : Option ℕ
  interrupted : Option ℕ
  turnStart : Option ℕ
  toolFailure : Option ℕ
  toolSuccess : Option ℕ
  turnCompleted : Option ℕ
  lastStepStatus : Option (String × ℕ)
  lastAssistantStop : Option (String × ℕ)
deriving DecidableEq

/-- No signal. -/
def Signals.empty : Signals := ⟨none, none, none, none, none, none, none, none, none, none, none⟩

/-- An event of Copilot. -/
def copilotStep (i : ℕ) (event : Value) (s : Signals) : Signals :=
  let ty := textAt event "type"
  if ty = "user.message" then { s with lastUser := some i }
  else if ty = "assistant.message" then { s with lastAssistant := some i }
  else if ty = "assistant.turn_start" then { s with turnStart := some i }
  else if ty = "assistant.turn_end" then { s with turnCompleted := some i }
  else if ty = "abort" then { s with interrupted := some i }
  else if ty = "tool.execution_complete" then
    match ((event.index "data").index "success").asBool? with
    | some false => { s with toolFailure := some i }
    | some true => { s with toolSuccess := some i }
    | none => s
  else s

/-- An event of Antigravity. -/
def antigravityStep (i : ℕ) (event : Value) (s : Signals) : Signals :=
  let stepType := textAt event "type"
  let status := textAt event "status"
  let s := if status = "CANCELLED" ∨ status = "ERROR" then { s with interrupted := some i } else s
  let s := if status ≠ "" then { s with lastStepStatus := some (status, i) } else s
  if stepType = "USER_INPUT" then { s with lastUser := some i }
  else if stepType = "PLANNER_RESPONSE" ∧ ((event.index "content").asStr?.any fun text => trim text ≠ "") = true then
    { s with lastAssistant := some i }
  else s

/-- An event of Codex. -/
def codexStep (i : ℕ) (event : Value) (s : Signals) : Signals :=
  let ty := textAt event "type"
  let payload := event.index "payload"
  let payloadType := textAt payload "type"
  let s := if ty = "event_msg" ∧ payloadType = "task_complete" then { s with turnCompleted := some i } else s
  let s := if ty = "event_msg" ∧ (payloadType = "turn_aborted" ∨ payloadType = "error") then
    { s with interrupted := some i } else s
  let s := if textAt event "status" = "cancelled" then { s with interrupted := some i } else s
  let s := if ty = "response_item" ∧ payloadType = "message" then
      if textAt payload "role" = "user" then { s with lastUser := some i }
      else if textAt payload "role" = "assistant" then { s with lastAssistant := some i }
      else s
    else s
  if ty = "response_item" ∧ (payloadType = "function_call_output" ∨ payloadType = "custom_tool_call_output") then
    match extractExitCode (payload.index "output") with
    | some code =>
      -- A later zero supersedes an earlier failure.
      if code ≠ 0 then { s with lastExitCode := some code, exit := some i }
      else { s with lastExitCode := none, exit := none }
    | none => s
  else s

/-- An event of Claude. Those of a nested conversation do not count. -/
def claudeStep (i : ℕ) (event : Value) (s : Signals) : Signals :=
  if (event.get? "isSidechain").bind Value.asBool? = some true then s
  else
    let s := if (event.get? "isApiErrorMessage").bind Value.asBool? = some true then { s with interrupted := some i }
      else s
    let message := event.index "message"
    if textAt message "role" = "user" then { s with lastUser := some i }
    else if textAt message "role" = "assistant" then
      let s := { s with lastAssistant := some i }
      match (message.index "stop_reason").asStr? with
      | some stop => { s with lastAssistantStop := some (stop, i) }
      | none => s
    else s

/-- An event of another source. -/
def otherStep (i : ℕ) (event : Value) (s : Signals) : Signals :=
  match (event.get? "role").bind Value.asStr? with
  | some role =>
    if role = "user" then { s with lastUser := some i }
    else if role = "assistant" then { s with lastAssistant := some i }
    else s
  | none => s

/-- An event of a source. -/
def step (source : Source) (i : ℕ) (event : Value) (s : Signals) : Signals :=
  match source with
  | .copilot => copilotStep i event s
  | .antigravity => antigravityStep i event s
  | .codex => codexStep i event s
  | .claude => claudeStep i event s
  | _ => otherStep i event s

-- `parse` is `serde_json::from_str`.
variable (parse : String → Option Value)

/-- The fold over the lines of a tail. -/
def scan (source : Source) (tail : List String) : Signals :=
  tail.zipIdx.foldl (fun s (line, i) => match parse line with
    | some event => step source i event s
    | none => s) .empty

/-! ## Verdicts -/

/-- Resolve the markers that a source ends a turn with. -/
def Signals.resolve (source : Source) (s : Signals) : Signals :=
  match source with
  | .antigravity =>
    match s.lastStepStatus with
    | some (status, i) =>
      if status = "DONE" ∧ (s.turnCompleted.all fun c => c < i) = true then { s with turnCompleted := some i } else s
    | none => s
  | .claude =>
    match s.lastAssistantStop with
    | some (stop, i) =>
      if stop = "end_turn" then
        if (s.turnCompleted.all fun c => c < i) = true then { s with turnCompleted := some i } else s
      else { s with interrupted := some (max (s.interrupted.getD i) i) }
    | none => s
  | _ => s

/-- The newest sign that the turn did not end: an interruption, or a start without completion behind it. -/
def Signals.lastNegative (s : Signals) : Option ℕ :=
  match s.turnStart.filter fun t => s.turnCompleted.all fun c => c < t with
  | some t => some (s.interrupted.elim t fun n => max n t)
  | none => s.interrupted

/-- How the last turn ended. -/
def Signals.turnReasons (s : Signals) : List Reason :=
  if (s.turnCompleted.any fun c => s.lastNegative.all fun i => i ≤ c) = true then
    [⟨"explicit_turn_completed", "transcript records the final turn reaching completion"⟩]
  else if s.lastNegative.isSome then
    [⟨"interrupted_or_cancelled", "transcript records an interrupted, aborted, or cancelled turn"⟩]
  else []

/-- Whether the newest request has no answer. -/
def unanswered (lastUser lastAssistant : Option ℕ) : Bool := lastUser.any fun u => lastAssistant.all fun a => a < u

/-- Whether a failure is newer than what closes it. -/
def stillOpen (failure closed : Option ℕ) : Bool := failure.any fun f => closed.all fun c => c < f

/-- A request that is not answered. -/
def Signals.trailingReasons (s : Signals) : List Reason :=
  if unanswered s.lastUser s.lastAssistant then
    [⟨"trailing_user_request_unanswered",
      "transcript ends with a user request without a following assistant response"⟩]
  else []

/-- A tool that failed. -/
def Signals.failureReasons (s : Signals) : List Reason :=
  if stillOpen s.exit s.turnCompleted then
    [⟨"unresolved_tool_failure", "last executed tool reported non-zero exit code " ++ toString (s.lastExitCode.getD 1)⟩]
  else if stillOpen s.toolFailure s.toolSuccess then
    [⟨"unresolved_tool_failure", "tool call recorded a failed status"⟩]
  else []

/-- What the lines of a tail show. -/
def tailReasons (source : Source) (tail : List String × Bool) : List Reason :=
  if tail.1 = [] then []
  else
    let s := (scan parse source tail.1).resolve source
    (if tail.2 then [tailReason] else []) ++ s.turnReasons ++ s.trailingReasons ++ s.failureReasons

/-! ## Grok -/

/-- The newest lines of the signals of the runtime stream of Grok. -/
structure GrokSignals where
  turnEnd : Option (ℕ × String)
  loopStarted : Option ℕ
  toolFailed : Option ℕ
  toolSucceeded : Option ℕ
deriving DecidableEq

/-- The newest lines of the two speakers in the conversation stream of Grok. -/
def grokTalk (tail : List String) : Option ℕ × Option ℕ :=
  tail.zipIdx.foldl (fun s (line, i) => match parse line with
    | some event =>
      if textAt event "type" = "user" then (some i, s.2)
      else if textAt event "type" = "assistant" then (s.1, some i)
      else s
    | none => s) (none, none)

/-- An event of the runtime stream of Grok. -/
def grokStep (i : ℕ) (event : Value) (s : GrokSignals) : GrokSignals :=
  let ty := textAt event "type"
  if ty = "turn_ended" then { s with turnEnd := some (i, textAt event "outcome") }
  else if ty = "loop_started" then { s with loopStarted := some i }
  else if ty = "tool_completed" then
    if textAt event "outcome" = "error" then { s with toolFailed := some i }
    else if textAt event "outcome" = "success" then { s with toolSucceeded := some i }
    else s
  else s

/-- The fold over the runtime stream of Grok. -/
def grokScan (tail : List String) : GrokSignals :=
  tail.zipIdx.foldl (fun s (line, i) => match parse line with
    | some event => grokStep i event s
    | none => s) ⟨none, none, none, none⟩

/-- How the last turn of Grok ended. -/
def GrokSignals.turnReasons (s : GrokSignals) : List Reason :=
  if stillOpen s.loopStarted (s.turnEnd.map Prod.fst) then
    [⟨"interrupted_or_cancelled", "agent loop started a turn without a recorded turn end"⟩]
  else
    match s.turnEnd with
    | some (_, outcome) =>
      if outcome = "error" then [⟨"interrupted_or_cancelled", "last turn ended with an error outcome"⟩]
      else if outcome = "success" then [⟨"explicit_turn_completed", "last turn ended with a success outcome"⟩]
      else []
    | none => []

/-- A tool of Grok that failed. -/
def GrokSignals.failureReasons (s : GrokSignals) : List Reason :=
  if stillOpen s.toolFailed s.toolSucceeded then
    [⟨"unresolved_tool_failure", "tool call recorded an error outcome"⟩]
  else []

/-- `grok_stream_evidence`. The runtime stream may be missing. -/
def grokReasons (talk : List String × Bool) (runtime : Option (List String × Bool)) : List Reason :=
  (if unanswered (grokTalk parse talk.1).1 (grokTalk parse talk.1).2 then
      [⟨"trailing_user_request_unanswered",
        "conversation stream ends with a user request without a following assistant response"⟩]
    else []) ++
    (runtime.elim [] fun tail => (grokScan parse tail.1).turnReasons ++ (grokScan parse tail.1).failureReasons) ++
    if talk.2 || runtime.any Prod.snd then [tailReason] else []

/-! ## Inspection -/

/-- What is there to inspect: the transcript, the file `events.jsonl` beside it, what a database says of the session, and
what the agent says of its work. -/
structure Session where
  transcript : ByteArray
  events : Option ByteArray
  stored : List Reason
  checkpoint : Option Checkpoint
  taskState : Option Tasks.TaskState

/-- The inspection of a session, with a way to read the lines of a file. -/
def inspectWith (read : ByteArray → List String × Bool) (source : Source) (session : Session) :
    List Reason × Confidence :=
  let reasons := checkpointReasons session.checkpoint ++ taskReasons session.taskState
  match source with
  | .opencode => finish (reasons ++ session.stored)
  | .mcode => finish (reasons ++ session.stored)
  | .grok => finish (reasons ++ grokReasons parse (read session.transcript) (session.events.map read))
  | source => finish (reasons ++ tailReasons parse source (read session.transcript))

/-- `inspect_structural_evidence`. -/
def inspectStructuralEvidence : Source → Session → List Reason × Confidence := inspectWith parse boundedTailLines

/-- The same inspection over every line. -/
def inspectAll : Source → Session → List Reason × Confidence :=
  inspectWith parse fun content => (fileLines content, false)

end Innen.Conversation.Unfinished
