import Innen.Conversation.Unfinished.Evidence

/-!
# The marks of events

What one event adds to the signals does not depend on them (`step_eq_mark`), so a signal is the newest line with its mark
(`scan_eq`). Behind older lines, the newest line with a mark is that of the newer lines, if they have one
(`newest_append`).
-/

namespace Innen.Conversation.Unfinished

open Common

/-! ## The newest line with a mark -/

/-- The newest of some lines that has a value, and the value. -/
def newest {α β : Type*} (value : α → Option β) (ls : List α) : Option (β × ℕ) :=
  ls.zipIdx.foldl (fun found (l, i) => match value l with
    | some b => some (b, i)
    | none => found) none

theorem foldl_zipIdx_concat {α σ : Type*} (f : σ → α × ℕ → σ) (s : σ) (ls : List α) (l : α) :
    (ls ++ [l]).zipIdx.foldl f s = f (ls.zipIdx.foldl f s) (l, ls.length) := by
  rw [List.zipIdx_append, List.foldl_append, List.zipIdx_singleton, List.foldl_cons, List.foldl_nil, Nat.zero_add]

variable {α β : Type*} {value : α → Option β}

theorem newest_nil : newest value [] = none := rfl

theorem newest_concat (ls : List α) (l : α) :
    newest value (ls ++ [l]) = ((value l).map fun b => (b, ls.length)).or (newest value ls) := by
  rw [newest, foldl_zipIdx_concat]
  dsimp only
  rcases value l with _ | b <;> rfl

/-- Behind older lines, the newest line is one of the newer lines, if they have one. -/
theorem newest_append (old new : List α) : newest value (old ++ new) =
    ((newest value new).map fun found => (found.1, old.length + found.2)).or (newest value old) := by
  induction new using List.reverseRecOn with
  | nil => rw [List.append_nil, newest_nil, Option.map_none, Option.none_or]
  | append_singleton new l ih =>
    rw [← List.append_assoc, newest_concat, newest_concat, ih, List.length_append]
    rcases value l with _ | b <;> rfl

theorem newest_lt {ls : List α} {b : β} {i : ℕ} (h : newest value ls = some (b, i)) : i < ls.length := by
  induction ls using List.reverseRecOn with
  | nil => cases h
  | append_singleton ls l ih =>
    rw [newest_concat] at h
    rw [List.length_append, List.length_singleton]
    rcases hl : value l with _ | c
    · rw [hl, Option.map_none, Option.none_or] at h
      exact Nat.lt_succ_of_lt (ih h)
    · rw [hl, Option.map_some, Option.some_or] at h
      obtain ⟨-, rfl⟩ := Prod.mk.inj (Option.some.inj h)
      exact Nat.lt_succ_self _

/-- No line has a value iff there is no newest one. -/
theorem newest_eq_none {ls : List α} : newest value ls = none ↔ ∀ l ∈ ls, value l = none := by
  induction ls using List.reverseRecOn with
  | nil => simp [newest_nil]
  | append_singleton ls l ih =>
    rw [newest_concat, Option.or_eq_none_iff, Option.map_eq_none_iff, ih]
    constructor
    · rintro ⟨hl, hls⟩ m hm
      rcases List.mem_append.mp hm with hm | hm
      · exact hls m hm
      · rw [List.mem_singleton.mp hm]
        exact hl
    · exact fun h => ⟨h l (by simp), fun m hm => h m (List.mem_append_left _ hm)⟩

/-- The newest of some lines with a mark. -/
def newestAt {α : Type*} (mark : α → Bool) (ls : List α) : Option ℕ :=
  (newest (fun l => if mark l then some () else none) ls).map Prod.snd

theorem newestAt_nil {mark : α → Bool} : newestAt mark [] = none := rfl

theorem newestAt_concat {mark : α → Bool} (ls : List α) (l : α) :
    newestAt mark (ls ++ [l]) = if mark l then some ls.length else newestAt mark ls := by
  rw [newestAt, newest_concat]
  cases mark l <;> rfl

theorem newestAt_append {mark : α → Bool} (old new : List α) :
    newestAt mark (old ++ new) = ((newestAt mark new).map (old.length + ·)).or (newestAt mark old) := by
  rw [newestAt, newest_append, Option.map_or, Option.map_map, newestAt, Option.map_map, newestAt]
  rfl

theorem newestAt_lt {mark : α → Bool} {ls : List α} {i : ℕ} (h : newestAt mark ls = some i) : i < ls.length := by
  obtain ⟨⟨b, j⟩, hfound, rfl⟩ := Option.map_eq_some_iff.mp h
  exact newest_lt hfound

theorem newestAt_eq_none {mark : α → Bool} {ls : List α} : newestAt mark ls = none ↔ ∀ l ∈ ls, mark l = false := by
  rw [newestAt, Option.map_eq_none_iff, newest_eq_none]
  exact forall₂_congr fun l _ => by simp

/-! ## Marks -/

/-- What an event shows. -/
structure Marks where
  user : Bool
  assistant : Bool
  exitCode : Option ℤ
  interrupted : Bool
  turnStart : Bool
  toolFailure : Bool
  toolSuccess : Bool
  turnCompleted : Bool
  stepStatus : Option String
  stop : Option String
deriving DecidableEq

/-- No mark. -/
def Marks.none : Marks := ⟨false, false, .none, false, false, false, false, false, .none, .none⟩

/-- The marks of an event of a source. -/
def marks (source : Source) (event : Value) : Marks :=
  let ty := textAt event "type"
  match source with
  | .copilot =>
    let success := ((event.index "data").index "success").asBool?
    { Marks.none with
      user := ty = "user.message"
      assistant := ty = "assistant.message"
      turnStart := ty = "assistant.turn_start"
      turnCompleted := ty = "assistant.turn_end"
      interrupted := ty = "abort"
      toolFailure := ty = "tool.execution_complete" ∧ success = some false
      toolSuccess := ty = "tool.execution_complete" ∧ success = some true }
  | .antigravity =>
    let status := textAt event "status"
    { Marks.none with
      interrupted := status = "CANCELLED" ∨ status = "ERROR"
      stepStatus := if status ≠ "" then some status else .none
      user := ty = "USER_INPUT"
      assistant := ty = "PLANNER_RESPONSE" ∧ ((event.index "content").asStr?.any fun text => trim text ≠ "") = true }
  | .codex =>
    let payload := event.index "payload"
    let payloadType := textAt payload "type"
    { Marks.none with
      turnCompleted := ty = "event_msg" ∧ payloadType = "task_complete"
      interrupted := (ty = "event_msg" ∧ (payloadType = "turn_aborted" ∨ payloadType = "error")) ∨
        textAt event "status" = "cancelled"
      user := ty = "response_item" ∧ payloadType = "message" ∧ textAt payload "role" = "user"
      assistant := ty = "response_item" ∧ payloadType = "message" ∧ textAt payload "role" = "assistant"
      exitCode := if ty = "response_item" ∧ (payloadType = "function_call_output" ∨
        payloadType = "custom_tool_call_output") then extractExitCode (payload.index "output") else .none }
  | .claude =>
    let message := event.index "message"
    if (event.get? "isSidechain").bind Value.asBool? = some true then Marks.none
    else
      { Marks.none with
        interrupted := (event.get? "isApiErrorMessage").bind Value.asBool? = some true
        user := textAt message "role" = "user"
        assistant := textAt message "role" = "assistant"
        stop := if textAt message "role" = "assistant" then (message.index "stop_reason").asStr? else .none }
  | _ =>
    let role := (event.get? "role").bind Value.asStr?
    { Marks.none with user := role = some "user", assistant := role = some "assistant" }

/-- The signals with the marks of a line. -/
def Signals.mark (s : Signals) (i : ℕ) (m : Marks) : Signals where
  lastUser := if m.user then some i else s.lastUser
  lastAssistant := if m.assistant then some i else s.lastAssistant
  lastExitCode := m.exitCode.elim s.lastExitCode fun code => if code ≠ 0 then some code else none
  exit := m.exitCode.elim s.exit fun code => if code ≠ 0 then some i else none
  interrupted := if m.interrupted then some i else s.interrupted
  turnStart := if m.turnStart then some i else s.turnStart
  toolFailure := if m.toolFailure then some i else s.toolFailure
  toolSuccess := if m.toolSuccess then some i else s.toolSuccess
  turnCompleted := if m.turnCompleted then some i else s.turnCompleted
  lastStepStatus := (m.stepStatus.map fun status => (status, i)).or s.lastStepStatus
  lastAssistantStop := (m.stop.map fun stop => (stop, i)).or s.lastAssistantStop

theorem Signals.mark_none (s : Signals) (i : ℕ) : s.mark i Marks.none = s := rfl

theorem copilotStep_eq_mark (i : ℕ) (event : Value) (s : Signals) :
    copilotStep i event s = s.mark i (marks .copilot event) := by
  unfold copilotStep
  delta marks
  dsimp only
  generalize textAt event "type" = ty
  generalize ((event.index "data").index "success").asBool? = success
  by_cases huser : ty = "user.message"
  · subst huser
    simp [Signals.mark, Marks.none]
  by_cases hassistant : ty = "assistant.message"
  · subst hassistant
    simp [Signals.mark, Marks.none]
  by_cases hstart : ty = "assistant.turn_start"
  · subst hstart
    simp [Signals.mark, Marks.none]
  by_cases hend : ty = "assistant.turn_end"
  · subst hend
    simp [Signals.mark, Marks.none]
  by_cases habort : ty = "abort"
  · subst habort
    simp [Signals.mark, Marks.none]
  by_cases htool : ty = "tool.execution_complete"
  · subst htool
    rcases success with _ | _ | _ <;> simp [Signals.mark, Marks.none]
  · simp [Signals.mark, Marks.none, huser, hassistant, hstart, hend, habort, htool]

theorem antigravityStep_eq_mark (i : ℕ) (event : Value) (s : Signals) :
    antigravityStep i event s = s.mark i (marks .antigravity event) := by
  unfold antigravityStep
  delta marks
  dsimp only
  generalize textAt event "type" = ty
  generalize textAt event "status" = status
  generalize (event.index "content").asStr?.any (fun text => trim text ≠ "") = hasText
  have hstatus : status = "CANCELLED" ∨ status = "ERROR" → status ≠ "" := by
    rintro (rfl | rfl) <;> decide
  by_cases huser : ty = "USER_INPUT"
  · subst huser
    by_cases hbad : status = "CANCELLED" ∨ status = "ERROR"
    · simp [Signals.mark, Marks.none, hbad, hstatus hbad]
    · by_cases hnone : status = "" <;> simp [Signals.mark, Marks.none, hbad, hnone]
  by_cases hplan : ty = "PLANNER_RESPONSE"
  · subst hplan
    by_cases hbad : status = "CANCELLED" ∨ status = "ERROR"
    · cases hasText <;> simp [Signals.mark, Marks.none, hbad, hstatus hbad]
    · by_cases hnone : status = "" <;> cases hasText <;> simp [Signals.mark, Marks.none, hbad, hnone]
  · by_cases hbad : status = "CANCELLED" ∨ status = "ERROR"
    · simp [Signals.mark, Marks.none, hbad, hstatus hbad, huser, hplan]
    · by_cases hnone : status = "" <;> simp [Signals.mark, Marks.none, hbad, hnone, huser, hplan]

theorem claudeStep_eq_mark (i : ℕ) (event : Value) (s : Signals) :
    claudeStep i event s = s.mark i (marks .claude event) := by
  unfold claudeStep
  delta marks
  dsimp only
  generalize textAt (event.index "message") "role" = role
  generalize ((event.index "message").index "stop_reason").asStr? = stop
  by_cases hside : (event.get? "isSidechain").bind Value.asBool? = some true
  · rw [if_pos hside, if_pos hside, Signals.mark_none]
  · rw [if_neg hside, if_neg hside]
    generalize (event.get? "isApiErrorMessage").bind Value.asBool? = failed
    by_cases huser : role = "user"
    · subst huser
      by_cases hfailed : failed = some true <;> simp [Signals.mark, Marks.none, hfailed]
    by_cases hassistant : role = "assistant"
    · subst hassistant
      by_cases hfailed : failed = some true <;> rcases stop with _ | stop <;> simp [Signals.mark, Marks.none, hfailed]
    · by_cases hfailed : failed = some true <;> simp [Signals.mark, Marks.none, hfailed, huser, hassistant]

theorem otherStep_eq_mark (i : ℕ) (event : Value) (s : Signals) :
    otherStep i event s = s.mark i (marks .gemini event) := by
  unfold otherStep
  rw [marks]
  · generalize (event.get? "role").bind Value.asStr? = role
    rcases role with _ | role
    · simp [Signals.mark, Marks.none]
    · by_cases huser : role = "user"
      · subst huser
        simp [Signals.mark, Marks.none]
      by_cases hassistant : role = "assistant"
      · subst hassistant
        simp [Signals.mark, Marks.none]
      · simp [Signals.mark, Marks.none, huser, hassistant]
  all_goals simp

theorem codexStep_eq_mark (i : ℕ) (event : Value) (s : Signals) :
    codexStep i event s = s.mark i (marks .codex event) := by
  rw [marks]
  by_cases hmsg : textAt event "type" = "event_msg"
  · by_cases hcomplete : textAt (event.index "payload") "type" = "task_complete"
    · by_cases hcancel : textAt event "status" = "cancelled" <;>
        simp [codexStep, Signals.mark, Marks.none, hcancel, hmsg, hcomplete]
    · by_cases hbad : textAt (event.index "payload") "type" = "turn_aborted" ∨
          textAt (event.index "payload") "type" = "error" <;>
        by_cases hcancel : textAt event "status" = "cancelled" <;>
        simp [codexStep, Signals.mark, Marks.none, hcancel, hmsg, hcomplete, hbad]
  by_cases hitem : textAt event "type" = "response_item"
  · by_cases hmessage : textAt (event.index "payload") "type" = "message"
    · by_cases huser : textAt (event.index "payload") "role" = "user"
      · by_cases hcancel : textAt event "status" = "cancelled" <;>
          simp [codexStep, Signals.mark, Marks.none, hcancel, hitem, hmessage, huser]
      · by_cases hassistant : textAt (event.index "payload") "role" = "assistant" <;>
          by_cases hcancel : textAt event "status" = "cancelled" <;>
          simp [codexStep, Signals.mark, Marks.none, hcancel, hitem, hmessage, huser, hassistant]
    · by_cases houtput : textAt (event.index "payload") "type" = "function_call_output" ∨
          textAt (event.index "payload") "type" = "custom_tool_call_output"
      · rcases hcode : extractExitCode ((event.index "payload").index "output") with _ | code
        · by_cases hcancel : textAt event "status" = "cancelled" <;>
            simp [codexStep, Signals.mark, Marks.none, hcancel, hitem, hmessage, houtput, hcode]
        · by_cases hzero : code = 0 <;> by_cases hcancel : textAt event "status" = "cancelled" <;>
            simp [codexStep, Signals.mark, Marks.none, hcancel, hitem, hmessage, houtput, hcode, hzero]
      · by_cases hcancel : textAt event "status" = "cancelled" <;>
          simp [codexStep, Signals.mark, Marks.none, hcancel, hitem, hmessage, houtput]
  · by_cases hcancel : textAt event "status" = "cancelled" <;>
      simp [codexStep, Signals.mark, Marks.none, hcancel, hmsg, hitem]

/-- What an event adds to the signals are its marks. -/
theorem step_eq_mark (source : Source) (i : ℕ) (event : Value) (s : Signals) :
    step source i event s = s.mark i (marks source event) := by
  cases source with
  | copilot => exact copilotStep_eq_mark i event s
  | antigravity => exact antigravityStep_eq_mark i event s
  | codex => exact codexStep_eq_mark i event s
  | claude => exact claudeStep_eq_mark i event s
  | _ => exact otherStep_eq_mark i event s

-- `parse` is `serde_json::from_str`.
variable (parse : String → Option Value)

/-- The marks of a line. -/
def lineMarks (source : Source) (line : String) : Marks := ((parse line).map (marks source)).getD Marks.none

/-- The signals of lines: the newest line with each mark. -/
def signalsOf (source : Source) (ls : List String) : Signals where
  lastUser := newestAt (fun l => (lineMarks parse source l).user) ls
  lastAssistant := newestAt (fun l => (lineMarks parse source l).assistant) ls
  lastExitCode := (newest (fun l => (lineMarks parse source l).exitCode) ls).bind fun found =>
    if found.1 ≠ 0 then some found.1 else none
  exit := (newest (fun l => (lineMarks parse source l).exitCode) ls).bind fun found =>
    if found.1 ≠ 0 then some found.2 else none
  interrupted := newestAt (fun l => (lineMarks parse source l).interrupted) ls
  turnStart := newestAt (fun l => (lineMarks parse source l).turnStart) ls
  toolFailure := newestAt (fun l => (lineMarks parse source l).toolFailure) ls
  toolSuccess := newestAt (fun l => (lineMarks parse source l).toolSuccess) ls
  turnCompleted := newestAt (fun l => (lineMarks parse source l).turnCompleted) ls
  lastStepStatus := newest (fun l => (lineMarks parse source l).stepStatus) ls
  lastAssistantStop := newest (fun l => (lineMarks parse source l).stop) ls

theorem signalsOf_concat (source : Source) (ls : List String) (l : String) :
    signalsOf parse source (ls ++ [l]) = (signalsOf parse source ls).mark ls.length (lineMarks parse source l) := by
  simp only [signalsOf, Signals.mark, newestAt_concat, newest_concat]
  rcases (lineMarks parse source l).exitCode with _ | code <;> rfl

/-- The fold over lines finds the newest line with each mark. -/
theorem scan_eq (source : Source) (ls : List String) : scan parse source ls = signalsOf parse source ls := by
  induction ls using List.reverseRecOn with
  | nil => rfl
  | append_singleton ls l ih =>
    rw [signalsOf_concat, ← ih, scan, foldl_zipIdx_concat]
    dsimp only
    rw [lineMarks]
    rcases parse l with _ | event
    · rfl
    · exact step_eq_mark source ls.length event _

/-! ## Grok -/

/-- Whether a line of the conversation stream of Grok is of a speaker. -/
def isTalk (speaker line : String) : Bool := (parse line).any fun event => textAt event "type" = speaker

/-- Whether a line of the runtime stream of Grok begins a turn. -/
def isLoopStart (line : String) : Bool := (parse line).any fun event => textAt event "type" = "loop_started"

/-- The outcome of the turn that a line of the runtime stream of Grok ends. -/
def turnOutcome (line : String) : Option String :=
  (parse line).bind fun event => if textAt event "type" = "turn_ended" then some (textAt event "outcome") else none

/-- Whether a line of the runtime stream of Grok tells the outcome of a tool. -/
def isToolOutcome (outcome line : String) : Bool :=
  (parse line).any fun event => textAt event "type" = "tool_completed" ∧ textAt event "outcome" = outcome

theorem grokTalk_eq (ls : List String) :
    grokTalk parse ls = (newestAt (isTalk parse "user") ls, newestAt (isTalk parse "assistant") ls) := by
  induction ls using List.reverseRecOn with
  | nil => rfl
  | append_singleton ls l ih =>
    rw [grokTalk] at ih ⊢
    rw [foldl_zipIdx_concat, ih, newestAt_concat, newestAt_concat]
    dsimp only
    rw [isTalk, isTalk]
    rcases parse l with _ | event
    · rfl
    · by_cases huser : textAt event "type" = "user"
      · simp [huser]
      · by_cases hassistant : textAt event "type" = "assistant" <;> simp [huser, hassistant]

theorem grokScan_eq (ls : List String) : grokScan parse ls = {
    turnEnd := (newest (turnOutcome parse) ls).map Prod.swap
    loopStarted := newestAt (isLoopStart parse) ls
    toolFailed := newestAt (isToolOutcome parse "error") ls
    toolSucceeded := newestAt (isToolOutcome parse "success") ls } := by
  induction ls using List.reverseRecOn with
  | nil => rfl
  | append_singleton ls l ih =>
    rw [grokScan] at ih ⊢
    rw [foldl_zipIdx_concat, ih, newest_concat, newestAt_concat, newestAt_concat, newestAt_concat]
    dsimp only
    rw [turnOutcome, isLoopStart, isToolOutcome, isToolOutcome]
    rcases parse l with _ | event
    · rfl
    · by_cases hend : textAt event "type" = "turn_ended"
      · simp [grokStep, hend]
      by_cases hstart : textAt event "type" = "loop_started"
      · simp [grokStep, hstart]
      by_cases htool : textAt event "type" = "tool_completed"
      · by_cases hbad : textAt event "outcome" = "error"
        · simp [grokStep, htool, hbad]
        · by_cases hgood : textAt event "outcome" = "success" <;> simp [grokStep, htool, hbad, hgood]
      · simp [grokStep, hend, hstart, htool]

end Innen.Conversation.Unfinished
