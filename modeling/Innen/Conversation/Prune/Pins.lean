import Innen.Conversation.Prune.Apply
import Innen.Json.Text
import Mathlib.Algebra.Group.Int.Defs

/-!
# Prune: the pins

User and assistant messages, outputs that report a failure and the newest records are meant to be pinned.
The newest records are. The others are as long as none of them is taken for the output of a successful call
that went stale (`pinsKept_iff`).
-/

namespace Innen.Conversation.Prune

open Innen.Common

/-! ## Messages -/

/-- `projection::dialogue::text`: the text of a content. -/
def messageText : Value → String
  | .string s => s
  | .array parts => "\n".intercalate (parts.filterMap fun part =>
      if (textOf (part.get? "type")).getD "text" ∈ ["text", "input_text", "output_text"] ∧
          part.get? "thought" ≠ some (.bool true) then textOf (part.get? "text")
      else none)
  | _ => ""

/-- The roles of a dialogue. -/
def isSpeaker (role : Option String) : Bool := role = some "user" ∨ role = some "assistant"

/-- A user input or a response of Antigravity. -/
def isAntigravityMessage (ev : Value) : Bool :=
  (textOf (ev.get? "type") = some "USER_INPUT" ∨ textOf (ev.get? "type") = some "PLANNER_RESPONSE") ∧
    messageText (ev.index "content") ≠ ""

/-- A message of Codex. -/
def isCodexMessage (ev : Value) : Bool :=
  textOf (ev.get? "type") = some "response_item" ∧ textOf (pointer2 ev "payload" "type") = some "message" ∧
    isSpeaker (textOf (pointer2 ev "payload" "role")) ∧ messageText ((ev.index "payload").index "content") ≠ ""

/-- A message of Claude, or one that is projected already. -/
def isClaudeMessage (ev : Value) : Bool :=
  let node := (ev.get? "message").getD ev
  isSpeaker (textOf (((node.get? "role").or (ev.get? "role")).or (ev.get? "type"))) ∧
    messageText (node.index "content") ≠ ""

/-- A user or assistant message, natively or in one of the views. -/
def isMessage (ev : Value) : Bool :=
  isAntigravityMessage ev ∨ isCodexMessage ev ∨ isClaudeMessage ev ∨ isSpeaker (textOf (ev.get? "kind"))

/-! ## Failures -/

/-- The library functions that the exit status is read with. -/
structure ExitReader where
  /-- `serde_json::from_str::<Value>`. -/
  parseJson : String → Option Value
  /-- Whether a text is a finite `f64` that is not negative. -/
  isSeconds : String → Bool
  /-- The text of an `f64`. -/
  floatText : UInt64 → String

/-- A number in decimal digits. -/
def parseDigits (cs : List Char) : Option ℤ :=
  if cs ≠ [] ∧ cs.all Char.isDigit then
    some (cs.foldl (fun n c => 10 * n + ((c.toNat - '0'.toNat : ℕ) : ℤ)) 0) else none

/-- Whether a number is an `i32`. -/
def isI32 (n : ℤ) : Bool := -(2 ^ 31 : ℤ) ≤ n ∧ n < 2 ^ 31

/-- `str::parse::<i32>`. -/
def parseI32 (s : String) : Option ℤ :=
  (match s.toList with
    | '-' :: cs => (parseDigits cs).map fun n => -n
    | '+' :: cs => parseDigits cs
    | cs => parseDigits cs).filter isI32

/-- Whether the first text of an output is only its prologue. -/
def isPrologue (X : ExitReader) (first : String) : Bool :=
  (((stripStart first "Script completed\nWall time ").bind fun s => stripEnd s " seconds\nOutput:\n")).any
    X.isSeconds

/-- The text of an output, whatever it is. -/
def outputBody (X : ExitReader) (content : Value) : String :=
  match content with
  | .array parts =>
    let texts := parts.filterMap fun p => textOf (p.get? "text")
    let texts := if texts.head?.any (isPrologue X) then texts.tail else texts
    let text := "\n".intercalate texts
    if text = "" then content.toText X.floatText else text
  | .string s => s
  | v => v.toText X.floatText

/-- Whether a value is a number. -/
def isNumber : Value → Bool
  | .number _ => true
  | _ => false

/-- The exit code in the header of an output. -/
def headerCode (rows : List String) : Option ℤ :=
  match rows with
  | [row₀, row₁, row₂, row₃] =>
    if startsWith row₀ "Chunk ID: " ∧ startsWith row₁ "Wall time: " ∧ startsWith row₃ "Original token count: " then
      (stripStart row₂ "Process exited with code ").bind parseI32
    else none
  | [row₀, row₁] =>
    if startsWith row₁ "Wall time: " then (stripStart row₀ "Exit code: ").bind parseI32 else none
  | _ => none

/-- The output and the exit code in a JSON body. -/
def jsonPreview (value : Value) : Option (String × Option ℤ) :=
  if (value.get? "wall_time_seconds").any isNumber then
    match ((value.get? "exit_code").bind Value.asI64?).filter isI32, textOf (value.get? "output") with
    | some code, some output => some (output, some code)
    | _, _ => none
  else none

/-- The output and the exit code behind a header. -/
def headerPreview (body : String) : Option (String × Option ℤ) :=
  (splitOnce body "\nOutput:\n").bind fun p => (headerCode (lines p.1)).map fun code => (p.2, some code)

/-- `tool_preview`: the text of an output and the exit code it reports. -/
def toolPreview (X : ExitReader) (content : Value) : String × Option ℤ :=
  let body := outputBody X content
  (((X.parseJson body).bind jsonPreview).or (headerPreview body)).getD (body, none)

/-- Whether a part of a message is a result that reports an error. -/
def isErrorResult (part : Value) : Bool :=
  textOf (part.get? "type") = some "tool_result" ∧ (part.get? "is_error").bind Value.asBool? = some true

/-- A raw Codex output whose text reports a nonzero exit code. -/
def payloadFails (X : ExitReader) (ev : Value) : Bool :=
  textOf (pointer2 ev "payload" "type") = some "function_call_output" ∧
    (toolPreview X ((ev.index "payload").index "output")).2.any (· ≠ 0)

/-- A tool output that reports failure: a nonzero exit code, projected or in a Codex payload, or an error
result of Claude. -/
def reportsFailure (X : ExitReader) (ev : Value) : Bool :=
  ((ev.get? "reported_exit_code").bind Value.asI64?).any (· ≠ 0) ∨ (messageParts ev).any isErrorResult ∨
    payloadFails X ev

/-- What is never to be pruned, however old. -/
def isPinned (X : ExitReader) (ev : Value) : Bool := isMessage ev ∨ reportsFailure X ev

/-! ## What pruning keeps -/

/-- The pins of a page are kept. -/
structure PinsKept (X : ExitReader) (page : Page) (options : PruneOptions) : Prop where
  lines : (prunePage X.parseJson page options).1.records.map Record.line = page.records.map Record.line
  recent : ∀ i, page.records.length - options.preserveRecent ≤ i →
    (prunePage X.parseJson page options).1.records[i]? = page.records[i]?
  messages : ∀ (i : ℕ) (r : Record), page.records[i]? = some r → isMessage r.event = true →
    (prunePage X.parseJson page options).1.records[i]? = some r
  failures : ∀ (i : ℕ) (r : Record), page.records[i]? = some r → reportsFailure X r.event = true →
    (prunePage X.parseJson page options).1.records[i]? = some r

variable (parseJson : String → Option Value)

/-- A tool of a page whose output is stale. -/
def StaleOutput (page : Page) (options : PruneOptions) (t : PairedTool) (reason : String) : Prop :=
  Stale (fileWrites parseJson page.records) (keepThreshold page.records options)
    (pairedTools parseJson page.records) t reason

theorem nodup_pairedTools (records : List Record) :
    ((pairedTools parseJson records).map PairedTool.outputIdx).Nodup :=
  nodup_pairCallsWithOutputs _ _

/-- A record is replaced when it is the output of a stale tool. -/
theorem get?_pruneOutcome {page : Page} {options : PruneOptions} {i : ℕ} {d : String × ℕ} :
    (pruneOutcome parseJson page.records options).decisions.get? i = some d ↔
      ∃ t, t.outputIdx = i ∧ t.originalChars = d.2 ∧ StaleOutput parseJson page options t d.1 :=
  get?_decisions (nodup_pairedTools parseJson page.records)

/-- Nothing that is kept is stale. -/
theorem Stale.not_kept {fileWrites : SortedMap String (List (ℕ × ℕ))} {keep : ℕ} {paired : List PairedTool}
    {t : PairedTool} {reason : String} (h : Stale fileWrites keep paired t reason) :
    t.isError = false ∧ t.outputIdx < keep := by
  obtain ⟨pre, post, -, hreason⟩ := h
  rw [staleReason] at hreason
  split at hreason
  · cases hreason
  · rename_i hkeep
    simpa [PairedTool.isKept] using hkeep

/-- The newest records are never decided on. -/
theorem get?_pruneOutcome_recent {page : Page} {options : PruneOptions} {i : ℕ}
    (h : page.records.length - options.preserveRecent ≤ i) :
    (pruneOutcome parseJson page.records options).decisions.get? i = none := by
  cases hd : (pruneOutcome parseJson page.records options).decisions.get? i with
  | none => rfl
  | some d =>
    obtain ⟨t, rfl, -, hstale⟩ := (get?_pruneOutcome parseJson).mp hd
    exact absurd hstale.not_kept.2 (Nat.not_lt.mpr h)

theorem lines_prunePage (page : Page) (options : PruneOptions) :
    (prunePage parseJson page options).1.records.map Record.line = page.records.map Record.line := by
  refine List.ext_getElem? fun i => ?_
  rw [List.getElem?_map, List.getElem?_map, getElem?_prunePage, Option.map_map]
  exact congrArg (fun f => page.records[i]?.map f) (funext fun r => omitRecord_line _ r)

theorem recent_prunePage (page : Page) (options : PruneOptions) {i : ℕ}
    (h : page.records.length - options.preserveRecent ≤ i) :
    (prunePage parseJson page options).1.records[i]? = page.records[i]? := by
  rw [getElem?_prunePage, get?_pruneOutcome_recent parseJson h]
  cases page.records[i]? <;> rfl

/-- A record is unchanged unless it is a stale output, and then when it carries the marks already. -/
theorem unchanged_iff (page : Page) (options : PruneOptions) {i : ℕ} {r : Record} (hr : page.records[i]? = some r) :
    (prunePage parseJson page options).1.records[i]? = some r ↔
      ∀ t reason, StaleOutput parseJson page options t reason → t.outputIdx = i →
        omitEvent reason t.originalChars r.event = r.event := by
  rw [getElem?_prunePage, hr, Option.map_some, Option.some.injEq]
  constructor
  · intro h t reason hstale hidx
    have hd := (get?_pruneOutcome parseJson (d := (reason, t.originalChars))).mpr ⟨t, hidx, rfl, hstale⟩
    rw [hd] at h
    exact congrArg Record.event h
  · intro h
    cases hd : (pruneOutcome parseJson page.records options).decisions.get? i with
    | none => rfl
    | some d =>
      obtain ⟨t, hidx, hchars, hstale⟩ := (get?_pruneOutcome parseJson).mp hd
      have hevent := h t d.1 hstale hidx
      rw [hchars] at hevent
      show ({ r with event := omitEvent d.1 d.2 r.event } : Record) = r
      rw [hevent]

/-- The pins of a page are kept as long as none of them is taken for a stale output of a successful call. -/
theorem pinsKept_iff (X : ExitReader) (page : Page) (options : PruneOptions) :
    PinsKept X page options ↔
      ∀ (t : PairedTool) (reason : String) (r : Record), StaleOutput X.parseJson page options t reason → page.records[t.outputIdx]? = some r →
        isPinned X r.event = true → omitEvent reason t.originalChars r.event = r.event := by
  constructor
  · intro h t reason r hstale hr hpinned
    have hsame : (prunePage X.parseJson page options).1.records[t.outputIdx]? = some r := by
      rcases of_decide_eq_true hpinned with hmessage | hfailure
      · exact h.messages _ r hr hmessage
      · exact h.failures _ r hr hfailure
    exact (unchanged_iff X.parseJson page options hr).mp hsame t reason hstale rfl
  · intro h
    have hpins : ∀ (i : ℕ) (r : Record), page.records[i]? = some r → isPinned X r.event = true →
        (prunePage X.parseJson page options).1.records[i]? = some r := by
      intro i r hr hpinned
      refine (unchanged_iff X.parseJson page options hr).mpr ?_
      rintro t reason hstale rfl
      exact h t reason r hstale hr hpinned
    exact ⟨lines_prunePage X.parseJson page options, fun i => recent_prunePage X.parseJson page options,
      fun i r hr hmessage => hpins i r hr (decide_eq_true (.inl hmessage)),
      fun i r hr hfailure => hpins i r hr (decide_eq_true (.inr hfailure))⟩

/-! ## A user input that is taken for an output -/

/-- A search, then what the user answers, then some more responses. -/
def answeredSearch : Page where
  sessionId := "s"
  source := .antigravity
  sourcePath := "s.jsonl"
  view := .events
  offset := 0
  nextOffset := none
  records := [
    ⟨1, .object [("tool_calls", .array [.object [("args", .object [("Query", .string "TODO")]),
      ("name", .string "grep_search")]]), ("type", .string "PLANNER_RESPONSE")]⟩,
    ⟨2, .object [("content", .string "I want 0 matches here."), ("type", .string "USER_INPUT")]⟩,
    ⟨3, .object [("content", .string "a"), ("type", .string "PLANNER_RESPONSE")]⟩,
    ⟨4, .object [("content", .string "b"), ("type", .string "PLANNER_RESPONSE")]⟩,
    ⟨5, .object [("content", .string "c"), ("type", .string "PLANNER_RESPONSE")]⟩,
    ⟨6, .object [("content", .string "d"), ("type", .string "PLANNER_RESPONSE")]⟩]
  warnings := []

/-- Libraries that the page does not need. -/
def noExits : ExitReader := ⟨fun _ => none, fun _ => false, fun _ => ""⟩

/-- The instruction of the user is replaced by a note. -/
theorem user_input_pruned : ¬PinsKept noExits answeredSearch {} := by
  intro h
  have hkept := h.messages 1 _ rfl (by decide)
  have hpruned : (prunePage noExits.parseJson answeredSearch {}).1.records[1]?.bind
      (fun r => textOf (r.event.get? "content")) =
      some "[tool output omitted: search for 'TODO' returned 0 matches]" := by decide +kernel
  rw [hkept] at hpruned
  exact absurd hpruned (by decide)

end Innen.Conversation.Prune
