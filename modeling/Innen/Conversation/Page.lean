import Innen.Json.Text

/-!
# Pages of a conversation

The reader returns the events of a recorded session page by page. Everything behind it works on such a
page.
-/

namespace Innen.Conversation

open Innen.Common

/-- An error of the conversation readers, which is a message. -/
structure ReadError where
  message : String
deriving DecidableEq

/-- Where a session was recorded. -/
inductive Source where
  | antigravity | codex | claude | gemini | mcode | opencode | grok | copilot | cursor | vscode | qwen
deriving DecidableEq

/-- `Source::as_str`, also its text in JSON. -/
def Source.asStr : Source → String
  | .antigravity => "antigravity"
  | .codex => "codex"
  | .claude => "claude"
  | .gemini => "gemini"
  | .mcode => "mcode"
  | .opencode => "opencode"
  | .grok => "grok"
  | .copilot => "copilot"
  | .cursor => "cursor"
  | .vscode => "vscode"
  | .qwen => "qwen"

/-- What is shown of a session. -/
inductive View where
  | dialogue | events | index | context
deriving DecidableEq

/-- The name of a view. -/
def View.asStr : View → String
  | .dialogue => "dialogue"
  | .events => "events"
  | .index => "index"
  | .context => "context"

/-- The view of a name. -/
def View.parse? (name : String) : Option View :=
  [View.dialogue, .events, .index, .context].find? fun view => view.asStr = name

/-- An event with its place in the source, counted from 1. -/
structure Record where
  line : ℕ
  event : Value
deriving DecidableEq

/-- What one read returns. -/
structure Page where
  sessionId : String
  source : Source
  sourcePath : String
  view : View
  offset : ℕ
  nextOffset : Option ℕ
  records : List Record
  warnings : List String
deriving DecidableEq

end Innen.Conversation
