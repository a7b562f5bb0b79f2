import Innen.Json.Value

/-!
# Installing hooks into an agent's settings

An agent keeps its hooks in a JSON file that it shares with the user. The installer reads the file, takes out the handlers
that an earlier install left, puts its own in and writes the file. Handlers of an earlier install are told by a marker in
their command.
-/

namespace Innen.Hook

open Common

/-! ## Commands -/

/-- What the commands are built from. -/
structure Env where
  /-- `char::is_alphanumeric`. -/
  isAlphanumeric : Char → Bool
  /-- `std::env::current_exe`, if it is known. -/
  executable : Option String
  kb : String

/-- `shell_quote`. -/
def shellQuote (isAlphanumeric : Char → Bool) (s : String) : String :=
  if s.toList.all fun c => isAlphanumeric c || "-_./:=,".toList.contains c then s
  else "\"" ++ String.ofList (s.toList.flatMap fun c => if c = '"' then ['\\', '"'] else [c]) ++ "\""

/-- The program that a hook calls. -/
def Env.program (env : Env) : String := env.executable.elim "innen" (shellQuote env.isAlphanumeric)

/-- `run_command`. -/
def runCommand (env : Env) (event : String) : String :=
  env.program ++ " hook run --event " ++ event ++ " --kb-root " ++ shellQuote env.isAlphanumeric env.kb

/-- `pending_command`. -/
def pendingCommand (env : Env) : String :=
  env.program ++ " hook pending --root " ++ shellQuote env.isAlphanumeric env.kb

/-- `command_handler`, its fields in the order of the map. -/
def commandHandler (command : String) (timeout : Option ℕ) : Value :=
  .object (("command", .string command) :: (timeout.toList.map fun t => ("timeout", .nat t)) ++
    [("type", .string "command")])

/-! ## Settings -/

/-- `obj_mut`: what is no object becomes an empty one. -/
def objMut (v : Value) : Value := if v.asObject?.isSome then v else .object []

/-- The command of a handler. -/
def commandOf (handler : Value) : Option String := (handler.get? "command").bind Value.asStr?

/-- The handlers of an entry, if it has a list of them. -/
def handlersOf (entry : Value) : Option (List Value) := (entry.get? "hooks").bind Value.asArray?

/-- An entry with one handler. -/
def hookEntry (matcher : Option String) (handler : Value) : Value :=
  .object (("hooks", .array [handler]) :: matcher.toList.map fun m => ("matcher", .string m))

/-- Whether an entry has the handler's command already. -/
def hasCommand (matcher : Option String) (handler entry : Value) : Bool :=
  (entry.get? "matcher").bind Value.asStr? = matcher &&
    ((handlersOf entry).getD []).any fun h => commandOf h = some ((commandOf handler).getD "")

/-- Put a handler into the list of an event, and whether that changed it. -/
def mergeInto (matcher : Option String) (handler : Value) (list : List Value) : List Value × Bool :=
  if list.any (hasCommand matcher handler) then (list, false) else (list ++ [hookEntry matcher handler], true)

/-- Change the list at a path. Objects on the way are made, nothing is what an absent list holds, and anything else in its
place is a panic. -/
def changeAt (f : List Value → List Value × Bool) : List String → Value → Option (Value × Bool)
  | [], _ => none
  | [key], doc =>
    match ((objMut doc).get? key).getD (.array []) with
    | .array list => some ((objMut doc).set key (.array (f list).1), (f list).2)
    | _ => none
  | key :: path, doc =>
    (changeAt f path (((objMut doc).get? key).getD (.object []))).map fun r => ((objMut doc).set key r.1, r.2)

/-- `merge_hook_entry`; `none` is a panic. -/
def mergeHookEntry (doc : Value) (path : List String) (matcher : Option String) (handler : Value) :
    Option (Value × Bool) :=
  changeAt (mergeInto matcher handler) path doc

/-- Whether the command of a handler contains a marker. -/
def marked (marker : String) (handler : Value) : Bool := (commandOf handler).any fun c => containsText c marker

/-- An entry without the handlers that contain a marker. -/
def dropMarked (marker : String) (entry : Value) : Value :=
  match handlersOf entry with
  | some handlers => entry.set "hooks" (.array (handlers.filter fun h => !marked marker h))
  | none => entry

/-- Whether an entry stays: it does unless its list of handlers is empty. -/
def stays (entry : Value) : Bool := (handlersOf entry).all fun handlers => !handlers.isEmpty

/-- What stays of the entries of an event. -/
def removeFrom (marker : String) (entries : List Value) : List Value := (entries.map (dropMarked marker)).filter stays

/-- The entries of an event, if there is a list of them. -/
def entriesOf (doc : Value) (event : String) : Option (List Value) :=
  ((doc.index "hooks").get? event).bind Value.asArray?

/-- `remove_hook_commands`. -/
def removeHookCommands (doc : Value) (event marker : String) : Value × Bool :=
  match entriesOf doc event with
  | some entries =>
    (doc.set "hooks" ((doc.index "hooks").set event (.array (removeFrom marker entries))),
      (entries.any fun entry => ((handlersOf entry).getD []).any (marked marker)) ||
        decide ((removeFrom marker entries).length ≠ entries.length))
  | none => (doc, false)

/-! ## Wirings -/

/-- One hook of an agent: the event it is for, the marker of its handlers, and what is put in. -/
structure Wiring where
  event : String
  marker : String
  matcher : Option String
  command : String
  timeout : Option ℕ
deriving DecidableEq

def Wiring.handler (w : Wiring) : Value := commandHandler w.command w.timeout

def Wiring.entry (w : Wiring) : Value := hookEntry w.matcher w.handler

/-- The hooks of an agent in the order in which old handlers are taken out and new ones put in. Each has an event of its own
and can be told by its marker. -/
structure Table where
  removals : List Wiring
  wirings : List Wiring
  nonempty : wirings ≠ []
  perm : removals.Perm wirings
  nodup : (wirings.map Wiring.event).Nodup
  contains : ∀ w ∈ wirings, containsText w.command w.marker = true

/-- Take a hook out, and whether anything was changed so far. -/
def removal (s : Value × Bool) (w : Wiring) : Value × Bool :=
  let next := removeHookCommands s.1 w.event w.marker
  (next.1, s.2 || next.2)

/-- Put a hook in, and whether anything was changed so far. -/
def wire (s : Value × Bool) (w : Wiring) : Option (Value × Bool) :=
  (mergeHookEntry s.1 ["hooks", w.event] w.matcher w.handler).map fun next => (next.1, s.2 || next.2)

/-- What an installer does to the settings. -/
def Table.apply (t : Table) (doc : Value) : Option (Value × Bool) :=
  t.wirings.foldlM wire (t.removals.foldl removal (doc, false))

/-- A marker in the middle of a command. -/
theorem containsText_append (before marker after : String) : containsText (before ++ marker ++ after) marker = true := by
  rw [containsText, decide_eq_true_eq, String.toList_append, String.toList_append]
  exact ⟨before.toList, after.toList, rfl⟩

section

variable (env : Env)

def sessionEnd (timeout : Option ℕ) : Wiring :=
  ⟨"SessionEnd", "hook run --event session-end", none, runCommand env "session-end", timeout⟩

def sessionStart (timeout : Option ℕ) : Wiring :=
  ⟨"SessionStart", "hook pending", some "startup|resume", pendingCommand env, timeout⟩

def preCompact : Wiring := ⟨"PreCompact", "hook run --event compact", none, runCommand env "compact", none⟩

def stop (timeout : Option ℕ) : Wiring :=
  ⟨"Stop", "hook run --event stop", none, runCommand env "stop", timeout⟩

theorem contains_runCommand (event : String) :
    containsText (runCommand env event) ("hook run --event " ++ event) = true := by
  have hsplit : runCommand env event = (env.program ++ " ") ++ ("hook run --event " ++ event) ++
      (" --kb-root " ++ shellQuote env.isAlphanumeric env.kb) := by
    have hblank : " hook run --event " = " " ++ "hook run --event " := by decide
    rw [runCommand, hblank]
    simp only [String.append_assoc]
  rw [hsplit]
  exact containsText_append _ _ _

theorem contains_pendingCommand : containsText (pendingCommand env) "hook pending" = true := by
  have hsplit : pendingCommand env = (env.program ++ " ") ++ "hook pending" ++
      (" --root " ++ shellQuote env.isAlphanumeric env.kb) := by
    have hblank : " hook pending --root " = " " ++ ("hook pending" ++ " --root ") := by decide
    rw [pendingCommand, hblank]
    simp only [String.append_assoc]
  rw [hsplit]
  exact containsText_append _ _ _

/-- The hooks of `install_claude`. -/
def claudeTable : Table where
  removals := [sessionEnd env none, sessionStart env none, preCompact env]
  wirings := [sessionEnd env none, preCompact env, sessionStart env none]
  nonempty := List.cons_ne_nil _ _
  perm := .cons _ (.swap _ _ _)
  nodup := show ["SessionEnd", "PreCompact", "SessionStart"].Nodup by decide
  contains := by
    simp only [List.forall_mem_cons]
    exact ⟨contains_runCommand env "session-end", contains_runCommand env "compact", contains_pendingCommand env, by simp⟩

/-- The hooks of `install_codex`. -/
def codexTable : Table where
  removals := [sessionEnd env (some 3), sessionStart env (some 10), stop env (some 10)]
  wirings := [sessionEnd env (some 3), sessionStart env (some 10), stop env (some 10)]
  nonempty := List.cons_ne_nil _ _
  perm := .refl _
  nodup := show ["SessionEnd", "SessionStart", "Stop"].Nodup by decide
  contains := by
    simp only [List.forall_mem_cons]
    exact ⟨contains_runCommand env "session-end", contains_pendingCommand env, contains_runCommand env "stop", by simp⟩

/-- The hooks of `install_grok`. -/
def grokTable : Table where
  removals := [sessionEnd env none, sessionStart env none]
  wirings := [sessionEnd env none, sessionStart env none]
  nonempty := List.cons_ne_nil _ _
  perm := .refl _
  nodup := show ["SessionEnd", "SessionStart"].Nodup by decide
  contains := by
    simp only [List.forall_mem_cons]
    exact ⟨contains_runCommand env "session-end", contains_pendingCommand env, by simp⟩

/-- What `install_antigravity` puts under its own key. -/
def progressHook : Value :=
  .object [("Stop", .array [commandHandler (runCommand env "stop") (some 15)])]

/-- What `install_antigravity` does to the settings, and whether the key is new. -/
def applyProgress (doc : Value) : Value × Bool :=
  ((objMut doc).set "innen-progress" (progressHook env), ((objMut doc).get? "innen-progress").isNone)

end

/-! ## Files -/

/-- Values that the reader can produce: numbers with a decimal point are finite, and nesting is bounded. -/
inductive Readable : ℕ → Value → Prop
  | null (n) : Readable n .null
  | bool (n b) : Readable n (.bool b)
  | posInt (n k) : Readable n (.number (.posInt k))
  | negInt (n k) : Readable n (.number (.negInt k))
  | float (n bits) (finite : bits &&& 0x7ff0000000000000 ≠ 0x7ff0000000000000) : Readable n (.number (.float bits))
  | string (n s) : Readable n (.string s)
  | array (n items) (h : ∀ v ∈ items, Readable n v) : Readable (n + 1) (.array items)
  | object (n fields) (h : ∀ e ∈ fields, Readable n e.2) : Readable (n + 1) (.object fields)

/-- How deep a text may be nested. -/
def maxDepth : ℕ := 127

/-- The JSON library. A number with a decimal point need not be read as it was before it was printed. -/
structure Library where
  /-- `from_str` on a file that is text. -/
  parse : List UInt8 → Option Value
  /-- `to_string_pretty` and a newline. -/
  pretty : Value → List UInt8
  reparseFloat : UInt64 → UInt64
  wf_of_parse : ∀ {bytes v}, parse bytes = some v → v.WF
  readable_of_parse : ∀ {bytes v}, parse bytes = some v → Readable maxDepth v
  parse_pretty : ∀ {v}, v.WF → Readable maxDepth v → parse (pretty v) = some (v.mapFloats reparseFloat)

/-- `read_json_file`: what cannot be read is `null`. -/
def readJsonFile (L : Library) (file : Option (List UInt8)) : Value := (file.bind L.parse).getD .null

/-- How an install ends. -/
inductive Outcome
  | ok (note : String)
  | error (message : String)
  | panic
deriving DecidableEq

/-- Read the settings, change them, and write them unless the change panics. -/
def rewrite (L : Library) (change : Value → Option (Value × Bool)) (note : Bool → String) (file : Option (List UInt8)) :
    Outcome × Option (List UInt8) :=
  match change (readJsonFile L file) with
  | none => (.panic, file)
  | some (doc, changed) => (.ok (note changed), some (L.pretty doc))

/-- Agents whose hooks are in a JSON file. -/
inductive Agent
  | claudeCode
  | codex
  | grok
  | antigravity
deriving DecidableEq

/-- What the note says. -/
def Agent.note (scope path : String) (changed : Bool) : Agent → String
  | .claudeCode =>
    if changed then "claude-code " ++ scope ++ " hooks written to " ++ path
    else "claude-code " ++ scope ++ " hooks already present at " ++ path
  | .codex =>
    (if changed then "codex " ++ scope ++ " hooks written to " ++ path
      else "codex " ++ scope ++ " hooks already present at " ++ path) ++
      " Trust new hooks in Codex via /hooks before they run."
  | .grok =>
    if changed then "grok " ++ scope ++ " hooks written to " ++ path
    else "grok " ++ scope ++ " hooks already present at " ++ path
  | .antigravity =>
    if changed then "antigravity " ++ scope ++ " Stop hook written to " ++ path
    else "antigravity " ++ scope ++ " Stop hook refreshed at " ++ path

/-- What an agent's installer does to the settings. -/
def Agent.change (env : Env) : Agent → Value → Option (Value × Bool)
  | .claudeCode, doc => (claudeTable env).apply doc
  | .codex, doc => (codexTable env).apply doc
  | .grok, doc => (grokTable env).apply doc
  | .antigravity, doc => some (applyProgress env doc)

/-- `hook install` of an agent on the file of its settings. -/
def install (L : Library) (env : Env) (agent : Agent) (scope path : String) (file : Option (List UInt8)) :
    Outcome × Option (List UInt8) :=
  rewrite L (agent.change env) (fun changed => agent.note scope path changed) file

end Innen.Hook
