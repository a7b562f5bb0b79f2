import Innen.Common.Descent
import Innen.Common.Text
import Innen.Middleware.Model

/-!
# Decision history

Immutable decision events in chronological order. A decision may supersede and depend on earlier ones
of its project and task. For a task the current decisions that match its action are selected; a
decision's statement is quoted only when nothing stands against it, everything else about it, and about
the decisions it grew from, always is.
-/

namespace Innen.Middleware.History

open Innen.Common

/-! ## Requests and results -/

/-- `MAX_DECISIONS`. -/
def maxDecisions : ℕ := 256

/-- Whether the task is being worked on. -/
inductive TaskState where
  | active
  | paused
  | completed
deriving DecidableEq

/-- The lower-case name of a state. -/
def TaskState.text : TaskState → String
  | .active => "active"
  | .paused => "paused"
  | .completed => "completed"

/-- The task a packet is prepared for. -/
structure Task where
  id : String
  project : String
  action : String
  state : TaskState
  conditions : SortedMap String String

/-- Where a decision comes from. -/
structure Source where
  id : String
  sha256 : String
  sessionId : Option String

/-- One decision event. -/
structure Decision where
  id : String
  project : String
  taskId : String
  actions : List String
  statement : String
  rationale : String
  conditions : SortedMap String String
  sources : List Source
  supersedes : List String
  dependsOn : List String
  lessons : List String
  reopenWhen : List String
  observedAt : String

/-- What a caller asks for; the events come in ascending order of `observedAt`. -/
structure Request where
  stablePrefix : Value
  task : Task
  budgetTokens : ℕ
  events : List Decision

/-- The two kinds of references between decisions. -/
inductive Relationship where
  | dependency
  | superseded
deriving DecidableEq

/-- The name of a relationship in item ids and summaries. -/
def Relationship.text : Relationship → String
  | .dependency => "dependency"
  | .superseded => "superseded"

/-- The name of a relationship in validation errors. -/
def Relationship.kind : Relationship → String
  | .dependency => "dependency"
  | .superseded => "supersession"

/-- What came out for the task. -/
inductive Resolution where
  | prepared
  | unknown
  | unknownConflict
deriving DecidableEq

/-- The text of a resolution. -/
def Resolution.text : Resolution → String
  | .prepared => "prepared"
  | .unknown => "unknown"
  | .unknownConflict => "unknown_conflict"

/-- What `prepare` returns. -/
structure PreparedHistory where
  resolution : Resolution
  historySourceSha256 : String
  selectedDecisionIds : List String
  guardedDecisionIds : List String
  competingDecisionIds : List String
  historyBeforeReferenceTokens : ℕ
  historyAfterReferenceTokens : ℕ
  prepared : Prepared

/-- Why a request fails. -/
inductive Error where
  | tooManyDecisions (actual max : ℕ)
  | invalidTask
  | inactiveTask (taskId : String) (state : TaskState)
  | noMatchingDecision (project action : String)
  | invalidDecision (index : ℕ)
  | duplicateId (id : String)
  | invalidObservedAt (id observedAt : String)
  | nonChronological (id : String)
  | invalidReference (id reference : String)
  | crossProjectReference (id : String) (kind : Relationship) (reference : String)
  | crossTaskReference (id : String) (kind : Relationship) (reference : String)
  | middleware (error : Middleware.Error)
deriving DecidableEq

/-- A name between backticks. -/
def ticked (name : String) : String := "\x60" ++ name ++ "\x60"

/-- The text of an error (`Display`). -/
def Error.text : Error → String
  | .tooManyDecisions actual max =>
    "history request has " ++ toString actual ++ " decisions, exceeding the " ++ toString max ++
      " decision bound"
  | .invalidTask => "history task project and action must be nonempty"
  | .inactiveTask taskId state =>
    "history task " ++ ticked taskId ++ " is " ++ state.text ++ " and cannot prepare an active packet"
  | .noMatchingDecision project action =>
    "no current history decision matches project " ++ ticked project ++ " and action " ++ ticked action
  | .invalidDecision index =>
    "history decision at index " ++ toString index ++ " has an invalid immutable shape"
  | .duplicateId id => "history decision " ++ ticked id ++ " duplicates an earlier id"
  | .invalidObservedAt id observedAt =>
    "history decision " ++ ticked id ++ " has invalid observed_at " ++ ticked observedAt
  | .nonChronological id => "history decision " ++ ticked id ++ " is not in chronological order"
  | .invalidReference id reference =>
    "history decision " ++ ticked id ++ " references missing or later decision " ++ ticked reference
  | .crossProjectReference id kind reference =>
    "history decision " ++ ticked id ++ " has a cross-project " ++ kind.kind ++ " reference " ++
      ticked reference
  | .crossTaskReference id kind reference =>
    "history decision " ++ ticked id ++ " has a cross-task " ++ kind.kind ++ " reference " ++ ticked reference
  | .middleware error => error.text

/-! ## Serialization -/

/-- A map of strings as an object. -/
def stringMap (m : SortedMap String String) : Value :=
  .object (m.entries.map fun e => (e.1, .string e.2))

/-- The fields of a source in declaration order; an absent session is left out. -/
def Source.fields (source : Source) : Fields :=
  [("id", .string source.id), ("sha256", .string source.sha256)] ++
    (source.sessionId.elim [] fun s => [("session_id", .string s)])

/-- The fields of a task in declaration order. -/
def Task.fields (task : Task) : Fields :=
  [("id", .string task.id), ("project", .string task.project), ("action", .string task.action),
    ("state", .string task.state.text), ("conditions", stringMap task.conditions)]

/-- The fields of a decision in declaration order; `render` makes an object of the fields of a source. -/
def Decision.fields (render : Fields → Value) (d : Decision) : Fields :=
  [("id", .string d.id), ("project", .string d.project), ("task_id", .string d.taskId),
    ("actions", .strings d.actions), ("statement", .string d.statement), ("rationale", .string d.rationale),
    ("conditions", stringMap d.conditions), ("sources", .array (d.sources.map fun s => render s.fields)),
    ("supersedes", .strings d.supersedes), ("depends_on", .strings d.dependsOn),
    ("lessons", .strings d.lessons), ("reopen_when", .strings d.reopenWhen),
    ("observed_at", .string d.observedAt)]

variable (P : Platform)

/-- `source_sha256`: the hash of the request's JSON text. -/
def sourceSha256 (request : Request) : String :=
  P.sha256Hex (structText P.floatText [("stable_prefix", request.stablePrefix),
    ("task", .object request.task.fields), ("budget_tokens", .nat request.budgetTokens),
    ("events", .array (request.events.map fun d => .object (d.fields .object)))]).toUTF8

/-! ## Validation -/

/-- A string that is not blank. -/
def present (value : String) : Bool := !blank value

/-- `u8::is_ascii_hexdigit` on a character; a byte of a longer character is no digit either. -/
def isHexDigit (c : Char) : Bool :=
  c.isDigit || ('a'.toNat ≤ c.toNat && c.toNat ≤ 'f'.toNat) || ('A'.toNat ≤ c.toNat && c.toNat ≤ 'F'.toNat)

/-- `valid_timestamp`. -/
def validTimestamp (value : String) : Bool := utcCalendar value

/-- `valid_source`. -/
def validSource (source : Source) : Bool :=
  present source.id && source.sha256.utf8ByteSize == 64 && source.sha256.toList.all isHexDigit

/-- The checks on a decision alone. -/
def wellShaped (d : Decision) : Bool :=
  present d.id && present d.project && present d.taskId && !d.actions.isEmpty && d.actions.all present &&
    present d.statement && present d.rationale && !d.sources.isEmpty && d.sources.all validSource

/-- What the first pass knows of the decisions before the current one. -/
structure Scan where
  positions : SortedMap String ℕ
  previousTime : Option String

/-- The first pass at one decision. -/
def scanDecision (scan : Scan) (e : Decision × ℕ) : Except Error Scan :=
  if !wellShaped e.1 then .error (.invalidDecision e.2)
  else if !validTimestamp e.1.observedAt then .error (.invalidObservedAt e.1.id e.1.observedAt)
  else if ∃ previous ∈ scan.previousTime, e.1.observedAt < previous then
    .error (.nonChronological e.1.id)
  else if (scan.positions.get? e.1.id).isSome then .error (.duplicateId e.1.id)
  else .ok ⟨scan.positions.insert e.1.id e.2, some e.1.observedAt⟩

/-- The check of one reference of the decision `d` at `index`; `unique` holds the references before it. -/
def checkReference (events : List Decision) (positions : SortedMap String ℕ) (index : ℕ) (d : Decision)
    (kind : Relationship) (unique : SortedSet String) (reference : String) :
    Except Error (SortedSet String) :=
  if !present reference ∨ reference ∈ unique then .error (.invalidDecision index)
  else
    match positions.get? reference with
    | none => .error (.invalidReference d.id reference)
    | some other =>
      if index ≤ other then .error (.invalidReference d.id reference)
      else if (events[other]?).map (·.project) ≠ some d.project then
        .error (.crossProjectReference d.id kind reference)
      else if (events[other]?).map (·.taskId) ≠ some d.taskId then
        .error (.crossTaskReference d.id kind reference)
      else .ok (unique.insert reference)

/-- The second pass at one decision. -/
def checkReferences (events : List Decision) (positions : SortedMap String ℕ) (e : Decision × ℕ) :
    Except Error Unit := do
  let _ ← e.1.supersedes.foldlM (checkReference events positions e.2 e.1 .superseded) ∅
  let _ ← e.1.dependsOn.foldlM (checkReference events positions e.2 e.1 .dependency) ∅
  .ok ()

/-- `validate`: the position of every decision, by id. -/
def validate (request : Request) : Except Error (SortedMap String ℕ) := do
  failIf (maxDecisions < request.events.length) (.tooManyDecisions request.events.length maxDecisions)
  failIf (!present request.task.id ∨ !present request.task.project ∨ !present request.task.action)
    .invalidTask
  let scan ← request.events.zipIdx.foldlM scanDecision ⟨∅, none⟩
  request.events.zipIdx.foldlM (fun _ e => checkReferences request.events scan.positions e) ()
  .ok scan.positions

/-! ## Applicability -/

/-- The conditions of a decision that the task does not meet. -/
structure Applicability where
  missing : List String
  mismatched : SortedMap String String

namespace Applicability

/-- One condition against the task. -/
def check (task : Task) (result : Applicability) (condition : String × String) : Applicability :=
  match task.conditions.get? condition.1 with
  | some actual =>
    if actual = condition.2 then result
    else { result with mismatched := result.mismatched.insert condition.1 actual }
  | none => { result with missing := result.missing ++ [condition.1] }

/-- `Applicability::for_decision`. -/
def forDecision (task : Task) (d : Decision) : Applicability :=
  d.conditions.entries.foldl (check task) ⟨[], ∅⟩

/-- `Applicability::state`. -/
def state (a : Applicability) : String :=
  if a.mismatched ≠ ∅ then "mismatch" else if a.missing ≠ [] then "unknown" else "applicable"

/-- `Applicability::applicable`. -/
def applicable (a : Applicability) : Bool := a.missing = [] ∧ a.mismatched = ∅

/-- `Applicability::json`. -/
def json (a : Applicability) (expected : SortedMap String String) : Value :=
  Value.mkObject [("state", .string a.state), ("expected_conditions", stringMap expected),
    ("missing_conditions", .strings a.missing), ("mismatched_actual_conditions", stringMap a.mismatched)]

end Applicability

/-! ## Items -/

/-- The fields every item tells of its decision. -/
def itemFields (d : Decision) : Fields :=
  [("id", .string d.id), ("project", .string d.project), ("actions", .strings d.actions),
    ("observed_at", .string d.observedAt), ("rationale", .string d.rationale), ("lessons", .strings d.lessons),
    ("reopen_when", .strings d.reopenWhen),
    ("sources", .array (d.sources.map fun s => Value.mkObject s.fields))]

/-- `active_item`. -/
def activeItem (d : Decision) (applicability : Applicability) (competing dependencyGuards : List String) :
    Value :=
  let value := Value.mkObject ([("kind", .string "current_decision")] ++ itemFields d ++
    [("applicability", applicability.json d.conditions), ("competing_ids", .strings competing),
      ("dependency_guard_ids", .strings dependencyGuards)])
  if applicability.applicable ∧ competing = [] ∧ dependencyGuards = [] then
    value.set "statement" (.string d.statement)
  else value

/-- `active_dependency_item`. -/
def activeDependencyItem (d : Decision) (applicability : Applicability) (dependencyGuards : List String) :
    Value :=
  let value := Value.mkObject ([("kind", .string "active_dependency")] ++ itemFields d ++
    [("applicability", applicability.json d.conditions),
      ("dependency_guard_ids", .strings dependencyGuards)])
  if applicability.applicable ∧ dependencyGuards = [] then value.set "statement" (.string d.statement)
  else value

/-- `ancestor_item`. -/
def ancestorItem (d : Decision) (relationship : Relationship) : Value :=
  Value.mkObject ([("kind", .string "decision_history_summary"),
    ("relationship", .string relationship.text)] ++ itemFields d ++
    [("statement_available_via_history_expand", .bool true)])

/-! ## Ancestry -/

/-- `positions[reference]`; validated references are known. -/
def position (positions : SortedMap String ℕ) (reference : String) : ℕ :=
  (positions.get? reference).getD 0

/-- The `supersedes` list of the decision at an index. -/
def supersedesAt (events : List Decision) (index : ℕ) : List String :=
  (events[index]?).elim [] (·.supersedes)

/-- The `depends_on` list of the decision at an index. -/
def dependsOnAt (events : List Decision) (index : ℕ) : List String :=
  (events[index]?).elim [] (·.dependsOn)

/-- The superseded decisions of an index. -/
def supersessionSteps (events : List Decision) (positions : SortedMap String ℕ) (index : ℕ) :
    List (ℕ × Relationship) :=
  (supersedesAt events index).map fun r => (position positions r, .superseded)

/-- The dependencies of an index. -/
def dependencySteps (events : List Decision) (positions : SortedMap String ℕ) (index : ℕ) :
    List (ℕ × Relationship) :=
  (dependsOnAt events index).map fun r => (position positions r, .dependency)

/-- `collect_ancestors`; references point backwards, so the number of events is enough fuel. -/
def collectAncestors (index : ℕ) (events : List Decision) (positions : SortedMap String ℕ)
    (visited : Descent.Visited Relationship) : Descent.Visited Relationship :=
  Descent.visit (fun i => dependencySteps events positions i ++ supersessionSteps events positions i)
    events.length index visited

/-- `supersession_ancestors`, started with an empty set. -/
def supersessionAncestors (index : ℕ) (events : List Decision) (positions : SortedMap String ℕ) :
    SortedSet ℕ :=
  (Descent.visit (supersessionSteps events positions) events.length index ⟨∅, []⟩).seen

/-- What `prepare` knows before it builds items. -/
structure Context where
  task : Task
  events : List Decision
  positions : SortedMap String ℕ
  superseded : SortedSet String
  competingByIndex : SortedMap ℕ (List String)

/-- A dependency that must not be relied upon. -/
def Context.guards (c : Context) (reference : String) : Bool :=
  reference ∈ c.superseded ∨
    ((c.events[position c.positions reference]?).any
      fun d => !(Applicability.forDecision c.task d).applicable) ∨
    (c.competingByIndex.get? (position c.positions reference)).isSome

/-- The dependencies of an index, each with its id when it is guarded. -/
def Context.guardSteps (c : Context) (index : ℕ) : List (ℕ × Option String) :=
  (dependsOnAt c.events index).map fun r =>
    (position c.positions r, if c.guards r then some r else none)

/-- `dependency_guard_ids`. -/
def dependencyGuardIds (c : Context) (index : ℕ) (memo : Descent.Memo String) :
    SortedSet String × Descent.Memo String :=
  Descent.gather c.guardSteps c.events.length index memo

/-! ## Selection -/

/-- Every id some decision supersedes. -/
def supersededIds (events : List Decision) : SortedSet String :=
  SortedSet.ofList (events.flatMap (·.supersedes))

/-- The positions of the decisions that satisfy a condition. -/
def indicesWhere (events : List Decision) (p : Decision → Bool) : List ℕ :=
  (events.zipIdx.filter fun e => p e.1).map Prod.snd

/-- A decision of the task that nothing supersedes. -/
def isCurrent (task : Task) (superseded : SortedSet String) (d : Decision) : Bool :=
  d.project = task.project ∧ d.taskId = task.id ∧ d.id ∉ superseded

/-- A current decision that concerns the action of the task. -/
def isMatching (task : Task) (superseded : SortedSet String) (d : Decision) : Bool :=
  d.project = task.project ∧ d.taskId = task.id ∧ task.action ∈ d.actions ∧ d.id ∉ superseded

/-- The actions of the decision at an index. -/
def actionsAt (events : List Decision) (index : ℕ) : List String := (events[index]?).elim [] (·.actions)

/-- The id of the decision at an index. -/
def idAt (events : List Decision) (index : ℕ) : String := (events[index]?).elim "" (·.id)

/-- The current decisions that share an action and an ancestor in supersession with `index`. -/
def peersOf (events : List Decision) (ancestorSets : SortedMap ℕ (SortedSet ℕ)) (current : List ℕ)
    (index : ℕ) : List ℕ :=
  current.filter fun other =>
    other ≠ index ∧ (∃ action ∈ actionsAt events index, action ∈ actionsAt events other) ∧
      ∃ a ∈ ((ancestorSets.get? index).getD ∅).elems, a ∈ (ancestorSets.get? other).getD ∅

/-- `competing_by_index`: the ids of the peers of every current decision that has any. -/
def competingByIndex (events : List Decision) (positions : SortedMap String ℕ) (current : List ℕ) :
    SortedMap ℕ (List String) :=
  let ancestorSets :=
    SortedMap.tabulate (fun index => some (supersessionAncestors index events positions)) current
  SortedMap.tabulate (fun index =>
    let peers := peersOf events ancestorSets current index
    if peers = [] then none else some (peers.map (idAt events))) current

/-- The context of a validated request. -/
def contextOf (request : Request) (positions : SortedMap String ℕ) : Context where
  task := request.task
  events := request.events
  positions := positions
  superseded := supersededIds request.events
  competingByIndex := competingByIndex request.events positions
    (indicesWhere request.events (isCurrent request.task (supersededIds request.events)))

/-- The items built so far, the guarded decisions among them, and the memo table. -/
structure Pass where
  items : List Item
  guarded : List String
  memo : Descent.Memo String

/-- The guards of an index: those of its dependencies and its own peers. -/
def Context.guardsOf (c : Context) (index : ℕ) (guards : SortedSet String) : List String :=
  match c.competingByIndex.get? index with
  | some peers => (guards.union (SortedSet.ofList peers)).elems
  | none => guards.elems

/-- Every item of a history packet is required. -/
def requiredItem (id : String) (content : Value) : Item := ⟨id, content, true, none⟩

/-- The loop over the matching decisions. -/
def currentItem (c : Context) (pass : Pass) (e : Decision × ℕ) : Pass :=
  let applicability := Applicability.forDecision c.task e.1
  let competing := (c.competingByIndex.get? e.2).getD []
  let (guards, memo) := dependencyGuardIds c e.2 pass.memo
  let dependencyGuards := c.guardsOf e.2 guards
  { items := pass.items ++ [requiredItem ("history:current:" ++ e.1.id)
      (activeItem e.1 applicability competing dependencyGuards)]
    guarded :=
      if !applicability.applicable ∨ competing ≠ [] ∨ dependencyGuards ≠ [] then pass.guarded ++ [e.1.id]
      else pass.guarded
    memo }

/-- The loop over the ancestors; `e` is the decision, its index and how it was reached. -/
def ancestorStep (c : Context) (pass : Pass) (e : Decision × ℕ × Relationship) : Pass :=
  let (guards, memo) := dependencyGuardIds c e.2.1 pass.memo
  let dependencyGuards := c.guardsOf e.2.1 guards
  { items := pass.items ++ [requiredItem ("history:" ++ e.2.2.text ++ ":" ++ e.1.id)
      (if e.2.2 = .dependency ∧ e.1.id ∉ c.superseded then
        activeDependencyItem e.1 (Applicability.forDecision c.task e.1) dependencyGuards
      else ancestorItem e.1 e.2.2)]
    guarded := pass.guarded
    memo }

/-- The decisions at the given indices, with what is attached to each. -/
def decisionsAt {α : Type} (events : List Decision) (index : α → ℕ) (l : List α) : List (Decision × α) :=
  l.filterMap fun a => (events[index a]?).map fun d => (d, a)

/-- The ancestors of the matching decisions, by index. -/
def ancestorsOf (events : List Decision) (positions : SortedMap String ℕ) (matching : List ℕ) :
    List (ℕ × Relationship) :=
  (matching.foldl (fun visited index => collectAncestors index events positions visited)
    ⟨SortedSet.ofList matching, []⟩).output.mergeSort fun a b => a.1 ≤ b.1

/-- The matching decisions of a request. -/
def matchingOf (request : Request) : List ℕ :=
  indicesWhere request.events (isMatching request.task (supersededIds request.events))

/-- All items of the packet, and the guarded decisions. -/
def passOf (request : Request) (positions : SortedMap String ℕ) : Pass :=
  let c := contextOf request positions
  let matching := matchingOf request
  let first := (decisionsAt request.events id matching).foldl (currentItem c) ⟨[], [], ∅⟩
  (decisionsAt request.events Prod.fst (ancestorsOf request.events positions matching)).foldl
    (ancestorStep c) first

/-- The peers of the matching decisions. -/
def competingIds (request : Request) (positions : SortedMap String ℕ) : List String :=
  (SortedSet.ofList ((matchingOf request).flatMap fun index =>
    ((contextOf request positions).competingByIndex.get? index).getD [])).elems

/-- The events whose full text the packet stands for. -/
def fullScope (request : Request) (positions : SortedMap String ℕ) : List Decision :=
  let matching := matchingOf request
  let scope := SortedSet.ofList (matching ++ (ancestorsOf request.events positions matching).map Prod.fst)
  scope.elems.filterMap fun i => request.events[i]?

/-- The value whose tokens are the cost of the unabridged history. -/
def fullHistory (request : Request) (positions : SortedMap String ℕ) : Value :=
  Value.mkObject [("stable_prefix", request.stablePrefix), ("task", Value.mkObject request.task.fields),
    ("events", .array ((fullScope request positions).map fun d =>
      Value.mkObject (d.fields Value.mkObject)))]

/-- The request handed on to the middleware. -/
def packetRequest (request : Request) (positions : SortedMap String ℕ) : Middleware.Request where
  stablePrefix := request.stablePrefix
  task := Value.mkObject request.task.fields
  items := (passOf request positions).items
  budgetTokens := request.budgetTokens

/-- `history::prepare`. -/
def prepare (request : Request) : Except Error PreparedHistory := do
  let positions ← validate request
  failIf (request.task.state ≠ .active) (.inactiveTask request.task.id request.task.state)
  let matching := matchingOf request
  let pass := passOf request positions
  failIf (matching = []) (.noMatchingDecision request.task.project request.task.action)
  let before ← (tokens P (fullHistory request positions)).mapError (.middleware ∘ .token)
  let competing := competingIds request positions
  let prepared ← (Middleware.prepare P (packetRequest request positions)).mapError .middleware
  .ok
    { resolution :=
        if competing ≠ [] then .unknownConflict else if pass.guarded ≠ [] then .unknown else .prepared
      historySourceSha256 := sourceSha256 P request
      selectedDecisionIds := matching.map (idAt request.events)
      guardedDecisionIds := pass.guarded
      competingDecisionIds := competing
      historyBeforeReferenceTokens := before
      historyAfterReferenceTokens := prepared.afterReferenceTokens
      prepared }

end Innen.Middleware.History
