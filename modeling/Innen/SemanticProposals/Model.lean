import Innen.Common.CycleWalk
import Innen.Json.Pointer
import Innen.Time.Since

/-!
# Checking semantic proposals

A model proposes assertions about a conversation, and each assertion cites bytes of the source. `validateSource` checks
them against the exact source: the citations, the roles of the cited events, the supersedes edges among the assertions,
and the claim that no assistant text follows a user event. It establishes attribution, not entailment.

The hash and the JSON parser are parameters.
-/

namespace Innen.SemanticProposals

open Innen.Common

/-- What an assertion rests on. -/
inductive Basis
  | userRequirement
  | assistantClaim
  | toolReport
  | interpretation
deriving DecidableEq

inductive Polarity
  | affirmed
  | negated
  | unresolved
deriving DecidableEq

structure Citation where
  event : ℕ
  /-- JSON pointer to a string field in the original event. -/
  pointer : String
  startByte : ℕ
  endByte : ℕ
  quote : String
deriving DecidableEq

structure Assertion where
  id : String
  basis : Basis
  subject : String
  predicate : String
  object : String
  polarity : Polarity
  scope : String
  timeScope : String
  qualifiers : List String
  citations : List Citation
  supersedes : List String
deriving DecidableEq

structure TailCheck where
  afterUserEvent : ℕ
  throughEvent : ℕ
deriving DecidableEq

structure Proposal where
  sourceSha256 : String
  assertions : List Assertion
  noAssistantTextAfter : Option TailCheck

structure ReviewPacket where
  status : String
  sourceSha256 : String
  assertions : List Assertion
  citedTruncatedEvents : SortedSet ℕ
  tailCheckPassed : Option Bool
  limitations : List String
deriving DecidableEq

/-- The library functions that the checks call. -/
structure Library where
  /-- `sha256_hex`. -/
  sha256Hex : ByteArray → String
  /-- `serde_json::from_str::<Value>`. -/
  parseValue : String → Option Value

variable (L : Library)

/-! ## The source -/

/-- The events by their steps, and the steps as the source lists them. -/
structure Events where
  byStep : SortedMap ℕ Value
  order : List ℕ

/-- Take in one line of the source. -/
def addEvent (s : Events) (line : String) : Except String Events := do
  let event ← okOr (L.parseValue line) "invalid source JSON"
  let id ← okOr (event.index "step_index").asU64? "missing source step_index"
  failIf (s.byStep.get? id).isSome "duplicate source step_index"
  .ok ⟨s.byStep.insert id event, s.order ++ [id]⟩

/-- The lines that hold an event. -/
def sourceLines (source : String) : List String := (lines source).filter fun l => !blank l

def readEvents (source : String) : Except String Events := (sourceLines source).foldlM (addEvent L) ⟨∅, []⟩

/-! ## The assertions -/

/-- `as_array`, as the list of items of a field. -/
def fieldItems (event : Value) (key : String) : List Value := (event.index key).asArray?.getD []

/-- The type of an event is this one. -/
def hasType (event : Value) (kind : String) : Bool := (event.index "type").asStr? = some kind

/-- A citation of this event at this place supports the basis. -/
def supports (basis : Basis) (kind pointer : String) : Bool :=
  match basis with
  | .userRequirement => kind = "USER_INPUT" ∧ pointer = "/content"
  | .assistantClaim => kind = "PLANNER_RESPONSE" ∧ pointer = "/content"
  | .toolReport => kind = "GENERIC" ∧ pointer = "/content"
  | .interpretation => true

/-- One citation; the state is whether a source of the required role was cited, and the cited events that were cut. -/
def checkCitation (events : Events) (basis : Basis) (s : Bool × SortedSet ℕ) (citation : Citation) :
    Except String (Bool × SortedSet ℕ) := do
  let event ← okOr (events.byStep.get? citation.event) "citation event missing"
  let text ← okOr ((event.pointer citation.pointer).bind Value.asStr?) "citation pointer is not a source string"
  failIf (citation.endByte ≤ citation.startByte ∨
      (Time.slice text citation.startByte citation.endByte).toOption ≠ some citation.quote.toList)
    "citation bytes do not match source (or split UTF-8)"
  let kind := ((event.index "type").asStr?).getD ""
  .ok (s.1 || supports basis kind citation.pointer,
    if fieldItems event "truncated_fields" ≠ [] then s.2.insert citation.event else s.2)

/-- One assertion; the state is the ids so far and the cited events that were cut. -/
def checkAssertion (events : Events) (s : SortedSet String × SortedSet ℕ) (assertion : Assertion) :
    Except String (SortedSet String × SortedSet ℕ) := do
  failIf ([assertion.id, assertion.subject, assertion.predicate, assertion.object, assertion.scope,
      assertion.timeScope].any blank ∨ assertion.id ∈ s.1)
    "assertions need unique IDs and explicit semantic fields (use unresolved when unknown)"
  failIf (assertion.citations = []) "assertion has no source citation"
  let (present, truncated) ← assertion.citations.foldlM (checkCitation events assertion.basis) (false, s.2)
  failIf (present = false) "evidence basis lacks a citation of the required source role"
  .ok (s.1.insert assertion.id, truncated)

/-- The supersedes edges by assertion. -/
def edges (assertions : List Assertion) : SortedMap String (List String) :=
  (∅ : SortedMap String (List String)).insertAll (assertions.map fun a => (a.id, a.supersedes))

/-- Follow the supersedes edges from one assertion. -/
def checkSupersedes (assertions : List Assertion) (assertion : Assertion) : Except String Unit :=
  CycleWalk.walk (edges assertions) "supersedes cycle" "supersedes target missing" assertion.id ∅
    assertion.supersedes.reverse

/-! ## The tail -/

/-- The assistant content of an event was cut. -/
def contentTruncated (event : Value) : Bool :=
  (fieldItems event "truncated_fields").any fun field => field.asStr? = some "content"

/-- The content of an event is there and is neither null nor a text. -/
def contentUnsupported (event : Value) : Bool :=
  (event.get? "content").any fun value => value ≠ .null && value.asStr?.isNone

/-- The content of an event is a text with more than white space. -/
def contentSpoken (event : Value) : Bool := (event.index "content").asStr?.any fun s => !blank s

/-- One event of the tail; the state is the step that is expected, and the result the step after it. -/
def tailStep (events : Events) (after expected id : ℕ) : Except String ℕ := do
  let event := (events.byStep.get? id).getD .null
  failIf (id ≠ expected) "tail has missing or reordered step IDs; absence cannot be certified"
  let next ← okOr (if id + 1 < 2 ^ 64 then some (id + 1) else none) "step overflow"
  failIf (hasType event "PLANNER_RESPONSE" ∧ contentTruncated event)
    "tail has truncated assistant content; absence is unknown"
  failIf (hasType event "PLANNER_RESPONSE" ∧ contentUnsupported event)
    "tail has an unsupported assistant content representation"
  failIf (after < id ∧ hasType event "PLANNER_RESPONSE" ∧ contentSpoken event) "tail contains assistant text"
  .ok next

/-- The check that no assistant text follows a user event. -/
def checkTail (events : Events) (check : TailCheck) : Except String Unit := do
  failIf (events.order.getLast? ≠ some check.throughEvent ∨ check.throughEvent < check.afterUserEvent ∨
      ¬(events.byStep.get? check.afterUserEvent).any (hasType · "USER_INPUT"))
    "tail check must start at a user event and end at the actual source end"
  let start ← okOr (events.order.idxOf? check.afterUserEvent) "tail start missing"
  let _ ← (events.order.drop start).foldlM (tailStep events check.afterUserEvent) check.afterUserEvent
  .ok ()

/-- `tail_check_passed`: nothing without a request for it. -/
def tailPassed (events : Events) : Option TailCheck → Except String (Option Bool)
  | some check => do
    checkTail events check
    .ok (some true)
  | none => .ok none

/-! ## The whole check -/

def limitations : List String :=
  ["Matching citations do not establish semantic entailment or completeness.",
   "Supersedes edges remain model interpretations; acyclicity does not validate their meaning.",
   "Tail absence covers only this complete supplied suffix, not activity outside the export."]

/-- `validate_source`. -/
def validateSource (raw : ByteArray) (proposal : Proposal) : Except String ReviewPacket := do
  failIf (proposal.assertions = []) "proposal has no assertions"
  let digest := L.sha256Hex raw
  failIf (digest ≠ proposal.sourceSha256) "source hash mismatch"
  let source ← okOr (String.fromUTF8? raw) "source is not UTF-8"
  let events ← readEvents L source
  let (_, truncated) ← proposal.assertions.foldlM (checkAssertion events) (∅, ∅)
  let _ ← proposal.assertions.mapM (checkSupersedes proposal.assertions)
  let tailCheckPassed ← tailPassed events proposal.noAssistantTextAfter
  .ok ⟨"source_checks_passed_semantics_unreviewed", digest, proposal.assertions, truncated, tailCheckPassed, limitations⟩

end Innen.SemanticProposals
