import Innen.Common.Boundaries
import Innen.Time.Since

/-!
# Context candidates

Each event of a conversation is cut into candidates. A request of the user stays whole. The text of another event is cut
before lines: a fenced block up to its closing fence, a heading, a run of blank lines, and other lines up to the next of
these. A candidate names earlier ones as its context: the heading above it, what a list or a block follows, and for a
short reference of the user all of the last event of the assistant.
-/

namespace Innen.ContextCandidates

open Common

/-! ## Candidates -/

/-- `TextEvent`. -/
structure TextEvent where
  id : ℕ
  role : String
  text : String
deriving DecidableEq

/-- The kinds of candidates. -/
inductive Kind
  | userRequest
  | codeBlock
  | heading
  | whitespace
  | listBlock
  | proseBlock
deriving DecidableEq

/-- The hints of a candidate. -/
inductive Cue
  | possibleRevision
  | possibleNegativeOrPending
  | possibleStatusConflict
  | unresolvedReference
  | antecedentCandidateFullEvent
  | unclosedFencePreservedToEnd
deriving DecidableEq

/-- `Candidate`. -/
structure Candidate where
  id : ℕ
  event : ℕ
  startByte : ℕ
  endByte : ℕ
  kind : Kind
  context : List ℕ
  cues : List Cue
deriving DecidableEq

/-- `Candidates`. -/
structure Candidates where
  status : String
  spans : List Candidate
deriving DecidableEq

/-! ## Lines -/

/-- `str::trim_start`. -/
def trimStart (s : String) : String := String.ofList (s.toList.dropWhile isWhitespace)

/-- Whether a line is blank. -/
def isBlank (line : String) : Bool := decide (trim line = "")

/-- `heading`. -/
def heading (line : String) : Option ℕ :=
  let text := (trimStart line).toList
  let level := (text.takeWhile (· = '#')).length
  if 0 < level ∧ level ≤ 6 ∧ text[level]? = some ' ' then some level else none

/-- `fence`: the marker and its length. -/
def fence (line : String) : Option (Char × ℕ) :=
  let text := (trimStart line).toList
  match text.head? with
  | none => none
  | some marker =>
    if marker ≠ '\x60' ∧ marker ≠ '~' then none
    else
      let length := (text.takeWhile (· = marker)).length
      if 3 ≤ length then some (marker, length) else none

/-- `u8::is_ascii_whitespace`. -/
def isAsciiWhitespace (c : Char) : Bool := decide (c ∈ [' ', '\t', '\n', '\x0C', '\r'])

/-- `numbered`. -/
def numbered (line : String) : Option ℕ :=
  let text := (trimStart line).toList
  let digits := text.takeWhile Char.isDigit
  let size := digits.length
  if size = 0 ∨ (text[size]? ≠ some '.' ∧ text[size]? ≠ some ')') then none
  else if (text[size + 1]?).any isAsciiWhitespace then Time.parseUnsigned 64 digits
  else none

/-- Whether a line closes a fenced block. -/
def closes (marker : Char) (length : ℕ) (line : String) : Bool :=
  ((fence line).any fun found => decide (found.1 = marker ∧ length ≤ found.2)) &&
    (trim line).toList.all (· = marker)

/-- The number of lines up to the one that closes a fenced block, and whether there is one. -/
def untilClosed (marker : Char) (length : ℕ) : List String → ℕ × Bool
  | [] => (0, false)
  | line :: rest =>
    if closes marker length line then (1, true)
    else ((untilClosed marker length rest).1 + 1, (untilClosed marker length rest).2)

/-- Lines that belong together: their kind, how many there are behind the first one, and whether a fence stays open. -/
structure Block where
  kind : Kind
  more : ℕ
  unclosed : Bool

/-- The block that a line begins. -/
def blockAt (line : String) (rest : List String) : Block :=
  match fence line with
  | some (marker, length) =>
    ⟨.codeBlock, (untilClosed marker length rest).1, !(untilClosed marker length rest).2⟩
  | none =>
    if (heading line).isSome then ⟨.heading, 0, false⟩
    else if isBlank line then ⟨.whitespace, (rest.takeWhile isBlank).length, false⟩
    else
      let list := (numbered line).isSome || startsWith (trimStart line) "- "
      ⟨if list then .listBlock else .proseBlock,
        (rest.takeWhile fun next => !isBlank next && (heading next).isNone && (fence next).isNone).length, false⟩

/-! ## Extraction -/

-- `lower` is `str::to_lowercase`.
variable (lower : String → String)

/-- `cues`. -/
def cues (text : String) : List Cue :=
  let low := lower text
  (if ["更正", "有誤", "correction", "i was wrong"].any (containsText low) then [.possibleRevision] else []) ++
    (if ["未完成", "尚未", "失敗", "fail", "not complete"].any (containsText low) then [.possibleNegativeOrPending]
      else []) ++
    (if containsText low "exited with code 0" && containsText low "fail" then [.possibleStatusConflict] else [])

/-- What a request asks, without the envelope that transports it. -/
def requestText (text : String) : String :=
  let trimmed := trim text
  match (stripStart trimmed "<USER_REQUEST>").bind fun tail => splitOnce tail "</USER_REQUEST>" with
  | some (request, _) => trim request
  | none => trimmed

/-- Whether a request is a short reference: a number, or a word that says to go on. -/
def shortReference (text : String) : Bool :=
  (Time.parseUnsigned 64 (requestText text).toList).isSome ||
    decide (requestText text ∈ ["繼續", "继续", "continue", "Continue"])

/-- The candidate of an event of the user. -/
def userCandidate (id : ℕ) (event : TextEvent) (priorAssistant : List ℕ) : Candidate :=
  let context := if shortReference event.text then priorAssistant else []
  let marks :=
    if shortReference event.text then
      if context = [] then [Cue.unresolvedReference] else [.antecedentCandidateFullEvent]
    else []
  ⟨id, event.id, 0, event.text.utf8ByteSize, .userRequest, context, cues lower event.text ++ marks⟩

/-- Where the loop over the lines of an event is. The last heading stands first. -/
structure Walk where
  spans : List Candidate
  offset : ℕ
  headings : List (ℕ × ℕ)
  previousNonblank : Option ℕ

/-- The context of a block: the heading above it, and for a list or a fenced block what is in front of it. -/
def blockContext (kind : Kind) (headings : List (ℕ × ℕ)) (previousNonblank : Option ℕ) : List ℕ :=
  let context := (headings.head?.map Prod.snd).toList
  if kind = .listBlock ∨ kind = .codeBlock then
    match previousNonblank with
    | some previous => if previous ∈ context then context else context ++ [previous]
    | none => context
  else context

/-- The headings above a line: a heading closes those of its level and below. -/
def openHeadings (level : Option ℕ) (headings : List (ℕ × ℕ)) : List (ℕ × ℕ) :=
  match level with
  | some level => headings.dropWhile fun heading => level ≤ heading.1
  | none => headings

/-- A round of the loop over the lines of an event, which stops the program if it cuts inside a character. -/
def Walk.next (event : TextEvent) (walk : Walk) (line : String) (rest : List String) : Option Walk := do
  let level := heading line
  let block := blockAt line rest
  let start := walk.offset
  let offset := start + ((line :: rest.take block.more).map String.utf8ByteSize).sum
  let id := walk.spans.length
  let headings := openHeadings level walk.headings
  let context := blockContext block.kind headings walk.previousNonblank
  let marks := cues lower (← slice event.text start offset) ++
    if block.unclosed then [.unclosedFencePreservedToEnd] else []
  return {
    spans := walk.spans ++ [⟨id, event.id, start, offset, block.kind, context, marks⟩]
    offset
    headings := (level.map fun level => (level, id)).toList ++ headings
    previousNonblank := if block.kind = .whitespace then walk.previousNonblank else some id }

/-- The loop over the lines of an event. -/
def walkLines (event : TextEvent) (walk : Walk) : List String → Option Walk
  | [] => some walk
  | line :: rest => do
    let next ← walk.next lower event line rest
    walkLines event next (rest.drop (blockAt line rest).more)
termination_by lines => lines.length
decreasing_by
  rw [List.length_drop, List.length_cons]
  omega

/-- `str::split_inclusive` at newlines. -/
def lineTexts (text : String) : List String := (splitInclusive '\n' text.toList).map String.ofList

/-- Where the loop over the events is. -/
structure State where
  seen : List ℕ
  spans : List Candidate
  priorAssistant : List ℕ

/-- A round of the loop over the events, for an event with a new id. -/
def State.next (state : State) (event : TextEvent) : Option State :=
  if event.text = "" then some { state with seen := event.id :: state.seen }
  else if event.role = "user" then
    some {
      seen := event.id :: state.seen
      spans := state.spans ++ [userCandidate lower state.spans.length event state.priorAssistant]
      priorAssistant := state.priorAssistant }
  else do
    let walk ← walkLines lower event ⟨state.spans, 0, [], none⟩ (lineTexts event.text)
    return {
      seen := event.id :: state.seen
      spans := walk.spans
      priorAssistant :=
        if event.role = "assistant" then
          List.range' state.spans.length (walk.spans.length - state.spans.length)
        else state.priorAssistant }

/-- The loop over the events. -/
def extractFrom : State → List TextEvent → Option (Except String Candidates)
  | state, [] => some (.ok ⟨"complete_source_partition; semantic_candidates_unverified", state.spans⟩)
  | state, event :: rest =>
    if event.id ∈ state.seen then some (.error "duplicate event ID")
    else (state.next lower event).bind fun next => extractFrom next rest

/-- `extract`. It is none if the program stops because it cuts inside a character. -/
def extract (events : List TextEvent) : Option (Except String Candidates) := extractFrom lower ⟨[], [], []⟩ events

end Innen.ContextCandidates
