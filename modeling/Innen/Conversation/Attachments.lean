import Innen.Conversation.Codec
import Innen.Json.Slots

/-!
# Attachments

Images and encrypted payloads may be left out of a page. A reference to the source takes the place of each, and the
references are listed with the pointers of their slots. Replacing the slots by the strings that are found in the
source gives the page back, as far as the compact encoding around it does (`externalized_iff`).
-/

namespace Innen.Conversation

open Innen.Common

/-! ## Which strings are left out -/

/-- `image_uri`: an image as a data URI in base 64. -/
def imageUri (text : String) : Bool :=
  match splitOnce text "," with
  | none => false
  | some (header, body) =>
    let trimmed := String.ofList (body.toList.rdropWhile (· = '='))
    startsWith header "data:image/" && (stripEnd header ";base64").isSome && decide (body ≠ "") &&
      body.utf8ByteSize % 4 == 0 && (trimmed.toList.all fun c => c.isAlphanum || c == '+' || c == '/') &&
      decide (body.utf8ByteSize - trimmed.utf8ByteSize ≤ 2)

/-- What kind of payload a string at a pointer is, if it is one. -/
def payloadKind (encrypted : Bool) (pointer text : String) : Option String :=
  if encrypted = true ∧ pointer = "/payload/encrypted_content" ∧ text ≠ "" then some "codex_encrypted_reasoning"
  else if imageUri text then some "image_data_uri"
  else none

/-- A string that was left out. -/
structure Reference where
  record : ℕ
  line : ℕ
  pointer : String
  kind : String
  bytes : ℕ
  sha256 : String
deriving DecidableEq

/-- A reference as JSON. -/
def Reference.toValue (r : Reference) : Value :=
  .object [("bytes", .nat r.bytes), ("kind", .string r.kind), ("line", .nat r.line), ("pointer", .string r.pointer),
    ("record", .nat r.record), ("sha256", .string r.sha256)]

/-- What takes the place of a string. -/
def marker (index : ℕ) : Value := .object [("attachment", .nat index)]

section

variable (sha : String → String)

mutual

/-- `walk`: leave out the strings of a value and list them. -/
def walk (encrypted : Bool) (record line : ℕ) : Value → String → List Reference → Value × List Reference
  | .string text, pointer, refs =>
    match payloadKind encrypted pointer text with
    | some kind => (marker refs.length, refs ++ [⟨record, line, pointer, kind, text.utf8ByteSize, sha text⟩])
    | none => (.string text, refs)
  | .array items, pointer, refs =>
    let walked := walkItems encrypted record line items pointer 0 refs
    (.array walked.1, walked.2)
  | .object fields, pointer, refs =>
    let walked := walkFields encrypted record line fields pointer refs
    (.object walked.1, walked.2)
  | other, _, refs => (other, refs)

/-- `walk` on items, from an index on. -/
def walkItems (encrypted : Bool) (record line : ℕ) :
    List Value → String → ℕ → List Reference → List Value × List Reference
  | [], _, _, refs => ([], refs)
  | v :: rest, pointer, i, refs =>
    let first := walk encrypted record line v (pointer ++ "/" ++ toString i) refs
    let others := walkItems encrypted record line rest pointer (i + 1) first.2
    (first.1 :: others.1, others.2)

/-- `walk` on fields. -/
def walkFields (encrypted : Bool) (record line : ℕ) :
    Fields → String → List Reference → Fields × List Reference
  | [], _, refs => ([], refs)
  | (key, v) :: rest, pointer, refs =>
    let first := walk encrypted record line v (pointer ++ "/" ++ escapeToken key) refs
    let others := walkFields encrypted record line rest pointer first.2
    ((key, first.1) :: others.1, others.2)

end

/-- Whether an event is encrypted reasoning of Codex. -/
def isEncrypted (source : Source) (event : Value) : Bool :=
  source = .codex ∧ (event.index "type").asStr? = some "response_item" ∧
    ((event.index "payload").index "type").asStr? = some "reasoning"

/-- Walk over one record. -/
def walkRecord (source : Source) (s : List Record × List Reference) (r : Record × ℕ) :
    List Record × List Reference :=
  let walked := walk sha (isEncrypted source r.1.event) r.2 r.1.line r.1.event "" s.2
  (s.1 ++ [⟨r.1.line, walked.1⟩], walked.2)

/-- Walk over the records of a page. -/
def walkRecords (page : Page) : List Record × List Reference :=
  page.records.zipIdx.foldl (walkRecord sha page.source) ([], [])

/-- The references of a page. -/
def references (page : Page) : List Reference := (walkRecords sha page).2

/-- A page without the strings that are left out. -/
def withoutPayloads (page : Page) : Page := { page with records := (walkRecords sha page).1 }

/-! ## Leaving them out -/

variable (floatText : UInt64 → String)

/-- A page, compact or not. -/
def asValue (useCompact : Bool) (page : Page) : Value :=
  if useCompact then encode floatText page else page.toValue

/-- The notice in a page with references. -/
def attachmentNotice : String :=
  "Payloads are not inline. References need the unchanged source. No image or encrypted-content understanding is " ++
    "implied."

/-- A page with references. -/
def packedPage (useCompact : Bool) (page : Page) : Value :=
  .object [("attachments", .array ((references sha page).map Reference.toValue)),
    ("encoding", .string "innen.attachments.v1"), ("notice", .string attachmentNotice),
    ("page", asValue floatText useCompact (withoutPayloads sha page))]

/-- `externalize`. -/
def externalize (page : Page) (useCompact : Bool) : Except ReadError Value :=
  if page.view ≠ .events then .error ⟨"--attachment-refs requires --view events"⟩
  else
    let original := asValue floatText useCompact page
    if references sha page = [] then .ok original
    else .ok (shorter floatText (packedPage sha floatText useCompact page) original)

/-! ## Finding them again -/

/-- Whether a character is a hexadecimal digit. -/
def isHexDigit (c : Char) : Bool := c.isDigit || ('a' ≤ c && c ≤ 'f') || ('A' ≤ c && c ≤ 'F')

/-- `resolve`: the string of a source event, if it is the one with the hash. -/
def resolve (page : Page) (offset : ℕ) (pointer expected : String) : Except ReadError Value :=
  if expected.utf8ByteSize ≠ 64 ∨ expected.toList.all isHexDigit = false then
    .error ⟨"expected a 64-digit SHA-256"⟩
  else
    match page.records with
    | [record] =>
      if startsWith pointer "/" = false ∨ page.view ≠ .events then
        .error ⟨"attachment lookup requires one source event and an absolute JSON pointer"⟩
      else if offset + 1 ≠ record.line then .error ⟨"requested source row is no longer present"⟩
      else
        match (record.event.pointer pointer).bind Value.asStr? with
        | none => .error ⟨"attachment string not found at source pointer"⟩
        | some text =>
          if asciiLower (sha text) ≠ asciiLower expected then
            .error ⟨"attachment hash mismatch: source changed or reference is incorrect"⟩
          else
            .ok (.object [("bytes", .nat text.utf8ByteSize), ("line", .nat record.line),
              ("pointer", .string pointer), ("sha256", .string (sha text)), ("value", .string text)])
    | _ => .error ⟨"attachment lookup requires one source event and an absolute JSON pointer"⟩

/-- Replace one listed slot by the string that is found for it. `fetch` is the page that is read at an offset. -/
def putBack (fetch : ℕ → Page) (restored : Value) (entry : Value × ℕ) : Option Value := do
  let record ← (entry.1.index "record").asU64?
  let line ← (entry.1.index "line").asU64?
  let pointer ← (entry.1.index "pointer").asStr?
  let hash ← (entry.1.index "sha256").asStr?
  let answer ← (resolve sha (fetch (line - 1)) (line - 1) pointer hash).toOption
  let path ← pointerTokens pointer
  Value.update (Value.exchange (marker entry.2) (answer.index "value"))
    (["records", toString record, "event"] ++ path) restored

/-- Undo `externalize`: decode the page and replace exactly the slots that are listed. -/
def restore (fetch : ℕ → Page) (v : Value) : Option Value :=
  if encodingOf v = some "innen.attachments.v1" then do
    let inner ← (decode (v.index "page")).toOption
    let refs ← (v.index "attachments").asArray?
    refs.zipIdx.foldlM (putBack sha fetch) inner
  else (decode v).toOption

end

end Innen.Conversation
