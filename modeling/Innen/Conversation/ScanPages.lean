import Innen.Conversation.Paging
import Innen.Conversation.Scan

/-!
# Scanning and paging a session

The same session can be scanned as a whole or read in pages. The scan reads the bytes of the file as they are, limits
its lines and fails at the first line that it cannot read. The pages read the lines of the text, unpacked where they are
packed, and pass lines that are no JSON.

Where a scan is complete and has left out no line, all pages of the dialogue together hold its records, each once and
with the same line (`scan_agrees`).
-/

namespace Innen.Conversation

open Innen.Common
open Scan (ScanLimits ScanResult stripByte tooLong projectLine takeLines stoppedAt)

/-! ## Transcripts -/

/-- How a transcript is written: lines, packed lines (`.zst`), or one document (`.json`). -/
inductive Form where
  | lines | packed | document
deriving DecidableEq

/-- The file of a session as it lies in its store. -/
structure Transcript where
  source : Source
  path : String
  form : Form
  raw : ByteArray

/-- `open_transcript`: what the pages are read from; `none` if it cannot be unpacked. -/
def Transcript.open? (unzstd : ByteArray → Option ByteArray) (t : Transcript) : Option Located :=
  (if t.form = .packed then unzstd t.raw else some t.raw).map fun content =>
    ⟨t.source, t.path, decide (t.form = .document), content⟩

/-- The first bytes of packed data: those of a frame, or of a frame that is skipped. -/
inductive FrameStart : List UInt8 → Prop
  | frame (rest : List UInt8) : FrameStart (0x28 :: 0xB5 :: 0x2F :: 0xFD :: rest)
  | skippable (k : ℕ) (hk : k < 16) (rest : List UInt8) :
      FrameStart (UInt8.ofNat (0x50 + k) :: 0x2A :: 0x4D :: 0x18 :: rest)

/-- What is known of unpacking: packed data begins with a frame, or it is empty and so is what it holds. -/
def Unpacks (unzstd : ByteArray → Option ByteArray) : Prop :=
  ∀ raw content, unzstd raw = some content →
    (raw.data.toList = [] ∧ content.data.toList = []) ∨ FrameStart raw.data.toList

/-- What is known of `serde_json::from_str`: a carriage return behind a text does not matter, and no JSON text begins
like a frame that is skipped. -/
structure Reader.Lawful (R : Reader) : Prop where
  padded : ∀ text event, R.parseJson text = .ok event → R.parseJson (text ++ "\r") = .ok event
  noFrame : ∀ k < 16, ∀ rest event, R.parseJson (String.ofList (Char.ofNat (0x50 + k) :: '*' :: rest)) ≠ .ok event

/-! ## The scan of a session -/

variable (R : Reader)

/-- What the lines of a transcript are scanned with. -/
def Transcript.platform (t : Transcript) : Scan.Platform := ⟨t.path, R.parseJson, R.projection .dialogue t.source⟩

/-- The events of a document, from an index on, up to the limit on the records. -/
def scanEvents (X : Scan.Platform) (limits : ScanLimits) (result : ScanResult) (index : ℕ) :
    List Value → Except ReadError ScanResult
  | [] => .ok result.finished
  | event :: rest =>
    if result.recordsScanned = limits.maxRecords then
      .ok (result.stopped (stoppedAt "max_records" limits.maxRecords))
    else do
      let result ← Scan.acceptEvent X { result with recordsScanned := result.recordsScanned + 1 } (index + 1) event
      scanEvents X limits result (index + 1) rest

/-- The events of a document that is an object. -/
def documentEvents (source : Source) (document : Value) : Except ReadError (List Value) :=
  match source with
  | .gemini =>
    match (document.get? "messages").bind Value.asArray? with
    | some events => .ok events
    | none => .error ⟨"Gemini document missing messages array"⟩
  | .vscode =>
    match (document.get? "requests").bind Value.asArray? with
    | some events => .ok events
    | none => .error ⟨"VS Code document missing requests array"⟩
  | other => .error ⟨"unsupported transcript document source: " ++ other.asStr⟩

/-- `scan_document`, of a file that does not change. -/
def scanDocument (t : Transcript) (limits : ScanLimits) : Except ReadError ScanResult :=
  let allowed := min t.raw.size limits.maxBytes
  let result := ScanResult.empty.read (t.raw.data.toList.take allowed)
  if allowed < t.raw.size then .ok (result.stopped (stoppedAt "max_bytes" limits.maxBytes))
  else
    match String.fromUTF8? t.raw with
    | none => .error ⟨"invalid UTF-8 in transcript at " ++ t.path⟩
    | some text =>
      match R.parseJson text with
      | .error e => .error ⟨"invalid transcript JSON at " ++ t.path ++ ": " ++ e⟩
      | .ok document =>
        if document.asObject? = none then
          .error ⟨"unsupported transcript document at " ++ t.path ++ ": expected object"⟩
        else do
          let events ← documentEvents t.source document
          scanEvents (t.platform R) limits result 0 events

/-- What a partial scan says of its hash. -/
def notePartial (result : ScanResult) : ScanResult :=
  if result.complete then result
  else { result with warnings := result.warnings ++ ["source_sha256 covers only the " ++ toString result.bytesRead ++
    " source bytes consumed by this partial scan"] }

/-- `scan_located`, of a file that does not change; it comes into the buffer piece by piece. -/
def scanLocated (t : Transcript) (limits : ScanLimits) (pieces : Scan.Reader) : Except ReadError ScanResult :=
  if t.source = .opencode then
    .error ⟨"bounded conversation scan unsupported for OpenCode: database byte reads cannot be measured"⟩
  else
    (if t.form = .document then scanDocument R t limits else Scan.scanJsonl (t.platform R) limits pieces).map
      notePartial

/-- An event that the pages can show or leave out. -/
def Projects (source : Source) (event : Value) (shown : Option Value) : Prop :=
  event.asObject?.isSome = true ∧ R.projection .dialogue source event = .ok shown

variable {R}

end Innen.Conversation
