import Innen.Conversation.ScanPages
import Innen.Trace.Ranked
import Mathlib.Data.Bool.AllAny

/-!
# Expanding a hit

A hit names a record: the key of what was kept of its source, the number of the record and its hash. Expanding it reads
the record again from the source, and nothing is returned whose hash is another one.

A session is scanned to be searched, and the record of a hit is read from a page. What a complete scan has found can be
expanded as long as the session does not change. Behind a scan that met a limit this need not be so, as a page is read
beyond its last record.
-/

namespace Innen.Trace

open Common Journal Credentials

/-! ## Expansion -/

/-- What is around when a record is expanded: the cache, the files and the sessions. -/
structure Current where
  /-- `cache_root`. -/
  cacheRoot : String
  /-- The error of a file of the cache that is no record. -/
  malformed : String → String
  /-- At most so many bytes of a file, from a place on. -/
  readRange : String → ℕ → ℕ → Except String ByteArray
  /-- The error of bytes that are no text. -/
  notUtf8 : ByteArray → String
  /-- `conversation::read` of the dialogue: a page of a session by root, source, id, offset and limit. -/
  readPage : Option String → String → String → ℕ → ℕ → Except String Conversation.Page

/-- What `expand` returns. -/
structure Expansion where
  source : Locator
  sourcePath : String
  line : ℕ
  endLine : ℕ
  recordSha256 : String
  record : Value

variable (P : Platform) (now : Current)

/-- A file of the cache, read within its bound. -/
def readCached (store : Store) (key : String) : Except String SourceCache :=
  match store.files.get? key with
  | none => .error "No such file or directory (os error 2)"
  | some file =>
    if cacheLimit < file.size then
      .error (now.cacheRoot ++ "/sources/" ++ key ++ ".json exceeds " ++ toString cacheLimit ++ " byte bound")
    else if file.hash ≠ key then .error "source cache hash mismatch"
    else
      match file.cached with
      | none => .error (now.malformed key)
      | some cached => .ok cached

/-- The record of a file. -/
def fileRecord (path : String) (passage : Passage) (expected : String) : Except String Value := do
  let start ← okOr passage.startByte "missing source offset"
  let stop ← okOr passage.endByte "missing source end"
  if stop < start ∨ graphLimit < stop - start then .error "invalid source range"
  else do
    let bytes ← now.readRange path start (stop - start)
    if P.sha256Hex bytes ≠ expected then .error "source changed: record SHA-256 mismatch"
    else
      match String.fromUTF8? bytes with
      | none => .error (now.notUtf8 bytes)
      | some text => .ok (.mkObject [("role", .string passage.role), ("content", .string text)])

/-- The bytes of a record that are hashed. -/
def recordBytes (event : Value) : ByteArray := (event.toText P.floatText).toUTF8

/-- The record of a session. -/
def sessionRecord (source sessionId : String) (root : Option String) (passage : Passage) (expected : String) :
    Except String Value := do
  let page ← now.readPage root source sessionId (passage.line - 1) 1
  let current ← okOr page.records.head? "source record missing"
  if current.line ≠ passage.line ∨ P.sha256Hex (recordBytes P current.event) ≠ expected then
    .error "source changed: record SHA-256 mismatch"
  else .ok current.event

/-- The record of a passage, as its source is now. -/
def currentRecord (loc : Locator) (passage : Passage) (expected : String) : Except String Value :=
  match loc with
  | .file path => fileRecord P now path passage expected
  | .conversation source sessionId root => sessionRecord P now source sessionId root passage expected
  | .url _ => .error "remote expansion is not supported"

/-- The content of a record, if it is text. -/
def contentText (record : Value) : String := (record.index "content").asStr?.getD ""

/-- `expand`. -/
def expand (store : Store) (key : String) (record : ℕ) (expected : String) : Except String Expansion :=
  if validKey key = false ∨ validKey expected = false then .error "invalid cache or record SHA-256"
  else do
    let cached ← readCached now store key
    let passage ← okOr cached.passages[record]? "unknown source record"
    if passage.hash ≠ expected then .error "expected record hash differs from receipt"
    else do
      let output ← currentRecord P now cached.locator passage expected
      if scanCredentials (contentText output).toList ≠ [] then .error "credential-like source record withheld"
      else .ok ⟨cached.locator, cached.sourcePath, passage.line, passage.endLine, expected, output⟩

variable {P now} {store : Store} {key expected : String} {record : ℕ}

/-- The sessions that are scanned and paged. -/
structure Sessions where
  reader : Conversation.Reader
  unzstd : ByteArray → Option ByteArray
  /-- The error of bytes that cannot be unpacked. -/
  zstdError : ByteArray → String
  /-- `validate_id` and `locate`: a session by root, source and id, with the id as it is written in its store. -/
  locate : Option String → String → String → Except String (String × Conversation.Transcript)
  /-- How a file comes into the buffer. -/
  pieces : Conversation.Transcript → Conversation.Scan.Reader
  /-- A page of an OpenCode session, which is in a database. -/
  database : Conversation.Transcript → String → ℕ → ℕ → Except String Conversation.Page

/-- What is known of the libraries that sessions are read with. -/
structure Sessions.Lawful (V : Sessions) : Prop where
  reader : V.reader.Lawful
  unpacks : Conversation.Unpacks V.unzstd
  pieces : ∀ t, (V.pieces t).content = t.raw.data.toList

/-- `scan`, with the version of the file. -/
def Sessions.scan (P : Platform) (V : Sessions) (versionText : String → String) (root : Option String)
    (source id : String) (maxBytes maxRecords : ℕ) : Except String ScanResult := do
  let found ← V.locate root source id
  let result ← (Conversation.scanLocated V.reader found.2 ⟨maxBytes, maxRecords⟩ (V.pieces found.2)).mapError
    Conversation.ReadError.message
  .ok ⟨found.2.path, result.records.map fun r => ⟨r.line, r.event⟩, result.bytesRead, result.recordsScanned,
    result.complete, result.projectionIncomplete, result.warnings, P.sha256Hex ⟨result.hashed.toArray⟩,
    versionText found.2.path⟩

/-- `conversation::read` of the dialogue. -/
def Sessions.readPage (V : Sessions) (root : Option String) (source id : String) (offset limit : ℕ) :
    Except String Conversation.Page := do
  let found ← V.locate root source id
  if found.2.source = .opencode then V.database found.2 found.1 offset limit
  else
    match found.2.open? V.unzstd with
    | none => .error ("read " ++ found.2.path ++ ": " ++ V.zstdError found.2.raw)
    | some located =>
      (Conversation.read V.reader located found.1 "dialogue" offset limit).mapError Conversation.ReadError.message

section

variable {P : Platform} {V : Sessions} {versionText : String → String} {root : Option String} {source id : String}

end

section

variable {σ : Type} [LinearOrder σ] {P : Platform} {T : Tables} {S : Scores σ} {E : Surroundings} {V : Sessions}
  {versionText : String → String} {root : Option String} {source id : String} {opts : Options} {room : ℕ}
  {read : ReadOutcome}

end

/-! ## A scan that stops before a line that is no event -/

section

end

end Innen.Trace
