import Innen.Common.Utf8
import Innen.Trace.Metadata
import Innen.Trace.Passages

/-!
# Reading sources

A file is read up to a number of bytes and a number of lines and passages. It was read completely if neither limit was
met. What was read is kept with the version of the file. A source that was read completely is not read again as long as
its version is the same.
-/

namespace Innen.Trace

open Common Graph Journal

/-! ## What is read -/

/-- `Version`. -/
structure Version where
  bytes : ℕ
  modifiedNs : ℕ
deriving DecidableEq

/-- `SourceCache`. -/
structure SourceCache where
  schema : ℕ
  locator : Locator
  sourcePath : String
  version : Version
  complete : Bool
  projectionIncomplete : Bool
  maxBytes : ℕ
  maxRecords : ℕ
  warnings : List String
  sourceSha256 : String
  recordsScanned : ℕ
  passages : List Passage
  docs : List LexDoc
  references : List Reference

/-- `Record`: a record of a native session. -/
structure NativeRecord where
  line : ℕ
  event : Value

/-- `ScanResult`: what the scan of a native session gives. -/
structure ScanResult where
  sourcePath : String
  records : List NativeRecord
  bytesRead : ℕ
  recordsScanned : ℕ
  complete : Bool
  projectionIncomplete : Bool
  warnings : List String
  sourceSha256 : String
  sourceVersion : String

/-- What is around: the files, the native sessions and how a record of the cache is written. -/
structure Surroundings where
  /-- The time of a regular file, in nanoseconds. -/
  modified : String → Except String ℕ
  /-- The bytes of a file. -/
  content : String → ByteArray
  /-- `scan`: a native session, by root, source and id, within so many bytes and records. -/
  scan : Option String → String → String → ℕ → ℕ → Except String ScanResult
  /-- The ids that `find_all_candidates` finds. -/
  candidateIds : String → Option String → Except String (List String)
  /-- `serde_json::to_vec` of what is kept. -/
  encode : SourceCache → ByteArray

/-- `version`: the size and the time of a regular file. -/
def Surroundings.version (E : Surroundings) (path : String) : Except String Version :=
  (E.modified path).map fun ns => ⟨(E.content path).size, ns⟩

/-- `ReadOutcome`. -/
structure ReadOutcome where
  path : String
  version : Version
  passages : List Passage
  complete : Bool
  projectionIncomplete : Bool
  warnings : List String
  hash : String
  scanned : ℕ
  bytes : ℕ
  references : List Reference

/-- `SourceFailure`: a failed scanner may have consumed all that it was allowed to. -/
structure SourceFailure where
  error : String
  consumed : Option ℕ

variable (P : Platform) (T : Tables) (E : Surroundings)

/-! ## Files -/

/-- The extension of a path, in lower case. -/
def extensionOf (path : String) : String :=
  let parts := ((path.toList.splitOn '/').map String.ofList).filter fun part => part ≠ "" ∧ part ≠ "."
  match parts.getLast? with
  | none => ""
  | some name =>
    if name = ".." then ""
    else
      match (name.toList.splitOn '.').reverse with
      | ext :: stem :: rest => if stem = [] ∧ rest = [] then "" else T.lower (String.ofList ext)
      | _ => ""

/-- `file_preflight`. -/
def filePreflight (path : String) : Except String Version :=
  let ext := extensionOf T path
  if ext ∈ ["", "md", "txt", "json", "jsonl", "yaml", "yml", "log"] then E.version path
  else .error ("unsupported source type ." ++ ext ++ ": " ++ path)

/-- Whether bytes are the start of a character that goes on. -/
def isOpenTail (bytes : List UInt8) : Bool :=
  (bytes.head?.any fun first => 0xC2 ≤ first && first ≤ 0xF4) && utf8Piece bytes = (bytes.length, false)

/-- The text of bytes that were cut off: the start of a character at the end is left out. -/
def cutText (bytes : ByteArray) : Option String :=
  [1, 2, 3].findSome? fun k =>
    if k ≤ bytes.size ∧ isOpenTail (bytes.data.toList.drop (bytes.size - k)) then
      String.fromUTF8? (bytes.extract 0 (bytes.size - k))
    else none

/-- The text of a file that was read. -/
def sourceText? (bytes : ByteArray) (complete : Bool) : Option String :=
  (String.fromUTF8? bytes).or (if complete then none else cutText bytes)

/-- What the bytes of a file and their text give. -/
def fileOutcome (path : String) (before : Version) (opts : Options) (bytes : ByteArray) (complete : Bool)
    (text : String) : ReadOutcome :=
  let scan := filePassages P T text.toList opts.maxRecords
  let metadata := if complete && !scan.truncated then references (fun s => (P.parseValue s).map (·.val)) text
    else ⟨[], false⟩
  let projectionIncomplete := scan.truncated || metadata.truncated
  ⟨path, before, scan.passages, complete && !projectionIncomplete, projectionIncomplete,
    (if complete then [] else ["source_byte_budget_truncated"]) ++
      (if scan.truncated then ["passage_budget_truncated"] else []) ++
        (if metadata.truncated then ["metadata_reference_budget_truncated"] else []),
    P.sha256Hex bytes, scan.records, bytes.size, metadata.references⟩

/-- `read_file`. -/
def readFile (path : String) (before : Version) (opts : Options) (remaining : ℕ) : Except String ReadOutcome :=
  let bytes := (E.content path).extract 0 remaining
  let complete := decide (bytes.size = before.bytes)
  match sourceText? bytes complete with
  | none => .error "source UTF-8"
  | some text =>
    if (E.version path).toOption ≠ some before then .error "source changed during read"
    else .ok (fileOutcome P T path before opts bytes complete text)

/-! ## Native sessions -/

/-- `native_passage`. -/
def nativePassage (record : NativeRecord) : Option Passage :=
  ((record.event.get? "content").bind Value.asStr?).map fun text =>
    ⟨record.line, record.line, (record.event.index "role").asStr?.getD "unknown",
      (record.event.index "timestamp").asStr?, text, P.sha256Hex (record.event.toText P.floatText).toUTF8, none, none,
      (record.event.index "source_pointer").asStr?, (record.event.index "source_scalar_sha256").asStr?,
      (record.event.index "ordinal").asU64?⟩

/-- How a scan names a version. -/
def Version.text (v : Version) : String := "size=" ++ toString v.bytes ++ ";mtime_unix_ns=" ++ toString v.modifiedNs

/-- `read_native`. -/
def readNative (source id : String) (sourceRoot : Option String) (opts : Options) (remaining : ℕ) :
    Except String ReadOutcome := do
  let result ← E.scan sourceRoot source id remaining opts.maxRecords
  let version ← E.version result.sourcePath
  if version.text ≠ result.sourceVersion then .error "native source changed after scan"
  else
    .ok ⟨result.sourcePath, version, result.records.filterMap (nativePassage P),
      result.complete && !result.projectionIncomplete, result.projectionIncomplete, result.warnings, result.sourceSha256,
      result.recordsScanned, result.bytesRead, []⟩

/-! ## The cache -/

/-- A file of the cache: how long it is, the hash of its bytes, and what they say. -/
structure StoredFile where
  size : ℕ
  hash : String
  cached : Option SourceCache

/-- `sources` of the cache: the file that belongs to a locator, and the files. -/
structure Store where
  refs : SortedMap String String
  files : SortedMap String StoredFile

/-- `CACHE_SCHEMA`. -/
def cacheSchema : ℕ := 5

/-- `CACHE_LIMIT`. -/
def cacheLimit : ℕ := 128 * 1024 * 1024

/-- `GRAPH_LIMIT`. -/
def graphLimit : ℕ := 64 * 1024 * 1024

/-- `valid_key`. -/
def validKey (key : String) : Bool := key.length == 64 && key.toList.all isHexDigit

/-- A locator as JSON text. -/
def Locator.toText : Locator → String
  | .file path => "\x7b\x22kind\x22:\x22file\x22,\x22path\x22:" ++ quote path ++ "\x7d"
  | .conversation source sessionId root =>
    "\x7b\x22kind\x22:\x22conversation\x22,\x22source\x22:" ++ quote source ++ ",\x22session_id\x22:" ++
      quote sessionId ++ ",\x22source_root\x22:" ++ (root.map quote).getD "null" ++ "\x7d"
  | .url address => "\x7b\x22kind\x22:\x22url\x22,\x22url\x22:" ++ quote address ++ "\x7d"

/-- The name of the file that says where a locator is kept. -/
def aliasOf (loc : Locator) : String := P.sha256Hex loc.toText.toUTF8

/-- The readable record of a key. -/
def Store.entry (store : Store) (key : String) : Option SourceCache := do
  let file ← store.files.get? key
  if file.size ≤ cacheLimit ∧ file.hash = key then file.cached else none

/-- `load_cached`. -/
def loadCached (store : Store) (loc : Locator) (opts : Options) (remaining : ℕ) : Option (SourceCache × String) := do
  let key ← (store.refs.get? (aliasOf P loc)).filter validKey
  let cached ← store.entry key
  let compatible := cached.complete ∨ (cached.maxBytes = remaining ∧ cached.maxRecords = opts.maxRecords)
  if cached.schema ≠ cacheSchema ∨ cached.locator ≠ loc ∨ ¬compatible then none
  else if (E.version cached.sourcePath).toOption = some cached.version then some (cached, key)
  else none

/-- The words of passages. -/
def docsOf (passages : List Passage) : List LexDoc := passages.zipIdx.map fun e => lex T (toString e.2) e.1.text

/-- What is kept of a read. -/
def cacheOf (loc : Locator) (read : ReadOutcome) (opts : Options) (remaining : ℕ) : SourceCache :=
  ⟨cacheSchema, loc, read.path, read.version, read.complete, read.projectionIncomplete, remaining, opts.maxRecords,
    read.warnings, read.hash, read.scanned, read.passages, docsOf T read.passages, read.references⟩

/-- `persist`. -/
def persist (store : Store) (loc : Locator) (read : ReadOutcome) (opts : Options) (remaining : ℕ) :
    Except String (SourceCache × String × Store) :=
  let out := cacheOf T loc read opts remaining
  let encoded := E.encode out
  if cacheLimit < encoded.size then .error "source cache exceeds bound"
  else
    let key := P.sha256Hex encoded
    .ok (out, key, ⟨store.refs.insert (aliasOf P loc) key, store.files.insert key ⟨encoded.size, key, some out⟩⟩)

/-! ## Sources -/

/-- What is read of a source that is not kept. -/
def readSource (loc : Locator) (opts : Options) (remaining : ℕ) : Except SourceFailure ReadOutcome :=
  match loc with
  | .file path => do
    let before ← (filePreflight T E path).mapError fun error => ⟨error, some 0⟩
    (readFile P T E path before opts remaining).mapError fun error => ⟨error, none⟩
  | .conversation source sessionId root =>
    (readNative P E source sessionId root opts remaining).mapError fun error => ⟨error, none⟩
  | .url url => .error ⟨"remote source not fetched: " ++ url, some 0⟩

/-- What a source gave: its record, the key of it, whether it was kept before, and how many bytes were read. -/
structure Sourced where
  data : SourceCache
  key : String
  cached : Bool
  read : ℕ

/-- `source`, with the store behind it. -/
def source (store : Store) (loc : Locator) (opts : Options) (remaining : ℕ) : Except SourceFailure Sourced × Store :=
  match if opts.refresh then none else loadCached P E store loc opts remaining with
  | some found => (.ok ⟨found.1, found.2, true, 0⟩, store)
  | none =>
    if remaining = 0 then (.error ⟨"source byte budget exhausted", some 0⟩, store)
    else
      match readSource P T E loc opts remaining with
      | .error failure => (.error failure, store)
      | .ok read =>
        match persist P T E store loc read opts remaining with
        | .error error => (.error ⟨error, some read.bytes⟩, store)
        | .ok kept => (.ok ⟨kept.1, kept.2.1, false, read.bytes⟩, kept.2.2)

/-- `resolve_locator`. -/
def resolveLocator (opts : Options) : Locator → Except String Locator
  | .conversation source sessionId sourceRoot =>
    let effectiveRoot := opts.sourceRoot.or sourceRoot
    if validSessionId sessionId then
      .ok (.conversation source (if sessionId.length = 36 then asciiLower sessionId else sessionId) effectiveRoot)
    else
      let compact := replaceText sessionId "-" ""
      if compact.utf8ByteSize < 8 ∨ compact.toList.all isHexDigit = false then
        .error ("unresolved conversation identity " ++ source ++ ":" ++ sessionId)
      else do
        let ids ← E.candidateIds source effectiveRoot
        match ids.filter fun id => startsWith (replaceText id "-" "") compact with
        | [id] => .ok (.conversation source id effectiveRoot)
        | found => .error ("short conversation identity " ++ source ++ ":" ++ sessionId ++ " resolves to " ++
            toString found.length ++ " candidates")
  | loc => .ok loc

section

variable {P T E} {store store' : Store} {loc : Locator} {opts : Options} {remaining : ℕ}

/-- What was kept has the locator and a version that is still current. -/
theorem loadCached_eq_some {found : SourceCache × String}
    (h : loadCached P E store loc opts remaining = some found) :
    store.entry found.2 = some found.1 ∧ found.1.locator = loc ∧
      (E.version found.1.sourcePath).toOption = some found.1.version := by
  unfold loadCached at h
  obtain ⟨key, -, h⟩ := Option.bind_eq_some_iff.mp h
  obtain ⟨cached, hentry, h⟩ := Option.bind_eq_some_iff.mp h
  dsimp only at h
  split_ifs at h with hother hversion
  rw [← Option.some.inj h]
  simp only [not_or, not_not] at hother
  exact ⟨hentry, hother.2.1, hversion⟩

theorem persist_eq_ok {read : ReadOutcome} {kept : SourceCache × String × Store}
    (h : persist P T E store loc read opts remaining = .ok kept) :
    kept.1 = cacheOf T loc read opts remaining ∧
      ∀ key, kept.2.2.entry key = store.entry key ∨ kept.2.2.entry key = some kept.1 := by
  unfold persist at h
  dsimp only at h
  split_ifs at h with hlarge
  rw [← Except.ok.inj h]
  refine ⟨rfl, fun key => ?_⟩
  simp only [Store.entry, SortedMap.get?_insert]
  split_ifs with hkey
  · refine .inr ?_
    rw [Option.bind_eq_bind, Option.bind_some, if_pos ⟨Nat.le_of_not_lt hlarge, hkey.symm⟩]
  · exact .inl rfl

/-- A source was kept before, or it is read now and kept. -/
theorem source_ok {got : Sourced} (h : source P T E store loc opts remaining = (.ok got, store')) :
    (loadCached P E store loc opts remaining = some (got.data, got.key) ∧ store' = store) ∨
      ∃ read, readSource P T E loc opts remaining = .ok read ∧
        persist P T E store loc read opts remaining = .ok (got.data, got.key, store') := by
  unfold source at h
  split at h
  · rename_i found hfound
    obtain ⟨hgot, rfl⟩ := Prod.mk.inj h
    rw [← Except.ok.inj hgot]
    split_ifs at hfound
    exact .inl ⟨hfound, rfl⟩
  · split_ifs at h with hzero
    · cases (Prod.mk.inj h).1
    · split at h
      · cases (Prod.mk.inj h).1
      · rename_i read hread
        split at h
        · cases (Prod.mk.inj h).1
        · rename_i kept hkept
          obtain ⟨hgot, rfl⟩ := Prod.mk.inj h
          rw [← Except.ok.inj hgot]
          exact .inr ⟨read, hread, hkept⟩

/-- A failure leaves the store. -/
theorem source_error {failure : SourceFailure} (h : source P T E store loc opts remaining = (.error failure, store')) :
    store' = store := by
  unfold source at h
  split at h
  · cases (Prod.mk.inj h).1
  · split_ifs at h with hzero
    · exact (Prod.mk.inj h).2.symm
    · split at h
      · exact (Prod.mk.inj h).2.symm
      · split at h
        · exact (Prod.mk.inj h).2.symm
        · cases (Prod.mk.inj h).1

end

/-! ## Excerpts -/

/-- Characters in the case in which terms are compared. -/
def foldedChars (cs : List Char) : List Char := cs.flatMap fun c => (T.lower (String.singleton c)).toList

/-- The byte where a term occurs first, in any letter case. -/
def firstByte (term : List Char) : ℕ → List Char → Option ℕ
  | _, [] => none
  | start, c :: rest =>
    if (foldedChars T (c :: rest)).take term.length = term then some start
    else firstByte term (start + c.utf8Size) rest

/-- `first_match_byte`. -/
def firstMatchByte (text : List Char) (query : List String) : ℕ :=
  ((((query.map fun q => (T.lower q).toList).filter (· ≠ [])).filterMap fun term => firstByte T term 0 text).min?).getD 0

/-- Leave out whole characters within so many bytes. -/
def skipBytes : ℕ → List Char → List Char
  | _, [] => []
  | n, c :: rest => if c.utf8Size ≤ n then skipBytes (n - c.utf8Size) rest else c :: rest

/-- What an excerpt shows of a text. -/
def excerptBody (text : List Char) (query : List String) : List Char :=
  (skipBytes (firstMatchByte T text query - 120) text).take 600

/-- `excerpt`. -/
def excerpt (text : String) (query : List String) : String :=
  let start := byteLen text.toList - byteLen (skipBytes (firstMatchByte T text.toList query - 120) text.toList)
  let out := (if 0 < start then ['…'] else []) ++ excerptBody T text.toList query
  String.ofList (out ++ if start + byteLen out < byteLen text.toList then ['…'] else [])

end Innen.Trace
