import Innen.Common.Interrupted
import Innen.Common.Transition
import Innen.Retention.Deletion
import Innen.Retention.Knowledge

/-!
# Compact transcripts

A closed session that nobody has extracted is compacted: the dialogue is written to a file of the knowledge base that
is named after the session, and a node records the file and its hash. A later compaction of the same session writes to
the same file, and the node of the earlier one stays.
-/

namespace Innen.Retention

open Innen.Common Innen.Conversation

/-! ## The dialogue -/

/-- One message, if a user or the assistant says something. -/
def dialogueRow (line : ℕ) (event : Value) : List Value :=
  let role := ((event.get? "role").bind Value.asStr?).getD ""
  let content := ((event.get? "content").bind Value.asStr?).getD ""
  if role ∈ ["user", "assistant"] ∧ blank content = false then
    let row := Value.mkObject [("line", .nat line), ("role", .string role), ("content", .string content)]
    match event.get? "timestamp" with
    | some .null | none => [row]
    | some timestamp => [row.set "timestamp" timestamp]
  else []

mutual

/-- `dialogue_lines`: the messages of an event, or of the messages in it. -/
def dialogueLines (line : ℕ) : Value → List Value
  | .object fields =>
    match Assoc.get? "messages" (messageLines line fields) with
    | some (some rows) => rows
    | _ => dialogueRow line (.object fields)
  | event => dialogueRow line event

/-- The messages in an array. -/
def arrayLines (line : ℕ) : Value → Option (List Value)
  | .array items => some (itemLines line items)
  | _ => none

/-- The messages of a list of events. -/
def itemLines (line : ℕ) : List Value → List Value
  | [] => []
  | event :: rest => dialogueLines line event ++ itemLines line rest

/-- The messages in each field. -/
def messageLines (line : ℕ) : List (String × Value) → List (String × Option (List Value))
  | [] => []
  | (key, event) :: rest => (key, arrayLines line event) :: messageLines line rest

end

/-- A row on a line of its own. -/
def encodeRow (floatText : UInt64 → String) (row : Value) : List UInt8 :=
  utf8Bytes (row.toText floatText ++ "\n").toList

/-- The bytes of a compact transcript. -/
def encodeDialogue (floatText : UInt64 → String) (events : List (ℕ × Value)) : List UInt8 :=
  (events.flatMap fun e => dialogueLines e.1 e.2).flatMap (encodeRow floatText)

/-! ## Compaction -/

/-- What a compaction reads: the bundle before and after, who uses the session, and its events with warnings. -/
structure Compaction where
  candidate : Candidate
  before : Except RetentionError Bundle
  activity : Activity
  dialogue : Except RetentionError (List (ℕ × Value) × List String)
  after : Except RetentionError Bundle
  now : String

/-- The file of a compact transcript, below the knowledge base. -/
def compactPath (c : Candidate) : String :=
  "00-inbox/harvest/compact/" ++ c.source.asStr ++ "/" ++ c.id.1 ++ ".jsonl"

/-- The id of a compact transcript. -/
def compactId (c : Candidate) (sha : String) : String := "compact-transcript:" ++ c.key ++ ":" ++ takeChars 16 sha

/-- What a compaction has made of a session. -/
structure Compacted where
  bytes : List UInt8
  messages : ℕ
  warnings : List String
  source : Bundle

/-- `compact_and_attest` up to the file that gets its name. -/
def compactDialogue (floatText : UInt64 → String) (x : Compaction) : Except RetentionError Compacted := do
  let before ← x.before
  match x.activity with
  | .idle => .ok ()
  | .active => .error (.proof "native session has an open file handle")
  | .unknown detail => .error (.proof ("native session activity could not be verified: " ++ detail))
  let (events, warnings) ← x.dialogue
  let after ← x.after
  failIf (after.sha256 ≠ before.sha256) (.proof "native session changed while compacting")
  .ok {
    bytes := encodeDialogue floatText events
    messages := (events.flatMap fun e => dialogueLines e.1 e.2).length
    warnings := warnings
    source := before }

/-- The node of a compact transcript. -/
def compactEntry (sha256 : List UInt8 → String) (x : Compaction) (y : Compacted) : Entry :=
  nodeEntry x.now [("id", .string (compactId x.candidate (sha256 y.bytes))), ("type", .string "CompactTranscript"),
    ("label", .string ("compact transcript " ++ x.candidate.key)), ("provenance", .string "innen retention sweep"),
    ("path", .string (compactPath x.candidate)), ("sha256", .string (sha256 y.bytes)), ("bytes", .nat y.bytes.length),
    ("messages", .nat y.messages), ("source_sha256", .string y.source.sha256),
    ("source_bytes", .nat y.source.bytes), ("observed_utc", .string x.now), ("warnings", .strings y.warnings)]

/-- The node of the session. -/
def conversationEntry (x : Compaction) : Entry :=
  nodeEntry x.now [("id", .string (conversationId x.candidate)), ("type", .string "Conversation"),
    ("label", .string (x.candidate.source.asStr ++ " session " ++ x.candidate.id.1)),
    ("provenance", .string "innen retention sweep"), ("project", .optional .string x.candidate.project),
    ("modified", .optional .string x.candidate.modified)]

/-- The edge from the compact transcript to the session. -/
def derivedEntry (sha256 : List UInt8 → String) (x : Compaction) (y : Compacted) : Entry :=
  ⟨"edge.assert", .mkObject [("from", .string (compactId x.candidate (sha256 y.bytes))),
    ("type", .string "DERIVED_FROM"), ("to", .string (conversationId x.candidate))], x.now⟩

/-- The proof that the session is extracted. -/
def proofEntry (sha256 : List UInt8 → String) (x : Compaction) (y : Compacted) : Entry :=
  nodeEntry x.now
    [("id", .string ("session-retention:" ++ x.candidate.key ++ ":" ++ takeChars 16 y.source.sha256)),
    ("type", .string "SessionRetentionReceipt"), ("label", .string ("compact retention proof " ++ x.candidate.key)),
    ("provenance", .string "innen retention sweep (compact)"), ("schema", .string schema),
    ("session_id", .string x.candidate.id.1), ("source", .string x.candidate.source.asStr),
    ("source_sha256", .string y.source.sha256), ("source_bytes", .nat y.source.bytes),
    ("knowledge_node_ids", .strings [compactId x.candidate (sha256 y.bytes)]),
    ("extraction_complete", .bool true), ("session_closed", .bool true), ("observed_utc", .string x.now)]

/-! ## The knowledge base -/

/-- The files of a knowledge base that compaction writes, and its journal. -/
structure Knowledge where
  files : SortedMap String (List UInt8)
  journal : List Entry

/-- One write: a file gets its name, or a line is appended. -/
inductive Write where
  | publish (path : String) (bytes : List UInt8)
  | append (e : Entry)

/-- A knowledge base after a write. -/
def Knowledge.write : Write → Knowledge → Knowledge
  | .publish path bytes, kb => { kb with files := kb.files.insert path bytes }
  | .append e, kb => { kb with journal := kb.journal ++ [e] }

/-- What a compaction records. -/
def compactRecords (sha256 : List UInt8 → String) (journal : List Entry) (x : Compaction) (y : Compacted) :
    List Entry :=
  (if ((loadGraph x.now journal).nodes.get? (conversationId x.candidate)).isSome then []
    else [conversationEntry x]) ++ [compactEntry sha256 x y, derivedEntry sha256 x y, proofEntry sha256 x y]

/-- The writes of a compaction, in their order. -/
def compactWrites (sha256 : List UInt8 → String) (journal : List Entry) (x : Compaction) (y : Compacted) :
    List Write :=
  .publish (compactPath x.candidate) y.bytes :: (compactRecords sha256 journal x y).map .append

/-- A purge records attempts and how they end. -/
inductive PurgeRecord where
  | attempt (c : Candidate) (retentionDays nonce : ℕ) (now : String)
  | failure (c : Candidate) (id reason now : String)
  | receipt (c : Candidate) (id sha256 : String) (deleted : List Path) (now : String)

/-- The entry of a purge. -/
def PurgeRecord.entry : PurgeRecord → Entry
  | .attempt c retentionDays nonce now => attemptEntry c retentionDays nonce now
  | .failure c id reason now => failureEntry c id reason now
  | .receipt c id sha256 deleted now => receiptEntry c id sha256 deleted now

/-- What a sweep does to a knowledge base: it compacts a session, and may stop after some of the writes, or it records
something about a purge. -/
inductive SweepStep where
  | compact (x : Compaction) (done : ℕ)
  | purge (r : PurgeRecord)

/-- A knowledge base after a step of a sweep. -/
def sweepStep (sha256 : List UInt8 → String) (floatText : UInt64 → String) (kb : Knowledge) :
    SweepStep → Option Knowledge
  | .compact x done =>
    match compactDialogue floatText x with
    | .error _ => some kb
    | .ok y => some (performAll Knowledge.write kb ((compactWrites sha256 kb.journal x y).take done))
  | .purge r => some (Knowledge.write (.append r.entry) kb)

/-! ## Transcripts that can be verified -/

/-- A compact transcript as the journal records it. -/
structure CompactNode where
  id : String
  path : String
  sha256 : String
deriving DecidableEq

/-- The compact transcript of an entry. -/
def compactNode? (e : Entry) : Option CompactNode :=
  if e.isNode "CompactTranscript" then do
    let id ← e.text "id"
    let path ← e.text "path"
    let sha256 ← e.text "sha256"
    some ⟨id, path, sha256⟩
  else none

/-- An entry that says that a node is superseded. -/
def Entry.supersedes (e : Entry) (id : String) : Prop :=
  e.op = "edge.assert" ∧ e.text "type" = some "SUPERSEDES" ∧ e.text "to" = some id

/-- A node that is marked as superseded. -/
def Superseded (journal : List Entry) (id : String) : Prop := ∃ e ∈ journal, e.supersedes id

/-- Every compact transcript of the journal is in its file, or marked as superseded. -/
def Verifiable (sha256 : List UInt8 → String) (kb : Knowledge) : Prop :=
  ∀ e ∈ kb.journal, ∀ node, compactNode? e = some node →
    (kb.files.get? node.path).map sha256 = some node.sha256 ∨ Superseded kb.journal node.id

/-- A compaction that writes what all transcripts that are recorded in its file say, but for superseded ones. -/
def Steady (sha256 : List UInt8 → String) (floatText : UInt64 → String) (kb : Knowledge) : SweepStep → Prop
  | .compact x done => ∀ y, compactDialogue floatText x = .ok y → 0 < done →
    ∀ e ∈ kb.journal, ∀ node, compactNode? e = some node → node.path = compactPath x.candidate →
      node.sha256 = sha256 y.bytes ∨ Superseded kb.journal node.id
  | .purge _ => True

/-! ## What a sweep records -/

section Records

variable {sha256 : List UInt8 → String}

theorem nodeEntry_text (now key : String) (fields : Fields) :
    (nodeEntry now fields).text key = (Assoc.get? key fields.reverse).bind Value.asStr? := by
  rw [Entry.text, nodeEntry, Value.get?_mkObject]

/-- A compaction records its file and the hash of what it wrote. -/
theorem compactNode?_compactEntry (x : Compaction) (y : Compacted) :
    compactNode? (compactEntry sha256 x y) =
      some ⟨compactId x.candidate (sha256 y.bytes), compactPath x.candidate, sha256 y.bytes⟩ := by
  have hid : (compactEntry sha256 x y).text "id" = some (compactId x.candidate (sha256 y.bytes)) := by
    simp [compactEntry, nodeEntry_text, Assoc.get?, Value.asStr?]
  have hpath : (compactEntry sha256 x y).text "path" = some (compactPath x.candidate) := by
    simp [compactEntry, nodeEntry_text, Assoc.get?, Value.asStr?]
  have hsha : (compactEntry sha256 x y).text "sha256" = some (sha256 y.bytes) := by
    simp [compactEntry, nodeEntry_text, Assoc.get?, Value.asStr?]
  have hnode : (compactEntry sha256 x y).isNode "CompactTranscript" := by
    rw [compactEntry, nodeEntry_isNode_iff]
    simp [Assoc.get?]
  rw [compactNode?, if_pos hnode, hid, hpath, hsha]
  rfl

theorem compactNode?_of_type {now type : String} {fields : Fields}
    (h : Assoc.get? "type" fields.reverse = some (.string type)) (hne : type ≠ "CompactTranscript") :
    compactNode? (nodeEntry now fields) = none := by
  rw [compactNode?, if_neg]
  rwa [nodeEntry_isNode_iff h]

theorem not_supersedes_compactEntry {x : Compaction} {y : Compacted} (id : String) :
    ¬(compactEntry sha256 x y).supersedes id :=
  fun hs => (show "node.upsert" ≠ "edge.assert" by decide) hs.1

/-- An entry that neither records a compact transcript nor marks one. -/
def Entry.Other (e : Entry) : Prop := compactNode? e = none ∧ ∀ id, ¬e.supersedes id

theorem other_nodeEntry (type : String) {now : String} {fields : Fields}
    (h : Assoc.get? "type" fields.reverse = some (.string type)) (hne : type ≠ "CompactTranscript") :
    (nodeEntry now fields).Other :=
  ⟨compactNode?_of_type h hne, fun _ hs => (show "node.upsert" ≠ "edge.assert" by decide) hs.1⟩

theorem other_conversationEntry (x : Compaction) : (conversationEntry x).Other :=
  other_nodeEntry "Conversation" (by simp [Assoc.get?]) (by decide)

theorem other_proofEntry (x : Compaction) (y : Compacted) : (proofEntry sha256 x y).Other :=
  other_nodeEntry "SessionRetentionReceipt" (by simp [Assoc.get?]) (by decide)

theorem other_derivedEntry (x : Compaction) (y : Compacted) : (derivedEntry sha256 x y).Other := by
  have htype : (derivedEntry sha256 x y).text "type" = some "DERIVED_FROM" := by
    simp [derivedEntry, Entry.text, Value.get?_mkObject, Assoc.get?, Value.asStr?]
  constructor
  · rw [compactNode?, if_neg]
    exact fun h => (show "edge.assert" ≠ "node.upsert" by decide) h.1
  · rintro id ⟨-, hs, -⟩
    rw [htype] at hs
    exact absurd hs (by decide)

theorem other_purge (r : PurgeRecord) : r.entry.Other := by
  cases r with
  | attempt c retentionDays nonce now => exact other_nodeEntry "SessionPurgeAttempt" (by simp [Assoc.get?]) (by decide)
  | failure c id reason now => exact other_nodeEntry "SessionPurgeFailure" (by simp [Assoc.get?]) (by decide)
  | receipt c id sha256 deleted now => exact other_nodeEntry "SessionPurgeReceipt" (by simp [Assoc.get?]) (by decide)

end Records

/-! ## Steps and runs -/

section Step

variable {sha256 : List UInt8 → String} {floatText : UInt64 → String} {kb : Knowledge}

theorem superseded_append_of_other {journal : List Entry} {e : Entry} (he : ∀ id, ¬e.supersedes id) (id : String) :
    Superseded (journal ++ [e]) id ↔ Superseded journal id := by
  constructor
  · rintro ⟨e', hmem, hs⟩
    rcases List.mem_append.mp hmem with hmem | hmem
    · exact ⟨e', hmem, hs⟩
    · rw [List.mem_singleton.mp hmem] at hs
      exact absurd hs (he id)
  · rintro ⟨e', hmem, hs⟩
    exact ⟨e', List.mem_append_left _ hmem, hs⟩

/-- A line that is appended has to be verified, and so has everything that was before it. -/
theorem verifiable_append_iff {e : Entry} (he : ∀ id, ¬e.supersedes id) :
    Verifiable sha256 (Knowledge.write (.append e) kb) ↔ Verifiable sha256 kb ∧
      ∀ node, compactNode? e = some node →
        (kb.files.get? node.path).map sha256 = some node.sha256 ∨ Superseded kb.journal node.id := by
  simp only [Verifiable, Knowledge.write, superseded_append_of_other he, List.mem_append, List.mem_singleton,
    or_imp, forall_and, forall_eq]

/-- What a new file does to the transcripts that are recorded. -/
theorem verifiable_publish_iff (hkb : Verifiable sha256 kb) (path : String) (bytes : List UInt8) :
    Verifiable sha256 (Knowledge.write (.publish path bytes) kb) ↔
      ∀ e ∈ kb.journal, ∀ node, compactNode? e = some node → node.path = path →
        node.sha256 = sha256 bytes ∨ Superseded kb.journal node.id := by
  constructor
  · intro h e he node hnode hpath
    refine (h e he node hnode).imp (fun hfile => ?_) id
    rw [Knowledge.write, SortedMap.get?_insert, if_pos hpath] at hfile
    exact (Option.some.inj hfile).symm
  · intro h e he node hnode
    rw [Knowledge.write, SortedMap.get?_insert]
    by_cases hpath : node.path = path
    · rw [if_pos hpath]
      exact (h e he node hnode hpath).imp (fun hsha => congrArg some hsha.symm) id
    · rw [if_neg hpath]
      exact hkb e he node hnode

/-- A compaction records its transcript, and nothing else about transcripts. -/
theorem compactRecords_cases {x : Compaction} {y : Compacted} {journal : List Entry} {e : Entry}
    (he : e ∈ compactRecords sha256 journal x y) : e.Other ∨ e = compactEntry sha256 x y := by
  rw [compactRecords, List.mem_append] at he
  rcases he with he | he
  · split at he
    · cases he
    · exact .inl (List.mem_singleton.mp he ▸ other_conversationEntry x)
  · simp only [List.mem_cons, List.not_mem_nil, or_false] at he
    rcases he with rfl | rfl | rfl
    · exact .inr rfl
    · exact .inl (other_derivedEntry x y)
    · exact .inl (other_proofEntry x y)

/-- What is appended after a compaction has its file keeps everything verifiable. -/
theorem verifiable_records {x : Compaction} {y : Compacted} {journal : List Entry} (n : ℕ)
    (hkb : Verifiable sha256 kb) (hfile : kb.files.get? (compactPath x.candidate) = some y.bytes) :
    Verifiable sha256
      (performAll Knowledge.write kb (((compactRecords sha256 journal x y).map .append).take n)) := by
  -- Appending changes no file, so the new node finds what was written.
  have hstep : ∀ w ∈ ((compactRecords sha256 journal x y).map Write.append).take n, ∀ kb,
      Verifiable sha256 kb ∧ kb.files.get? (compactPath x.candidate) = some y.bytes →
        Verifiable sha256 (Knowledge.write w kb) ∧
          (Knowledge.write w kb).files.get? (compactPath x.candidate) = some y.bytes := by
    rintro w hw kb ⟨hkb, hfile⟩
    obtain ⟨e, he, rfl⟩ := List.mem_map.mp (List.mem_of_mem_take hw)
    refine ⟨?_, hfile⟩
    rcases compactRecords_cases he with hother | rfl
    · exact (verifiable_append_iff hother.2).mpr ⟨hkb, fun node hnode => absurd hnode (by simp [hother.1])⟩
    · rw [verifiable_append_iff not_supersedes_compactEntry]
      refine ⟨hkb, fun node hnode => .inl ?_⟩
      rw [compactNode?_compactEntry] at hnode
      obtain rfl := Option.some.inj hnode
      rw [hfile, Option.map_some]
  exact (performAll_invariant _ hstep ⟨hkb, hfile⟩).1

/-- What could not be verified before lines were appended that mark nothing, cannot be verified afterwards. -/
theorem verifiable_of_appends {ws : List Write} (hws : ∀ w ∈ ws, ∃ e, w = .append e ∧ ∀ id, ¬e.supersedes id)
    (h : Verifiable sha256 (performAll Knowledge.write kb ws)) : Verifiable sha256 kb := by
  induction ws generalizing kb with
  | nil => exact h
  | cons w rest ih =>
    obtain ⟨e, rfl, he⟩ := hws w List.mem_cons_self
    exact ((verifiable_append_iff he).mp (ih (fun w hw => hws w (List.mem_cons_of_mem _ hw)) h)).1

/-- A steady step keeps all transcripts verifiable. -/
theorem verifiable_sweepStep {kb' : Knowledge} {q : SweepStep} (hkb : Verifiable sha256 kb)
    (hsteady : Steady sha256 floatText kb q) (hstep : sweepStep sha256 floatText kb q = some kb') :
    Verifiable sha256 kb' := by
  cases q with
  | purge r =>
    obtain rfl := Option.some.inj hstep
    have hother := other_purge r
    exact (verifiable_append_iff hother.2).mpr ⟨hkb, fun node hnode => absurd hnode (by simp [hother.1])⟩
  | compact x done =>
    rw [sweepStep] at hstep
    cases hy : compactDialogue floatText x with
    | error e =>
      rw [hy] at hstep
      exact Option.some.inj hstep ▸ hkb
    | ok y =>
      rw [hy] at hstep
      obtain rfl := Option.some.inj hstep
      cases done with
      | zero => exact hkb
      | succ n =>
        have hpublish := (verifiable_publish_iff hkb (compactPath x.candidate) y.bytes).mpr
          (hsteady y hy (Nat.succ_pos n))
        exact verifiable_records n hpublish (SortedMap.get?_insert_self _ _ _)

/-- A step that is not steady leaves a transcript that cannot be verified. -/
theorem steady_of_verifiable {kb' : Knowledge} {q : SweepStep} (hkb : Verifiable sha256 kb)
    (hstep : sweepStep sha256 floatText kb q = some kb') (hkb' : Verifiable sha256 kb') :
    Steady sha256 floatText kb q := by
  cases q with
  | purge r => exact trivial
  | compact x done =>
    intro y hy hdone
    obtain ⟨n, rfl⟩ := Nat.exists_eq_add_one.mpr hdone
    rw [sweepStep, hy] at hstep
    obtain rfl := Option.some.inj hstep
    refine (verifiable_publish_iff hkb (compactPath x.candidate) y.bytes).mp (verifiable_of_appends ?_ hkb')
    intro w hw
    obtain ⟨e, he, rfl⟩ := List.mem_map.mp (List.mem_of_mem_take hw)
    rcases compactRecords_cases he with hother | rfl
    · exact ⟨e, rfl, hother.2⟩
    · exact ⟨_, rfl, not_supersedes_compactEntry⟩

/-- A step keeps all transcripts verifiable iff it is steady. -/
theorem verifiable_sweepStep_iff {kb' : Knowledge} {q : SweepStep} (hkb : Verifiable sha256 kb)
    (hstep : sweepStep sha256 floatText kb q = some kb') :
    Verifiable sha256 kb' ↔ Steady sha256 floatText kb q :=
  ⟨steady_of_verifiable hkb hstep, fun hsteady => verifiable_sweepStep hkb hsteady hstep⟩

/-- After every run of steady steps every compact transcript of the journal is in its file, or marked as
superseded. -/
theorem verifiable_of_run (sha256 : List UInt8 → String) (floatText : UInt64 → String) (kb kb' : Knowledge)
    (steps : List SweepStep) (hkb : Verifiable sha256 kb)
    (hrun : GuardedRun (sweepStep sha256 floatText) (Steady sha256 floatText) kb steps kb') : Verifiable sha256 kb' :=
  hrun.invariant (fun hkb hsteady hstep => (verifiable_sweepStep_iff hkb hstep).mpr hsteady) hkb

end Step

/-- A session with one message. -/
def oneMessage (content : String) : Compaction where
  candidate := aloneCandidate
  before := .ok ⟨plainDigest (utf8Bytes content.toList), 1, []⟩
  activity := .idle
  dialogue := .ok ([(1, .mkObject [("role", .string "user"), ("content", .string content)])], [])
  after := .ok ⟨plainDigest (utf8Bytes content.toList), 1, []⟩
  now := "2026-01-01T00:00:00Z"

/-- What a compaction makes of it. -/
def oneCompacted (content : String) : Compacted where
  bytes := encodeDialogue (fun _ => "") [(1, .mkObject [("role", .string "user"), ("content", .string content)])]
  messages := 1
  warnings := []
  source := ⟨plainDigest (utf8Bytes content.toList), 1, []⟩

/-- A session that goes on after it was compacted, and is compacted again. -/
def compactedTwice : Option Knowledge :=
  runActions (sweepStep plainDigest fun _ => "") ⟨∅, []⟩ [.compact (oneMessage "a") 5, .compact (oneMessage "b") 5]

instance (e : Entry) (id : String) : Decidable (e.supersedes id) := inferInstanceAs (Decidable (_ ∧ _ ∧ _))

instance (journal : List Entry) (id : String) : Decidable (Superseded journal id) :=
  inferInstanceAs (Decidable (∃ e ∈ journal, _))

/-- The file of the first transcript holds the second one. -/
theorem compactedTwice_not_verifiable : ¬Verifiable plainDigest (compactedTwice.getD ⟨∅, []⟩) := by
  intro h
  -- one evaluation of the two compactions
  have hstate : compactEntry plainDigest (oneMessage "a") (oneCompacted "a") ∈ (compactedTwice.getD ⟨∅, []⟩).journal ∧
      ((compactedTwice.getD ⟨∅, []⟩).files.get? (compactPath (oneMessage "a").candidate)).map plainDigest ≠
        some (plainDigest (oneCompacted "a").bytes) ∧
      ¬Superseded (compactedTwice.getD ⟨∅, []⟩).journal
        (compactId (oneMessage "a").candidate (plainDigest (oneCompacted "a").bytes)) := by
    decide +kernel
  obtain ⟨hmem, hfile, hsuperseded⟩ := hstate
  exact (h _ hmem _ (compactNode?_compactEntry _ _)).elim hfile hsuperseded

/-- After the first compaction everything is verifiable. -/
theorem compactedOnce_verifiable :
    Verifiable plainDigest
      (performAll Knowledge.write ⟨∅, []⟩ ((compactWrites plainDigest [] (oneMessage "a") (oneCompacted "a")).take 5)) :=
  verifiable_of_run plainDigest (fun _ => "") ⟨∅, []⟩ _ [.compact (oneMessage "a") 5]
    (fun _ he => absurd he List.not_mem_nil)
    (.next (fun _ _ _ _ he => absurd he List.not_mem_nil) rfl (.done _))

end Innen.Retention
