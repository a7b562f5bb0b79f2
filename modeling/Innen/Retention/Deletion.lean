import Innen.Retention.View

/-!
# Deleting a session

Before a session is deleted, its targets are fingerprinted again and nothing may hold them open. What is deleted then
depends on the tool: the transcript, the targets, or the directory of the transcript.
-/

namespace Innen.Retention

open Innen.Common Innen.Conversation

/-! ## Index databases -/

/-- The statement that deletes the rows of a session from a table. -/
def deleteRows (table column : String) (id : Name) : String × String :=
  (table, "DELETE FROM " ++ table ++ " WHERE " ++ column ++ "=\x27" ++ id.1 ++ "\x27;")

/-- Where the index database of a tool is, and the statements for the tables it may have. -/
def indexStatements (id : Name) : Source → Option (Path × List (String × String))
  | .mcode => some ([plainName "sqlite", plainName "runtime-state.sqlite"],
      ["local_runtime_message_rows", "local_runtime_messages", "local_runtime_session_assets",
        "local_runtime_session_locks", "local_runtime_session_projection_watermarks",
        "local_runtime_sessions"].map fun table => deleteRows table "session_id" id)
  | .copilot => some ([plainName "session-store.db"],
      (["search_index", "session_refs", "session_files", "checkpoints", "turns"].map fun table =>
        deleteRows table "session_id" id) ++ [deleteRows "sessions" "id" id])
  | .grok => some ([plainName "session_search.sqlite"], [deleteRows "session_docs" "session_id" id])
  | _ => none

/-- `session_directory`. -/
def sessionDirectory (c : Candidate) : Path := (parent? c.path).getD c.path

/-- `indexed_store_layout`: the index database above the session, and the statements for the tables it has. -/
def indexedStoreLayout (v : View) (c : Candidate) : Except RetentionError (Path × List String) := do
  let (relative, statements) ← okOr (indexStatements c.id c.source)
    (.purge "source has no indexed session store layout")
  let indexDb ← okOr (((ancestors (sessionDirectory c)).map (· ++ relative)).find? v.tree.pathExists)
    (.purge ("session index database not found for " ++ c.source.asStr ++ ": " ++
      "/".intercalate (relative.map Subtype.val)))
  .ok (indexDb, (statements.filter fun s => s.1 ∈ v.tables indexDb).map Prod.snd)

/-- The rows of a session are deleted from its index database. -/
def deleteIndexRows (v : View) (c : Candidate) : Except RetentionError Unit := do
  let layout ← indexedStoreLayout v c
  layout.2.foldlM (fun _ statement => v.mutate layout.1 statement) ()

/-! ## Removing files -/

/-- A tree after a removal, which may stop half-way. -/
abbrev Removal := FileTree × Except RetentionError Unit

/-- `fs::remove_file`. -/
def removeFile (t : FileTree) (p : Path) : Removal :=
  match t.get? p with
  | none => (t, .error (ioError p "No such file or directory (os error 2)"))
  | some .dir => (t, .error (ioError p "Is a directory (os error 21)"))
  | some _ => (t.removeAll p, .ok ())

/-- `delete_indexed_session`. -/
def deleteIndexedSession (v : View) (c : Candidate) (a : Assessment) : Removal :=
  match deleteIndexRows v c with
  | .error e => (v.tree, .error e)
  | .ok () =>
    let directory := sessionDirectory c
    let t := if v.tree.pathExists directory then v.tree.removeAll directory else v.tree
    (t, failIf (a.targets.any t.pathExists = true) (.purge "indexed session targets still exist after deletion"))

/-- The directories that Antigravity keeps its stores in. -/
def antigravityStores : List String := ["antigravity-cli", "antigravity", "antigravity-ide"]

/-- `antigravity_store_root`. -/
def antigravityStoreRoot (targets : List Path) : Option Path :=
  targets.findSome? fun target =>
    (ancestors target).find? fun p => (fileName? p).any fun name => decide (name.1 ∈ antigravityStores)

/-- The summary of an Antigravity session is deleted, unless it says that the session is not idle. -/
def deleteSummary (v : View) (c : Candidate) (storeRoot : Path) : Except RetentionError Unit := do
  let summaryDb := storeRoot ++ [plainName "conversation_summaries.db"]
  if v.tree.pathExists summaryDb then
    let rows ← v.summaryRows
    failIf (rows.any (fun row => ((row.get? "not_fully_idle").bind Value.asI64?).any (· ≠ 0)) = true)
      (.purge "Antigravity marks the session as not fully idle")
    v.mutate summaryDb ("PRAGMA busy_timeout=5000; BEGIN IMMEDIATE; DELETE FROM conversation_summaries WHERE " ++
      "conversation_id=\x27" ++ c.id.1 ++ "\x27; COMMIT;")

/-- The targets are removed one after the other. -/
def removeTargets : FileTree → List Path → Removal
  | t, [] => (t, .ok ())
  | t, target :: rest =>
    match t.get? target with
    | none => (t, .error (ioError target "No such file or directory (os error 2)"))
    | some _ => removeTargets (t.removeAll target) rest

/-- `delete_antigravity`. -/
def deleteAntigravity (v : View) (c : Candidate) (a : Assessment) : Removal :=
  match okOr (antigravityStoreRoot a.targets) (.purge "Antigravity store root is not canonical") >>=
      deleteSummary v c with
  | .error e => (v.tree, .error e)
  | .ok () =>
    let removed := removeTargets v.tree a.targets
    (removed.1, removed.2 >>= fun _ => failIf (a.targets.any removed.1.pathExists = true)
      (.purge "Antigravity native targets still exist after deletion"))

/-- The removal of `delete_candidate`, by the tool that a session belongs to. -/
def removeNative (v : View) (c : Candidate) (a : Assessment) : Removal :=
  match c.source with
  | .codex | .opencode =>
    let arguments := if c.source = .codex then ["codex", "delete", "--force", c.id.1]
      else ["opencode", "session", "delete", c.id.1, "--standalone"]
    match v.runDelete arguments with
    | .error e => (v.tree, .error e)
    | .ok t => (t, .ok ())
  | .claude | .qwen => removeFile v.tree c.path
  | .antigravity => deleteAntigravity v c a
  | .mcode | .copilot | .grok => deleteIndexedSession v c a
  | .cursor | .gemini | .vscode =>
    (v.tree, .error (.purge ("source has no supported delete adapter: " ++ c.source.asStr)))

/-! ## The last checks -/

/-- The moments at which `delete_candidate` looks at the machine, and the one at which it deletes. -/
structure Moments where
  snapshot : View
  rehash : View
  verify : View
  activity : View
  verifyAgain : View
  removal : View

/-- A machine on which nothing else happens. -/
def still (v : View) : Moments := ⟨v, v, v, v, v, v⟩

/-- Nobody may use the session. -/
def requireIdle : Activity → Except RetentionError Unit
  | .idle => .ok ()
  | .active => .error (.purge "native session became active after eligibility check")
  | .unknown detail => .error (.purge ("native session activity could not be verified: " ++ detail))

/-- The checks of `delete_candidate` before anything is removed. -/
def confirm (sha256 : List UInt8 → String) (m : Moments) (c : Candidate) (a : Assessment) (sourceRoot : Option Path) :
    Except RetentionError Unit := do
  failIf (sourceRoot.isSome ∧ c.source ∈ [Source.codex, .opencode])
    (.purge (c.source.asStr ++ " deletes through its own CLI and its canonical store; refusing with --source-root"))
  let identities ← snapshotIdentities m.snapshot a.targets
  let current ← bundle sha256 m.rehash c
  failIf (current.sha256 ≠ a.sourceSha256 ∨ current.bytes ≠ a.sourceBytes)
    (.purge "source changed after eligibility check")
  verifyIdentities m.verify identities
  requireIdle (sessionActivity m.activity (livenessTargets c.source a.targets))
  verifyIdentities m.verifyAgain identities

/-- `delete_candidate`: the tree after it and what it returns. -/
def deleteCandidate (sha256 : List UInt8 → String) (m : Moments) (c : Candidate) (a : Assessment)
    (sourceRoot : Option Path) : FileTree × Except RetentionError (List Path) :=
  match confirm sha256 m c a sourceRoot with
  | .error e => (m.removal.tree, .error e)
  | .ok () =>
    let removed := removeNative m.removal c a
    let remaining := if c.source = .opencode then [] else a.targets.filter removed.1.pathExists
    (removed.1, do
      removed.2
      failIf (remaining ≠ []) (.purge ("native targets still exist after deletion: " ++
        ", ".intercalate (remaining.map displayPath)))
      .ok a.targets)

/-! ## What is removed -/

/-- Only what is at or below the targets is removed. -/
theorem removeTargets_removes {t : FileTree} {targets : List Path} {p : Path} {bytes : List UInt8}
    (hp : t.bytesAt p = some bytes) (hgone : (removeTargets t targets).1.bytesAt p ≠ some bytes) :
    ∃ target ∈ targets, target <+: p := by
  induction targets generalizing t with
  | nil => exact absurd hp hgone
  | cons target rest ih =>
    rw [removeTargets] at hgone
    split at hgone
    · exact absurd hp hgone
    · by_cases hbelow : target <+: p
      · exact ⟨target, List.mem_cons_self, hbelow⟩
      · obtain ⟨target', hmem, hpre⟩ := ih (FileTree.bytesAt_removeAll.mpr ⟨hp, hbelow⟩) hgone
        exact ⟨target', List.mem_cons_of_mem _ hmem, hpre⟩

/-- The directory of an Antigravity session does not depend on what is there. -/
theorem brainSession_fst (t t' : FileTree) (path : Path) (id : Name) :
    (brainSession t path id).1 = (brainSession t' path id).1 := by
  unfold brainSession
  split
  · rfl
  · split <;> rfl

/-- A target of a session that is there is a target now. -/
theorem antigravityTargets_of_exists {t t' : FileTree} {path target : Path} {id : Name}
    (h : target ∈ antigravityTargets t path id) (hexists : t'.pathExists target = true) :
    target ∈ antigravityTargets t' path id := by
  unfold antigravityTargets at h ⊢
  rw [List.mem_dedup, List.mem_insertionSort, List.mem_append] at h ⊢
  rcases h with h | h
  · left
    unfold brainSession at h ⊢
    split at h
    · cases h
    · split at h
      · rename_i hname
        split at h
        · rw [List.mem_singleton] at h
          rw [h] at hexists
          rw [h, if_pos hexists, if_pos hname]
          exact List.mem_singleton_self _
        · cases h
      · cases h
  · right
    rw [List.mem_filter] at h ⊢
    rw [brainSession_fst t' t]
    exact ⟨h.1, hexists⟩

/-- A snapshot has looked at every target. -/
theorem of_snapshotIdentities {v : View} {targets : List Path} {identities : List (Path × ℕ × ℕ)}
    (h : snapshotIdentities v targets = .ok identities) :
    ∀ target ∈ targets, ∃ node, v.tree.get? target = some node ∧ node.isLink = false := by
  induction targets generalizing identities with
  | nil => exact fun target htarget => absurd htarget List.not_mem_nil
  | cons p rest ih =>
    rw [snapshotIdentities, List.mapM_cons, bind_eq_ok] at h
    obtain ⟨_, hp, h⟩ := h
    obtain ⟨_, hrest, -⟩ := bind_eq_ok.mp h
    intro target htarget
    rcases List.mem_cons.mp htarget with rfl | htarget
    · split at hp
      · cases hp
      · rename_i node hnode
        split at hp
        · cases hp
        · rename_i hlink
          exact ⟨node, hnode, Bool.eq_false_iff.mpr hlink⟩
    · exact ih hrest target htarget

/-- What `confirm` has seen when nothing else happens. -/
theorem confirm_still {sha256 : List UInt8 → String} {v : View} {c : Candidate} {a : Assessment}
    {sourceRoot : Option Path} (h : confirm sha256 (still v) c a sourceRoot = .ok ()) :
    (∀ target ∈ a.targets, ∃ node, v.tree.get? target = some node ∧ node.isLink = false) ∧
      ∃ b, bundle sha256 v c = .ok b := by
  simp only [confirm, bind_eq_ok] at h
  obtain ⟨-, -, identities, hidentities, b, hb, -⟩ := h
  exact ⟨of_snapshotIdentities hidentities, b, hb⟩

/-! ## Removing stays within the bundle -/

/-- What a deletion may remove: files that were hashed for the comparison with the attestation, and of which an open
handle would have been seen. -/
def Within (v : View) (c : Candidate) (a : Assessment) (t' : FileTree) : Prop :=
  ∀ p bytes, v.tree.bytesAt p = some bytes → t'.bytesAt p ≠ some bytes →
    (∃ paths, hashedPaths v.tree c = .ok paths ∧ p ∈ paths) ∧
      ∀ paths, p ∈ paths →
        sessionActivity { v with openPaths := .ok paths } (livenessTargets c.source a.targets) = .active

/-- The tools that keep an index database and a directory for each session. -/
def indexedSources : List Source := [.mcode, .copilot, .grok]

/-- The directory of the session holds the transcript and no other file, wherever it is deleted as a whole. -/
def Contained (sha256 : List UInt8 → String) (v : View) (c : Candidate) (a : Assessment) (sourceRoot : Option Path) :
    Prop :=
  c.source ∈ indexedSources → (confirm sha256 (still v) c a sourceRoot).isOk → (deleteIndexRows v c).isOk →
    ∀ p bytes, sessionDirectory c <+: p → v.tree.bytesAt p = some bytes → p = c.path

/-- An open file below a target that is there is seen. -/
theorem active_of_prefix {v : View} {targets : List Path} {target p : Path} {node : Node} (htarget : target ∈ targets)
    (hnode : v.tree.get? target = some node) (hlink : node.isLink = false) (hpre : target <+: p) {paths : List Path}
    (hp : p ∈ paths) : sessionActivity { v with openPaths := .ok paths } targets = .active := by
  have hseen : (paths.any fun p => (targets.filterMap v.tree.canonicalize?).any fun q => decide (q <+: p)) = true := by
    refine List.any_eq_true.mpr ⟨p, hp, List.any_eq_true.mpr ⟨target, ?_, decide_eq_true hpre⟩⟩
    exact List.mem_filterMap.mpr ⟨target, htarget, FileTree.canonicalize?_of_not_link hnode hlink⟩
  rw [sessionActivity, if_neg (List.ne_nil_of_mem htarget)]
  exact if_pos hseen

/-- The bundle of a session that is a single file. -/
theorem bundle_single {sha256 : List UInt8 → String} {v : View} {c : Candidate} (hsource : c.source ≠ .opencode)
    (hsource' : c.source ≠ .antigravity) :
    bundle sha256 v c = (readFile v.tree c.path).map fun bytes => ⟨sha256 bytes, bytes.length, [c.path]⟩ := by
  unfold bundle
  split
  · exact absurd ‹_› hsource
  · exact absurd ‹_› hsource'
  · rfl

theorem hashedPaths_single {t : FileTree} {c : Candidate} (hsource : c.source ≠ .opencode)
    (hsource' : c.source ≠ .antigravity) : hashedPaths t c = .ok [c.path] := by
  unfold hashedPaths
  split
  · exact absurd ‹_› hsource
  · exact absurd ‹_› hsource'
  · rfl

/-- A session that is a single file is fingerprinted by that file. -/
theorem transcript_of_bundle {sha256 : List UInt8 → String} {v : View} {c : Candidate} {b : Bundle} {node : Node}
    (hsource : c.source ≠ .opencode) (hsource' : c.source ≠ .antigravity) (h : bundle sha256 v c = .ok b)
    (hnode : v.tree.get? c.path = some node) (hlink : node.isLink = false) :
    ∃ bytes, v.tree.bytesAt c.path = some bytes := by
  rw [bundle_single hsource hsource', readFile, FileTree.canonicalize?_of_not_link hnode hlink] at h
  dsimp only at h
  cases hbytes : v.tree.bytesAt c.path with
  | none =>
    rw [hbytes] at h
    cases h
  | some bytes => exact ⟨bytes, rfl⟩

/-- The targets of a session that is a single file. -/
theorem targets_single {sha256 : List UInt8 → String} {v : View} {c : Candidate} {b : Bundle}
    (hsource : c.source ≠ .opencode) (hsource' : c.source ≠ .antigravity) (h : bundle sha256 v c = .ok b) :
    b.targets = [c.path] := by
  rw [bundle_single hsource hsource'] at h
  cases hread : readFile v.tree c.path with
  | error e =>
    rw [hread] at h
    cases h
  | ok bytes =>
    rw [hread] at h
    exact Except.ok.inj h ▸ rfl

/-- The targets of an Antigravity session. -/
theorem targets_antigravity {sha256 : List UInt8 → String} {v : View} {c : Candidate} {b : Bundle}
    (hsource : c.source = .antigravity) (h : bundle sha256 v c = .ok b) :
    b.targets = antigravityTargets v.tree c.path c.id ∧
      ∃ files, bundlePaths v.tree (antigravityTargets v.tree c.path c.id) = .ok files := by
  unfold bundle at h
  rw [hsource] at h
  dsimp only at h
  rw [hashTargets, bundleFiles] at h
  cases hpaths : bundlePaths v.tree (antigravityTargets v.tree c.path c.id) with
  | error e =>
    rw [hpaths] at h
    cases h
  | ok files =>
    rw [hpaths] at h
    exact ⟨Except.ok.inj h ▸ rfl, files, rfl⟩

section Within

variable {sha256 : List UInt8 → String} {v v₀ : View} {c : Candidate} {a : Assessment} {b₀ : Bundle}

/-- Removing nothing stays within every bundle. -/
theorem within_same : Within v c a v.tree := fun _ _ hp hgone => absurd hp hgone

/-- The transcript is hashed and watched. -/
theorem transcript_covered {bytes : List UInt8} (hsource : c.source ≠ .opencode) (hsource' : c.source ≠ .antigravity)
    (htargets : a.targets = [c.path]) (hbytes : v.tree.bytesAt c.path = some bytes) :
    (∃ paths, hashedPaths v.tree c = .ok paths ∧ c.path ∈ paths) ∧
      ∀ paths, c.path ∈ paths →
        sessionActivity { v with openPaths := .ok paths } (livenessTargets c.source a.targets) = .active := by
  refine ⟨⟨_, hashedPaths_single hsource hsource', List.mem_singleton_self _⟩, fun paths hp => ?_⟩
  rw [livenessTargets, if_neg hsource, htargets]
  exact active_of_prefix (List.mem_singleton_self _) (FileTree.bytesAt_eq_some.mp hbytes) rfl List.prefix_rfl hp

/-- An Antigravity session is removed within its bundle. -/
theorem within_antigravity (hsource : c.source = .antigravity) (hb₀ : bundle sha256 v₀ c = .ok b₀)
    (ha : a.targets = b₀.targets) {b : Bundle} (hb : bundle sha256 v c = .ok b)
    (hnodes : ∀ target ∈ a.targets, ∃ node, v.tree.get? target = some node ∧ node.isLink = false) :
    Within v c a (deleteAntigravity v c a).1 := by
  unfold deleteAntigravity
  split
  · exact within_same
  · intro p bytes hp hgone
    obtain ⟨target, htarget, hpre⟩ := removeTargets_removes hp hgone
    obtain ⟨node, hnode, hlink⟩ := hnodes target htarget
    constructor
    · -- The target is one of the bundle that was hashed again.
      obtain ⟨-, files, hfiles⟩ := targets_antigravity hsource hb
      have hexists : v.tree.pathExists target = true := by
        rw [FileTree.pathExists, hnode]
        cases node with
        | link r => cases hlink
        | dir => rfl
        | file bytes => rfl
      have hnow : target ∈ antigravityTargets v.tree c.path c.id := by
        rw [ha, (targets_antigravity hsource hb₀).1] at htarget
        exact antigravityTargets_of_exists htarget hexists
      refine ⟨files.map Prod.snd, ?_, List.mem_map.mpr ⟨_, mem_bundlePaths hfiles hnow hpre hp, rfl⟩⟩
      rw [hashedPaths, hsource]
      dsimp only
      rw [hfiles]
      rfl
    · intro paths hopen
      rw [livenessTargets, if_neg (by rw [hsource]; decide)]
      exact active_of_prefix htarget hnode hlink hpre hopen

/-- The directory of a transcript is there. -/
theorem sessionDirectory_of_file {bytes : List UInt8} (hbytes : v.tree.bytesAt c.path = some bytes) :
    v.tree.pathExists (sessionDirectory c) = true ∧ sessionDirectory c <+: c.path := by
  have hne : c.path ≠ [] := by
    intro hnil
    have hroot := v.tree.root
    rw [← hnil] at hroot
    exact absurd (hroot.symm.trans (FileTree.bytesAt_eq_some.mp hbytes)) (by simp)
  have hparent : sessionDirectory c = c.path.dropLast := by
    rw [sessionDirectory, parent?, if_neg hne, Option.getD_some]
  have hsplit := List.dropLast_append_getLast hne
  have hdir : v.tree.get? c.path.dropLast = some .dir := by
    refine v.tree.rooted _ (c.path.getLast hne) ?_
    rw [hsplit]
    exact Option.isSome_of_mem (FileTree.bytesAt_eq_some.mp hbytes)
  rw [hparent]
  refine ⟨?_, List.dropLast_prefix _⟩
  rw [FileTree.pathExists, hdir]

/-- The directory of a session is removed within its bundle iff it holds nothing but the transcript. -/
theorem within_indexed_iff (hsource : c.source ≠ .opencode) (hsource' : c.source ≠ .antigravity)
    (htargets : a.targets = [c.path]) {bytes : List UInt8} (hbytes : v.tree.bytesAt c.path = some bytes) :
    Within v c a (deleteIndexedSession v c a).1 ↔ ((deleteIndexRows v c).isOk →
      ∀ p bytes, sessionDirectory c <+: p → v.tree.bytesAt p = some bytes → p = c.path) := by
  obtain ⟨hexists, -⟩ := sessionDirectory_of_file hbytes
  unfold deleteIndexedSession
  cases hrows : deleteIndexRows v c with
  | error e => exact ⟨fun _ h => (by cases h), fun _ => within_same⟩
  | ok u =>
    dsimp only
    rw [if_pos hexists]
    constructor
    · intro hwithin _ p bytes' hpre hp
      obtain ⟨⟨paths, hpaths, hmem⟩, -⟩ := hwithin p bytes' hp fun hleft =>
        (FileTree.bytesAt_removeAll.mp hleft).2 hpre
      rw [hashedPaths_single hsource hsource'] at hpaths
      obtain rfl := Except.ok.inj hpaths
      exact List.mem_singleton.mp hmem
    · intro honly p bytes' hp hgone
      have hpre : sessionDirectory c <+: p := by
        by_contra hpre
        exact hgone (FileTree.bytesAt_removeAll.mpr ⟨hp, hpre⟩)
      obtain rfl := honly rfl p bytes' hpre hp
      exact transcript_covered hsource hsource' htargets hbytes

/-- What `delete_candidate` does once everything is confirmed. -/
theorem deleteCandidate_tree {m : Moments} {sourceRoot : Option Path}
    (h : confirm sha256 m c a sourceRoot = .ok ()) :
    (deleteCandidate sha256 m c a sourceRoot).1 = (removeNative m.removal c a).1 := by
  rw [deleteCandidate, h]

/-- Where innen deletes by itself, it stays within the bundle iff it deletes no directory that holds more than the
transcript. -/
theorem deletion_within_iff (sha256 : List UInt8 → String) (v v₀ : View) (c : Candidate) (a : Assessment)
    (sourceRoot : Option Path) (b₀ : Bundle) (hcodex : c.source ≠ .codex) (hopencode : c.source ≠ .opencode)
    (hb₀ : bundle sha256 v₀ c = .ok b₀) (ha : a.targets = b₀.targets) :
    Within v c a (deleteCandidate sha256 (still v) c a sourceRoot).1 ↔ Contained sha256 v c a sourceRoot := by
  cases hconfirm : confirm sha256 (still v) c a sourceRoot with
  | error e =>
    refine ⟨fun _ _ hok => ?_, fun _ => ?_⟩
    · rw [hconfirm] at hok
      cases hok
    · rw [deleteCandidate, hconfirm]
      exact within_same
  | ok u =>
    rw [deleteCandidate_tree hconfirm]
    obtain ⟨hnodes, b, hb⟩ := confirm_still hconfirm
    by_cases hantigravity : c.source = .antigravity
    · refine ⟨fun _ hindexed => ?_, fun _ => ?_⟩
      · rw [hantigravity] at hindexed
        exact absurd hindexed (by decide)
      · rw [removeNative, hantigravity]
        exact within_antigravity hantigravity hb₀ ha hb hnodes
    · have htargets : a.targets = [c.path] := ha.trans (targets_single hopencode hantigravity hb₀)
      obtain ⟨node, hnode, hlink⟩ := hnodes c.path (htargets ▸ List.mem_singleton_self _)
      obtain ⟨bytes, hbytes⟩ := transcript_of_bundle hopencode hantigravity hb hnode hlink
      by_cases hindexed : c.source ∈ indexedSources
      · have hnative : removeNative v c a = deleteIndexedSession v c a := by
          have hcases : c.source = .mcode ∨ c.source = .copilot ∨ c.source = .grok := by
            simpa [indexedSources] using hindexed
          rcases hcases with h | h | h <;> rw [removeNative, h]
        rw [show removeNative (still v).removal c a = removeNative v c a from rfl, hnative,
          within_indexed_iff hopencode hantigravity htargets hbytes]
        exact ⟨fun h _ _ => h, fun h => h hindexed (by rw [hconfirm]; rfl)⟩
      · refine ⟨fun _ h => absurd h hindexed, fun _ => ?_⟩
        -- The transcript alone is removed, or nothing.
        have hfile : Within v c a (removeFile v.tree c.path).1 := by
          rw [removeFile, FileTree.bytesAt_eq_some.mp hbytes]
          intro p bytes' hp hgone
          have hpre : c.path <+: p := by
            by_contra hpre
            exact hgone (FileTree.bytesAt_removeAll.mpr ⟨hp, hpre⟩)
          obtain rfl := FileTree.eq_of_prefix_file hbytes hpre
            (Option.isSome_of_mem (FileTree.bytesAt_eq_some.mp hp))
          exact transcript_covered hopencode hantigravity htargets hbytes
        have hnative : (removeNative v c a).1 = (removeFile v.tree c.path).1 ∨ (removeNative v c a).1 = v.tree := by
          unfold removeNative
          cases hsource : c.source with
          | claude | qwen => exact .inl rfl
          | cursor | gemini | vscode => exact .inr rfl
          | codex => exact absurd hsource hcodex
          | opencode => exact absurd hsource hopencode
          | antigravity => exact absurd hsource hantigravity
          | mcode | copilot | grok =>
            rw [hsource] at hindexed
            exact absurd (by decide) hindexed
        rcases hnative with h | h
        · exact h.symm ▸ hfile
        · exact h.symm ▸ within_same

end Within

/-- A Copilot session with notes next to its transcript. -/
def notesTree : FileTree :=
  let session := [plainName "state", plainName "s"]
  ((((FileTree.empty.put [plainName "session-store.db"] (.file [])).put [plainName "state"] .dir).put session .dir).put
    (session ++ [plainName "events.jsonl"]) (.file [1])).put (session ++ [plainName "notes.txt"]) (.file [2])

/-- A machine where nothing is open and every command succeeds. -/
def quiet (t : FileTree) : View where
  tree := t
  identity _ := (0, 0)
  openPaths := .ok []
  sessionRows := .ok []
  childSessions := .ok []
  summaryRows := .ok []
  tables _ := []
  mutate _ _ := .ok ()
  runDelete _ := .ok t

/-- The session. -/
def notesCandidate : Candidate :=
  ⟨plainName "s", .copilot, none, [plainName "state", plainName "s", plainName "events.jsonl"], none, none⟩

/-- Its assessment. -/
def notesAssessment : Assessment :=
  ⟨"s", "copilot", none, "", 1, plainDigest [1], true, [], [], [notesCandidate.path]⟩

/-- The notes are deleted with the session although no fingerprint covers them. -/
theorem notes_deleted : ¬Within (quiet notesTree) notesCandidate notesAssessment
    (deleteCandidate plainDigest (still (quiet notesTree)) notesCandidate notesAssessment none).1 := by
  intro hwithin
  obtain ⟨⟨paths, hpaths, hmem⟩, -⟩ := hwithin [plainName "state", plainName "s", plainName "notes.txt"] [2]
    (by decide +kernel) (by decide +kernel)
  obtain rfl := Except.ok.inj hpaths
  exact absurd hmem (by decide +kernel)

/-- A transcript next to another file, in a store without directories for its sessions. -/
def aloneCandidate : Candidate := ⟨plainName "s", .claude, none, [plainName "s", plainName "a"], none, none⟩

/-- Its assessment. -/
def aloneAssessment : Assessment := ⟨"s", "claude", none, "", 1, plainDigest [1], true, [], [], [aloneCandidate.path]⟩

/-- There the condition is void, and the transcript alone is deleted. -/
theorem deletion_within_alone :
    Within (quiet (sessionTree "a" "b" [1] [2])) aloneCandidate aloneAssessment
        (deleteCandidate plainDigest (still (quiet (sessionTree "a" "b" [1] [2]))) aloneCandidate aloneAssessment none).1 ↔
      Contained plainDigest (quiet (sessionTree "a" "b" [1] [2])) aloneCandidate aloneAssessment none :=
  deletion_within_iff plainDigest _ (quiet (sessionTree "a" "b" [1] [2])) _ _ none
    ⟨plainDigest [1], 1, [aloneCandidate.path]⟩ (by decide) (by decide) (by decide +kernel) rfl

end Innen.Retention
