import Innen.Middleware.History.StoreRuns

/-!
# The life of a store

The saves of one task come one after the other, because of the lock. Each returns a receipt, is refused,
or stops half-way when its process crashes or a call of the file system fails. `store_runs` is what holds
of the files and of a load after any number of saves.
-/

namespace Innen.Middleware.History.Store

open Innen.Common Relation

/-- What has happened to the directory of a task. -/
structure Course where
  files : TaskDir
  /-- The histories whose save returned a receipt, oldest first. -/
  saved : List Request
  /-- The histories of all saves, oldest first. -/
  tried : List Request
  /-- Whether a save that stopped has changed the index. -/
  cut : Bool

/-- Before the first save. -/
def Course.start : Course := ⟨.empty, [], [], false⟩

/-- One save of the task. -/
inductive Step (P : Platform) (project taskId dir : String) : Course → Course → Prop
  | saved {s : Course} {request : Request} {receipt : SaveReceipt}
      (hproject : request.task.project = project) (htask : request.task.id = taskId)
      (h : (save P dir s.files request).2 = .ok receipt) :
      Step P project taskId dir s
        ⟨(save P dir s.files request).1, s.saved ++ [request], s.tried ++ [request], s.cut⟩
  | refused {s : Course} {request : Request} {e : Error}
      (hproject : request.task.project = project) (htask : request.task.id = taskId)
      (h : (save P dir s.files request).2 = .error e) :
      Step P project taskId dir s
        ⟨(save P dir s.files request).1, s.saved, s.tried ++ [request], s.cut⟩
  | stopped {s : Course} {request : Request} {files' : TaskDir}
      (hproject : request.task.project = project) (htask : request.task.id = taskId)
      (h : StoppedSave P dir s.files request files') :
      Step P project taskId dir s
        ⟨files', s.saved, s.tried ++ [request], s.cut || decide (files'.index ≠ s.files.index)⟩

variable {P : Platform} {project taskId dir : String} {files files' : TaskDir} {recorded : List Request}
  {request : Request} {s s' : Course}

/-! ## Files are never rewritten -/

/-- Under the lock a save writes the snapshot if needed, then the index. -/
theorem lockedWrites_shape {ws : List Write} (h : lockedWrites P dir files request = .ok ws) :
    ∃ snapshot, snapshotWrites dir files (hashOf P request) (requestBytes P request) = .ok snapshot ∧
      ws = snapshot ++ indexWrites P request := by
  simp only [lockedWrites, bind_eq_ok] at h
  obtain ⟨-, -, -, -, -, -, snapshot, hsnapshot, hws⟩ := h
  exact ⟨snapshot, hsnapshot, (Except.ok.inj hws).symm⟩

theorem precheck_size (h : precheck P request = .ok ()) : (requestBytes P request).size ≤ maxStoreFileBytes :=
  (show Admissible P request.task.project request.task.id request from ⟨rfl, rfl, h⟩).size_le

/-- Changes of the index, done or stopped, change no snapshot. -/
theorem indexWrites_snapshots (hw : Interrupted Write.perform Write.Part files (indexWrites P request) files' ∨
    files' = performAll Write.perform files (indexWrites P request)) :
    files'.snapshots = files.snapshots := by
  have hdone : ∀ w ∈ indexWrites P request, ∀ f : TaskDir, (w.perform f).snapshots = f.snapshots := by
    intro w hw f
    simp only [indexWrites, List.mem_cons, List.not_mem_nil, or_false] at hw
    rcases hw with rfl | rfl | rfl <;> rfl
  have hpart : ∀ w ∈ indexWrites P request, ∀ f f' : TaskDir, w.Part f f' → f'.snapshots = f.snapshots := by
    intro w hw f f' h
    simp only [indexWrites, List.mem_cons, List.not_mem_nil, or_false] at hw
    rcases hw with rfl | rfl | rfl
    · rcases h with rfl | rfl <;> rfl
    · obtain ⟨cut, rfl⟩ := h
      rfl
    · obtain ⟨cut, rfl⟩ := h
      rfl
  rcases hw with hstop | rfl
  · exact hstop.invariant (fun f => f.snapshots = files.snapshots)
      (fun w hw f f' hf h => (hpart w hw f f' h).trans hf) (fun w hw f hf => (hdone w hw f).trans hf) rfl
  · exact performAll_invariant (fun f => f.snapshots = files.snapshots)
      (fun w hw f hf => (hdone w hw f).trans hf) rfl

/-- A change of the lock file only. -/
def LockOnly (files files' : TaskDir) : Prop := files' = files ∨ files' = { files with lock := true }

theorem LockOnly.frame (h : LockOnly files files') : Frame files files' := by
  rcases h with rfl | rfl <;> exact fun _ _ h => h

theorem LockOnly.index (h : LockOnly files files') : files'.index = files.index := by
  rcases h with rfl | rfl <;> rfl

theorem LockOnly.lock (h : LockOnly files files') (hlock : files.lock = true) : files'.lock = true := by
  rcases h with rfl | rfl
  · exact hlock
  · rfl

/-- A refused save that stops changes nothing but the lock file. -/
theorem stopped_of_refusal {ws : List Write} {e : Error} (hws : saveWrites P dir files request = (ws, some e))
    (hstop : StoppedSave P dir files request files') : LockOnly files files' := by
  unfold StoppedSave at hstop
  rcases saveWrites_cases P dir files request with ⟨e', hnone⟩ | ⟨e', hlock⟩ | ⟨ws', -, -, hall⟩
  · rw [hnone] at hstop
    cases hstop
  · rw [hlock] at hstop
    rcases hstop with hpart | hlater
    · exact hpart
    · cases hlater
  · rw [hall] at hws
    cases hws

/-- Whatever becomes of a save, no file that was there is changed. -/
theorem frame_save (P : Platform) (dir : String) (files : TaskDir) (request : Request) :
    Frame files (save P dir files request).1 := by
  rcases saveWrites_cases P dir files request with ⟨e, hws⟩ | ⟨e, hws⟩ | ⟨ws, hprecheck, hlocked, hws⟩
  · rw [save_of_refusal hws]
    exact .refl _
  · rw [save_of_refusal hws]
    exact LockOnly.frame (.inr rfl)
  · obtain ⟨snapshot, hsnapshot, rfl⟩ := lockedWrites_shape hlocked
    have hframe := (performAll_snapshot (precheck_size hprecheck) hsnapshot).1
    have hindex := @indexWrites_snapshots P (performAll Write.perform files (.createLock :: snapshot)) _
      request (.inr rfl)
    rw [save_of_writes hws]
    intro hash bytes hget
    simp only [performAll, ← List.cons_append, List.foldl_append] at hindex ⊢
    rw [hindex]
    exact hframe hash bytes hget

theorem frame_stopped (hstop : StoppedSave P dir files request files') : Frame files files' := by
  rcases hws : saveWrites P dir files request with ⟨ws, _ | e⟩
  · rcases saveWrites_cases P dir files request with ⟨e, h⟩ | ⟨e, h⟩ | ⟨ws', hprecheck, hlocked, h⟩
    · rw [h] at hws
      cases hws
    · rw [h] at hws
      cases hws
    · obtain ⟨snapshot, hsnapshot, rfl⟩ := lockedWrites_shape hlocked
      unfold StoppedSave at hstop
      rw [h, ← List.cons_append, interrupted_append] at hstop
      rcases hstop with hstop | hstop
      · exact (stopped_snapshot (precheck_size hprecheck) hsnapshot hstop).1
      · have hframe := (performAll_snapshot (precheck_size hprecheck) hsnapshot).1
        intro hash bytes hget
        rw [indexWrites_snapshots (.inl hstop)]
        exact hframe hash bytes hget
  · exact (stopped_of_refusal hws hstop).frame

/-- No change removes the lock file. -/
theorem lock_stopped (hstop : StoppedSave P dir files request files') (hlock : files.lock = true) :
    files'.lock = true := by
  have hdone : ∀ (w : Write) (f : TaskDir), f.lock = true → (w.perform f).lock = true := by
    intro w f hf
    cases w <;> first | rfl | exact hf
  have hpart : ∀ (w : Write) (f f' : TaskDir), f.lock = true → w.Part f f' → f'.lock = true := by
    intro w f f' hf h
    cases w with
    | createLock | createSnapshot | openIndex =>
      rcases h with rfl | rfl
      · exact hf
      · exact hdone _ f hf
    | snapshotBytes | indexBytes =>
      obtain ⟨cut, rfl⟩ := h
      exact hf
  exact hstop.invariant (fun f => f.lock = true) (fun w _ => hpart w) (fun w _ => hdone w) hlock

theorem Step.frame (h : Step P project taskId dir s s') : Frame s.files s'.files := by
  cases h with
  | saved | refused => exact frame_save P dir _ _
  | stopped _ _ h => exact frame_stopped h

theorem Step.tried_subset (h : Step P project taskId dir s s') : s.tried ⊆ s'.tried := by
  cases h <;> exact List.subset_append_left _ _

/-! ## What the directory holds after any saves -/

/-- The histories in the index of a store, and what is known of them. -/
structure Consistent (P : Platform) (project taskId : String) (s : Course) (recorded : List Request) :
    Prop where
  ledger : Ledger P project taskId s.files recorded
  /-- Saved histories are recorded, but a save that stopped may have recorded its history too. -/
  saved : s.saved.Sublist recorded
  tried : recorded ⊆ s.tried
  /-- The index ends well, or a save that stopped left it incomplete. -/
  index : (Complete P s.files recorded ∧ (s.cut = false → recorded = s.saved)) ∨
    (s.cut = true ∧ Incomplete s.files ∧ s.files.lock = true)

/-- Nothing is recorded before the first save. -/
theorem complete_empty (P : Platform) : Complete P .empty [] :=
  ⟨rfl, by simp [indexText, joinLines], fun h => absurd rfl h⟩

theorem consistent_start (P : Platform) (project taskId : String) :
    Consistent P project taskId .start [] where
  ledger := ⟨fun _ h => absurd h List.not_mem_nil, fun _ h => absurd h List.not_mem_nil, .nil⟩
  saved := .refl []
  tried := List.nil_subset _
  index := .inl ⟨complete_empty P, fun _ => rfl⟩

/-- The same index is as complete. -/
theorem Complete.same (h : Complete P files recorded) (hindex : files'.index = files.index)
    (hlock : files.lock = true → files'.lock = true) : Complete P files' recorded :=
  ⟨hindex ▸ h.index, h.bounded, fun hne => hlock (h.lock hne)⟩

/-- A save that does not touch the index and is not saved changes nothing. -/
theorem Consistent.same (h : Consistent P project taskId s recorded) (hframe : Frame s.files files')
    (hindex : files'.index = s.files.index) (hlock : s.files.lock = true → files'.lock = true)
    {tried : List Request} (htried : s.tried ⊆ tried) :
    Consistent P project taskId ⟨files', s.saved, tried, s.cut⟩ recorded where
  ledger := h.ledger.frame hframe
  saved := h.saved
  tried := fun r hr => htried (h.tried hr)
  index := by
    rcases h.index with ⟨hcomplete, hall⟩ | ⟨hcut, ⟨bytes, hbytes, hlast⟩, hlocked⟩
    · exact .inl ⟨hcomplete.same hindex hlock, hall⟩
    · exact .inr ⟨hcut, ⟨bytes, hindex.trans hbytes, hlast⟩, hlock hlocked⟩

/-- A history recorded by a save. -/
theorem Consistent.concat (h : Consistent P project taskId s recorded)
    (hledger : Ledger P project taskId files' (recorded ++ [request]))
    (hcomplete : Complete P files' (recorded ++ [request])) {saved : List Request} {cut : Bool}
    (hsaved : saved.Sublist (recorded ++ [request]))
    (hall : cut = false → recorded ++ [request] = saved) :
    Consistent P project taskId ⟨files', saved, s.tried ++ [request], cut⟩ (recorded ++ [request]) where
  ledger := hledger
  saved := hsaved
  tried := by
    intro r hr
    rcases List.mem_append.mp hr with hr | hr
    · exact List.mem_append_left _ (h.tried hr)
    · exact List.mem_append_right _ hr
  index := .inl ⟨hcomplete, hall⟩

/-- An incomplete index is not the one of a complete store. -/
theorem Incomplete.index_ne (h : Incomplete files') (hcomplete : Complete P files recorded) :
    files'.index ≠ files.index := by
  obtain ⟨bytes, hbytes, hlast⟩ := h
  intro hsame
  rw [hbytes, hcomplete.index] at hsame
  by_cases hne : recorded = []
  · rw [if_pos hne] at hsame
    cases hsame
  · rw [if_neg hne] at hsame
    exact hlast (Option.some.inj hsame ▸ back?_indexText hne)

/-- Nor is an index with one more line. -/
theorem Complete.concat_ne (h : Complete P files recorded)
    (hindex : files'.index = some (indexText P (recorded ++ [request])).toByteArray) :
    files'.index ≠ files.index := by
  intro hsame
  have hsize : files'.index.elim 0 ByteArray.size = files.index.elim 0 ByteArray.size := by rw [hsame]
  have hone : "\n".utf8ByteSize = 1 := by decide
  rw [indexSize_complete h, hindex, indexText_concat] at hsize
  simp only [Option.elim_some, String.size_toByteArray, String.utf8ByteSize_append] at hsize
  omega

/-- Under an incomplete index every save is refused. -/
theorem saveWrites_incomplete (P : Platform) (dir : String) (h : Incomplete files) (request : Request) :
    ∃ ws e, saveWrites P dir files request = (ws, some e) := by
  rcases saveWrites_cases P dir files request with ⟨e, hws⟩ | ⟨e, hws⟩ | ⟨ws, -, hlocked, -⟩
  · exact ⟨_, e, hws⟩
  · exact ⟨_, e, hws⟩
  · obtain ⟨message, herror⟩ := lockedWrites_incomplete P dir request h
    rw [herror] at hlocked
    cases hlocked

/-- One save keeps the store consistent. -/
theorem Consistent.step (hP : P.Lawful) (h : Consistent P project taskId s recorded)
    (hread : ∀ r ∈ recorded, ReadsBack P r) (hstep : Step P project taskId dir s s') :
    ∃ recorded', Consistent P project taskId s' recorded' := by
  cases hstep with
  | @saved request receipt hproject htask hok =>
    rcases h.index with ⟨hcomplete, hall⟩ | ⟨hcut, hincomplete, -⟩
    · obtain ⟨-, hledger, hcomplete'⟩ := save_recorded hP h.ledger hcomplete hread hproject htask hok
      exact ⟨_, h.concat hledger hcomplete' (h.saved.append (.refl _)) fun hcut => by rw [hall hcut]⟩
    · obtain ⟨ws, e, hws⟩ := saveWrites_incomplete P dir hincomplete request
      rw [save_of_refusal hws] at hok
      cases hok
  | @refused request e hproject htask herror =>
    have hlock : LockOnly s.files (save P dir s.files request).1 := save_refused herror
    exact ⟨_, h.same hlock.frame hlock.index hlock.lock (List.subset_append_left _ _)⟩
  | @stopped request files' hproject htask hstop =>
    have hrefusal : ∀ ws e, saveWrites P dir s.files request = (ws, some e) →
        ∃ recorded', Consistent P project taskId
          ⟨files', s.saved, s.tried ++ [request], s.cut || decide (files'.index ≠ s.files.index)⟩
          recorded' := by
      intro ws e hws
      have hlock := stopped_of_refusal hws hstop
      have hsame : (s.cut || decide (files'.index ≠ s.files.index)) = s.cut := by simp [hlock.index]
      rw [hsame]
      exact ⟨_, h.same hlock.frame hlock.index hlock.lock (List.subset_append_left _ _)⟩
    rcases saveWrites_cases P dir s.files request with ⟨e, hws⟩ | ⟨e, hws⟩ | ⟨ws, hprecheck, hlocked, hws⟩
    · exact hrefusal _ _ hws
    · exact hrefusal _ _ hws
    rcases h.index with ⟨hcomplete, hall⟩ | ⟨hcut, hincomplete, -⟩
    · have hadmissible : Admissible P project taskId request := ⟨hproject, htask, hprecheck⟩
      have hkept := ((lockedWrites_ok_iff hP h.ledger hcomplete hread).mp hlocked).1
      have hfits := ((lockedWrites_ok_iff hP h.ledger hcomplete hread).mp hlocked).2.1
      unfold StoppedSave at hstop
      rw [hws] at hstop
      obtain ⟨hframe, hlock, hlock', hleft⟩ := stopped_save hP h.ledger hcomplete hread hadmissible hlocked hstop
      rcases hleft with ⟨hindex, -⟩ | ⟨hincomplete, -⟩ | ⟨hindex, hstored⟩
      · have hsame : (s.cut || decide (files'.index ≠ s.files.index)) = s.cut := by simp [hindex]
        rw [hsame]
        exact ⟨_, h.same hframe hindex hlock (List.subset_append_left _ _)⟩
      · refine ⟨recorded, h.ledger.frame hframe, h.saved, fun r hr => List.mem_append_left _ (h.tried hr),
          .inr ⟨?_, hincomplete, ?_⟩⟩
        · simp [hincomplete.index_ne hcomplete]
        · exact hlock'.resolve_left (hincomplete.index_ne hcomplete)
      · have hne := hcomplete.concat_ne hindex
        have hlocked' := hlock'.resolve_left hne
        refine ⟨recorded ++ [request], h.concat (h.ledger.concat hframe hadmissible hstored hkept)
          (.concat hfits hindex hlocked') (h.saved.trans (List.sublist_append_left _ _)) ?_⟩
        simp [hne]
    · obtain ⟨ws', e, hrefused⟩ := saveWrites_incomplete P dir hincomplete request
      exact hrefusal _ _ hrefused

/-- Every run leads to a consistent store. -/
theorem consistent_of_run (hP : P.Lawful) (hrun : ReflTransGen (Step P project taskId dir) .start s)
    (hread : ∀ r ∈ s.tried, ReadsBack P r) : ∃ recorded, Consistent P project taskId s recorded := by
  induction hrun with
  | refl => exact ⟨[], consistent_start P project taskId⟩
  | tail _ hstep ih =>
    have hbefore := fun r hr => hread r (hstep.tried_subset hr)
    obtain ⟨recorded, h⟩ := ih hbefore
    exact h.step hP (fun r hr => hbefore r (h.tried hr)) hstep

/-! ## Loads -/

/-- A load reads the index and the last snapshot it names, which other files do not change. -/
theorem Consistent.load_eq (hP : P.Lawful) (h : Consistent P project taskId s recorded)
    (hread : ∀ r ∈ recorded, ReadsBack P r) (hframe : Frame s.files files')
    (hindex : files'.index = s.files.index) (hlock : s.files.lock = true → files'.lock = true) (dir : String) :
    load P dir files' project taskId = load P dir s.files project taskId := by
  rcases h.index with ⟨hcomplete, -⟩ | ⟨-, hincomplete, hlocked⟩
  · rw [load_complete hP (h.ledger.frame hframe) (hcomplete.same hindex hlock) hread,
      load_complete hP h.ledger hcomplete hread]
  · obtain ⟨message, hindex'⟩ := readIndex_incomplete (P := P) hincomplete (indexPath dir)
    unfold load loadWithSnapshot
    rw [hindex, hlock hlocked, hlocked, hindex']
    simp [failIf, Except.map, bind, Except.bind]

theorem save_of_locked {ws : List Write} (hprecheck : precheck P request = .ok ())
    (h : lockedWrites P dir files request = .ok ws) :
    (save P dir files request).2 = .ok ⟨"saved", sourceSha256 P.toPlatform request⟩ := by
  simp [save, saveWrites, hprecheck, h]

theorem save_of_lockedError {e : Error} (hprecheck : precheck P request = .ok ())
    (h : lockedWrites P dir files request = .error e) : (save P dir files request).2 = .error e := by
  simp [save, saveWrites, hprecheck, h]

/-- A history is loaded after it was saved. -/
theorem load_saved (hP : P.Lawful) (hledger : Ledger P project taskId files recorded)
    (hcomplete : Complete P files recorded) (hread : ∀ r ∈ recorded, ReadsBack P r)
    (hread' : ReadsBack P request) (hproject : request.task.project = project)
    (htask : request.task.id = taskId) {receipt : SaveReceipt}
    (hok : (save P dir files request).2 = .ok receipt) :
    load P dir (save P dir files request).1 project taskId = .ok request := by
  obtain ⟨-, hledger', hcomplete'⟩ := save_recorded hP hledger hcomplete hread hproject htask hok
  have hall : ∀ r ∈ recorded ++ [request], ReadsBack P r := by
    intro r hr
    rcases List.mem_append.mp hr with hr | hr
    · exact hread r hr
    · exact List.mem_singleton.mp hr ▸ hread'
  have hblank := (hledger'.admissible request (by simp)).not_blank
  rw [load_complete hP hledger' hcomplete' hall, loaded, if_neg hblank, List.getLast?_concat]

/-- Every save that would go through can stop within the new line of the index. -/
theorem exists_incomplete (hP : P.Lawful) (hledger : Ledger P project taskId files recorded)
    (hcomplete : Complete P files recorded) (hread : ∀ r ∈ recorded, ReadsBack P r)
    (hadmissible : Admissible P project taskId request) {ws : List Write}
    (hlocked : lockedWrites P dir files request = .ok ws) :
    ∃ files', StoppedSave P dir files request files' ∧ Incomplete files' ∧ files'.lock = true := by
  have hws : saveWrites P dir files request = (.createLock :: ws, none) := by
    simp [saveWrites, hadmissible.precheck, hlocked]
  obtain ⟨-, -, snapshot, hsnapshot, rfl⟩ := (lockedWrites_ok_iff hP hledger hcomplete hread).mp hlocked
  obtain ⟨-, hindex, hlock, -⟩ := performAll_snapshot hadmissible.size_le hsnapshot
  have hbefore : Complete P (performAll Write.perform files (.createLock :: snapshot)) recorded :=
    ⟨hindex ▸ hcomplete.index, hcomplete.bounded, fun _ => hlock⟩
  refine ⟨(Write.indexBytes ((indexLine P (hashOf P request)).toUTF8.extract 0 1)).perform
    (Write.openIndex.perform (performAll Write.perform files (.createLock :: snapshot))), ?_, ?_, hlock⟩
  · unfold StoppedSave
    rw [hws, ← List.cons_append, interrupted_append]
    exact .inr (.later (.here ⟨1, rfl⟩))
  · have hline : (10 : UInt8) ∉ (indexLine P (hashOf P request)).toByteArray.data.toList :=
      newline_not_mem_toByteArray (indexLine_oneLine _).newline_not_mem
    refine ⟨_, rfl, ?_⟩
    simp only [Write.perform, Option.getD_some, index_getD hbefore, String.toUTF8_eq_toByteArray]
    refine back?_append_extract_ne hline 1 (.inr fun hempty => ?_)
    -- the line starts with a brace
    have hsize : (indexLine P (hashOf P request)).toByteArray.size = 0 := by
      have := congrArg ByteArray.size hempty
      rw [ByteArray.size_extract, ByteArray.size_empty] at this
      omega
    rw [String.size_toByteArray, indexLine, structText, String.utf8ByteSize_append,
      String.utf8ByteSize_append] at hsize
    have hbrace : "\x7b".utf8ByteSize = 1 := by decide
    omega

/-- A history without decisions. -/
def emptyHistory : Request where
  stablePrefix := .null
  task := ⟨"maintenance", "innen", "clean", .active, ∅⟩
  budgetTokens := 10000
  events := []

/-- A platform that knows the text and the hash of this history. -/
def emptyPlatform : Platform where
  floatText := fun _ => "0.0"
  reparseFloat := id
  sha256Hex := fun _ => "6dadce81dcfbfe3b550d4a3e290da6014946db342a2ec0eefa14ed57fceb9f33"
  tokensText := fun _ => .ok 0
  parseRequest := fun _ => .ok emptyHistory
  parseIndexEntry := fun line => .ok (String.ofList ((line.toList.drop 26).takeWhile isHexDigit))
  utf8Error := fun _ => "invalid utf-8 sequence"

theorem escapeChar_hexDigit {c : Char} (h : isHexDigit c = true) : escapeChar c = [c] := by
  have hne : ∀ d : Char, isHexDigit d = false → c ≠ d := by
    rintro d hd rfl
    rw [h] at hd
    cases hd
  have hlarge : ¬c.toNat < 0x20 := by
    have h0 : '0'.toNat = 48 := rfl
    have ha : 'a'.toNat = 97 := rfl
    have hA : 'A'.toNat = 65 := rfl
    simp only [isHexDigit, Char.isDigit_iff_toNat, Bool.or_eq_true, Bool.and_eq_true, decide_eq_true_eq, h0, ha,
      hA] at h
    omega
  unfold escapeChar
  rw [if_neg (hne _ (by decide)), if_neg (hne _ (by decide)), if_neg (hne _ (by decide)),
    if_neg (hne _ (by decide)), if_neg (hne _ (by decide)), if_neg (hne _ (by decide)),
    if_neg (hne _ (by decide)), if_neg hlarge]

theorem emptyPlatform_lawful : emptyPlatform.Lawful where
  sha_shape := by
    intro bytes
    change hashShape "6dadce81dcfbfe3b550d4a3e290da6014946db342a2ec0eefa14ed57fceb9f33" = true
    decide
  index_entry := by
    intro hash hshape
    have hdigits : ∀ c ∈ hash.toList, isHexDigit c = true := by
      unfold hashShape at hshape
      rw [Bool.and_eq_true, List.all_eq_true] at hshape
      exact hshape.2
    have hescape : hash.toList.flatMap escapeChar = hash.toList := by
      rw [List.flatMap_congr (fun c hc => escapeChar_hexDigit (hdigits c hc)), List.flatMap_singleton']
    have hline : (indexLine emptyPlatform hash).toList =
        "\x7b\"history_source_sha256\":\"".toList ++ (hash.toList ++ ['"', '\x7d']) := by
      have hprefix : ("\x7b" ++ quote "history_source_sha256" ++ ":").toList ++ ['"'] =
        "\x7b\"history_source_sha256\":\"".toList := by decide
      rw [← hprefix]
      simp [indexLine, structText, Value.fieldsText, Value.toText, quote, hescape, String.toList_append]
    have htake : (hash.toList ++ ['"', '\x7d']).takeWhile isHexDigit = hash.toList := by
      rw [List.takeWhile_append_of_pos hdigits]
      simp [isHexDigit]
    have hdrop : ("\x7b\"history_source_sha256\":\"".toList ++ (hash.toList ++ ['"', '\x7d'])).drop 26 =
        hash.toList ++ ['"', '\x7d'] := rfl
    simp only [emptyPlatform] at hline ⊢
    rw [hline, hdrop, htake, String.ofList_toList]

theorem emptyHistory_fits : precheck emptyPlatform emptyHistory = .ok () ∧
    indexNeeds emptyPlatform [emptyHistory] emptyHistory ≤ maxStoreFileBytes := by
  decide +kernel

theorem emptyHistory_fits_first : indexNeeds emptyPlatform [] emptyHistory ≤ maxStoreFileBytes := by
  have hnone : indexText emptyPlatform [] = "" := rfl
  refine Nat.le_trans ?_ emptyHistory_fits.2
  rw [indexNeeds, indexNeeds, hnone, String.utf8ByteSize_empty]
  exact Nat.add_le_add_right (Nat.add_le_add_right (Nat.zero_le _) _) 1

theorem emptyHistory_admissible : Admissible emptyPlatform "innen" "maintenance" emptyHistory where
  project := rfl
  task := rfl
  precheck := emptyHistory_fits.1

theorem start_reads : ∀ r ∈ ([] : List Request), ReadsBack emptyPlatform r :=
  fun _ h => absurd h List.not_mem_nil

theorem start_recorded : Ledger emptyPlatform "innen" "maintenance" .empty [] ∧ Complete emptyPlatform .empty [] :=
  ⟨(consistent_start emptyPlatform "innen" "maintenance").ledger, complete_empty emptyPlatform⟩

theorem emptyHistory_locked : lockedWrites emptyPlatform "store" .empty emptyHistory =
    .ok ([.createSnapshot (hashOf emptyPlatform emptyHistory),
      .snapshotBytes (hashOf emptyPlatform emptyHistory) (requestBytes emptyPlatform emptyHistory)] ++
      indexWrites emptyPlatform emptyHistory) := by
  obtain ⟨hledger, hcomplete⟩ := start_recorded
  refine (lockedWrites_ok_iff emptyPlatform_lawful hledger hcomplete start_reads).mpr
    ⟨fun e he => absurd he List.not_mem_nil, emptyHistory_fits_first, _,
      (snapshotWrites_ok_iff emptyHistory_admissible.size_le).mpr (.inr ⟨rfl, rfl⟩), rfl⟩

theorem emptyHistory_receipt : (save emptyPlatform "store" .empty emptyHistory).2 =
    .ok ⟨"saved", sourceSha256 emptyPlatform.toPlatform emptyHistory⟩ :=
  save_of_locked emptyHistory_admissible.precheck emptyHistory_locked

/-- The store after this history was saved. -/
def savedCourse : Course :=
  ⟨(save emptyPlatform "store" .empty emptyHistory).1, [emptyHistory], [emptyHistory], false⟩

theorem Course.files_mk (files : TaskDir) (saved tried : List Request) (cut : Bool) :
    (Course.mk files saved tried cut).files = files := rfl

theorem savedCourse_files : savedCourse.files = (save emptyPlatform "store" .empty emptyHistory).1 := by
  delta savedCourse
  exact Course.files_mk _ _ _ _

theorem emptyHistory_saved : Step emptyPlatform "innen" "maintenance" "store" .start savedCourse :=
  .saved (s := .start) rfl rfl emptyHistory_receipt

theorem savedCourse_reads : ∀ r ∈ savedCourse.tried, ReadsBack emptyPlatform r := by
  intro r hr
  obtain rfl := List.mem_singleton.mp hr
  rfl

theorem savedCourse_recorded : Ledger emptyPlatform "innen" "maintenance" savedCourse.files [emptyHistory] ∧
    Complete emptyPlatform savedCourse.files [emptyHistory] := by
  obtain ⟨hledger, hcomplete⟩ := start_recorded
  have hsaved := @save_recorded emptyPlatform "innen" "maintenance" "store" .empty [] emptyHistory
    emptyPlatform_lawful hledger hcomplete start_reads rfl rfl _ emptyHistory_receipt
  rw [savedCourse_files]
  exact hsaved.2

theorem savedCourse_locked : ∃ ws, lockedWrites emptyPlatform "store" savedCourse.files emptyHistory = .ok ws := by
  obtain ⟨hledger, hcomplete⟩ := savedCourse_recorded
  have hstored := hledger.stored emptyHistory (by simp)
  exact ⟨_, (lockedWrites_ok_iff emptyPlatform_lawful hledger hcomplete savedCourse_reads).mpr
    ⟨fun e he => absurd he List.not_mem_nil, emptyHistory_fits.2, _,
      (snapshotWrites_ok_iff emptyHistory_admissible.size_le).mpr (.inl ⟨hstored, rfl⟩), rfl⟩⟩

end Innen.Middleware.History.Store
