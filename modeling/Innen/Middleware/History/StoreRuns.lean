import Innen.Middleware.History.Ledger
import Mathlib.Logic.Relation

/-!
# Saves that end, saves that stop

A save that goes through records its history behind the others. One that stops half-way leaves the index
as it was, or complete with the new history, or incomplete; files that were there before keep their
bytes in all cases.
-/

namespace Innen.Middleware.History.Store

open Innen.Common

variable {P : Platform} {project taskId dir : String} {files files' : TaskDir} {recorded : List Request}
  {request : Request}

/-! ## What a save writes -/

/-- The entries that a save under the lock starts from. -/
theorem priorEntries_complete (hP : P.Lawful) (h : Complete P files recorded) (dir : String) :
    priorEntries P dir files = .ok (recorded.map (hashOf P)) := by
  unfold priorEntries
  by_cases hne : recorded = []
  · have hnone : files.index = none := by rw [h.index, if_pos hne]
    rw [hnone, hne]
    rfl
  · have hsome : files.index.isSome = true := by
      rw [h.index, if_neg hne]
      rfl
    rw [if_pos hsome, readIndex_complete hP h hne]

/-- The room that the index needs with one more line. -/
def indexNeeds (P : Platform) (recorded : List Request) (request : Request) : ℕ :=
  (indexText P recorded).utf8ByteSize + (indexLine P (hashOf P request)).utf8ByteSize + 1

theorem indexSize_complete (h : Complete P files recorded) :
    files.index.elim 0 ByteArray.size = (indexText P recorded).utf8ByteSize := by
  rw [h.index]
  split
  · rename_i hnil
    rw [hnil]
    rfl
  · rfl

/-- The changes of the index. -/
def indexWrites (P : Platform) (request : Request) : List Write :=
  [.openIndex, .indexBytes (indexLine P (hashOf P request)).toUTF8, .indexBytes "\n".toUTF8]

/-- Under the lock a save goes on iff it keeps all recorded events, fits the index and finds no other
snapshot in its place. -/
theorem lockedWrites_ok_iff (hP : P.Lawful) (hledger : Ledger P project taskId files recorded)
    (hcomplete : Complete P files recorded) (hread : ∀ r ∈ recorded, ReadsBack P r) {ws : List Write} :
    lockedWrites P dir files request = .ok ws ↔
      (∀ e ∈ recordedEvents recorded, (incomingOf P request).get? e.id = some (decisionText P e)) ∧
      indexNeeds P recorded request ≤ maxStoreFileBytes ∧
      ∃ snapshot, snapshotWrites dir files (hashOf P request) (requestBytes P request) = .ok snapshot ∧
        ws = snapshot ++ indexWrites P request := by
  simp only [lockedWrites, priorEntries_complete hP hcomplete dir, bind_eq_ok, failIf_eq_ok,
    indexSize_complete hcomplete, not_lt]
  constructor
  · rintro ⟨entries, hentries, ⟨⟩, hkept, ⟨⟩, hfits, snapshot, hsnapshot, hws⟩
    obtain rfl := Except.ok.inj hentries
    exact ⟨(rejectImmutableChanges_ok_iff hledger hread dir request).mp hkept, hfits, snapshot, hsnapshot,
      (Except.ok.inj hws).symm⟩
  · rintro ⟨hkept, hfits, snapshot, hsnapshot, rfl⟩
    exact ⟨_, rfl, (), (rejectImmutableChanges_ok_iff hledger hread dir request).mpr hkept, (), hfits,
      snapshot, hsnapshot, rfl⟩

/-- The snapshot is there, or it is written to a new file. -/
theorem snapshotWrites_ok_iff (hsize : (requestBytes P request).size ≤ maxStoreFileBytes)
    {snapshot : List Write} :
    snapshotWrites dir files (hashOf P request) (requestBytes P request) = .ok snapshot ↔
      (files.snapshots.get? (hashOf P request) = some (requestBytes P request) ∧ snapshot = []) ∨
      (files.snapshots.get? (hashOf P request) = none ∧ snapshot =
        [.createSnapshot (hashOf P request), .snapshotBytes (hashOf P request) (requestBytes P request)]) := by
  unfold snapshotWrites readBounded
  rcases hget : files.snapshots.get? (hashOf P request) with _ | existing
  · simp [eq_comm]
  · by_cases hlong : maxStoreFileBytes < existing.size
    · have hother : existing ≠ requestBytes P request := by
        rintro rfl
        omega
      simp [hlong, hother]
    · by_cases hsame : existing = requestBytes P request
      · simp [hsame, not_lt.mpr hsize, eq_comm]
      · simp [hlong, hsame]

/-! ## Changes of the directory -/

/-- No file that was there has other bytes now. -/
def Frame (files files' : TaskDir) : Prop :=
  ∀ hash bytes, files.snapshots.get? hash = some bytes → files'.snapshots.get? hash = some bytes

theorem Frame.refl (files : TaskDir) : Frame files files := fun _ _ h => h

theorem Frame.trans {files'' : TaskDir} (h : Frame files files') (h' : Frame files' files'') :
    Frame files files'' := fun hash bytes hget => h' hash bytes (h hash bytes hget)

/-- A new file changes no other. -/
theorem Frame.insert {hash : String} (h : files.snapshots.get? hash = none) (bytes : ByteArray)
    (index : Option ByteArray) (lock : Bool) :
    Frame files ⟨files.snapshots.insert hash bytes, index, lock⟩ := by
  intro hash' bytes' hget
  rw [SortedMap.get?_insert, if_neg]
  · exact hget
  · rintro rfl
    rw [h] at hget
    cases hget

/-- The snapshot of a history is there. -/
def Stored (P : Platform) (files : TaskDir) (request : Request) : Prop :=
  files.snapshots.get? (hashOf P request) = some (requestBytes P request)

/-- Nothing but a part of the snapshot of a history is there. -/
def PartStored (P : Platform) (files : TaskDir) (request : Request) : Prop :=
  ∃ cut, files.snapshots.get? (hashOf P request) = some ((requestBytes P request).extract 0 cut)

theorem Stored.part (h : Stored P files request) : PartStored P files request :=
  ⟨(requestBytes P request).size, by rw [ByteArray.extract_zero_size]; exact h⟩

/-- The changes up to the snapshot, all of them. -/
theorem performAll_snapshot {snapshot : List Write}
    (hsize : (requestBytes P request).size ≤ maxStoreFileBytes)
    (h : snapshotWrites dir files (hashOf P request) (requestBytes P request) = .ok snapshot) :
    Frame files (performAll Write.perform files (.createLock :: snapshot)) ∧
      (performAll Write.perform files (.createLock :: snapshot)).index = files.index ∧
      (performAll Write.perform files (.createLock :: snapshot)).lock = true ∧
      Stored P (performAll Write.perform files (.createLock :: snapshot)) request := by
  rcases (snapshotWrites_ok_iff hsize).mp h with ⟨hthere, rfl⟩ | ⟨hnone, rfl⟩
  · exact ⟨fun _ _ h => h, rfl, rfl, hthere⟩
  · have hfinal : performAll Write.perform files [.createLock, .createSnapshot (hashOf P request),
        .snapshotBytes (hashOf P request) (requestBytes P request)] =
        ⟨(files.snapshots.insert (hashOf P request) .empty).insert (hashOf P request) (requestBytes P request),
          files.index, true⟩ := by
      simp [performAll, Write.perform]
    rw [hfinal]
    refine ⟨fun hash bytes hget => ?_, rfl, rfl, SortedMap.get?_insert_self _ _ _⟩
    have hne : hash ≠ hashOf P request := by
      rintro rfl
      rw [hnone] at hget
      cases hget
    rw [SortedMap.get?_insert, if_neg hne, SortedMap.get?_insert, if_neg hne]
    exact hget

/-- The changes up to the snapshot, stopped. -/
theorem stopped_snapshot {snapshot : List Write}
    (hsize : (requestBytes P request).size ≤ maxStoreFileBytes)
    (h : snapshotWrites dir files (hashOf P request) (requestBytes P request) = .ok snapshot)
    (hstop : Interrupted Write.perform Write.Part files (.createLock :: snapshot) files') :
    Frame files files' ∧ files'.index = files.index ∧ (files.lock = true → files'.lock = true) ∧
      (files'.snapshots.get? (hashOf P request) = none ∨ PartStored P files' request) := by
  rcases (snapshotWrites_ok_iff hsize).mp h with ⟨hthere, rfl⟩ | ⟨hnone, rfl⟩
  · rcases hstop with hlock | hnext
    · rcases hlock with rfl | rfl
      · exact ⟨.refl _, rfl, id, .inr (Stored.part hthere)⟩
      · exact ⟨fun _ _ h => h, rfl, fun _ => rfl, .inr (Stored.part hthere)⟩
    · cases hnext
  · rcases hstop with hlock | hnext
    · rcases hlock with rfl | rfl
      · exact ⟨.refl _, rfl, id, .inl hnone⟩
      · exact ⟨fun _ _ h => h, rfl, fun _ => rfl, .inl hnone⟩
    rcases hnext with hcreate | hnext
    · rcases hcreate with rfl | rfl
      · exact ⟨fun _ _ h => h, rfl, fun _ => rfl, .inl hnone⟩
      · refine ⟨Frame.insert hnone _ _ _, rfl, fun _ => rfl, .inr ⟨0, ?_⟩⟩
        rw [ByteArray.extract_same]
        exact SortedMap.get?_insert_self _ _ _
    rcases hnext with hbytes | hnext
    · obtain ⟨cut, rfl⟩ := hbytes
      refine ⟨fun hash bytes hget => ?_, rfl, fun _ => rfl, .inr ⟨cut, ?_⟩⟩
      · have hne : hash ≠ hashOf P request := by
          rintro rfl
          rw [hnone] at hget
          cases hget
        simp only [Write.perform, SortedMap.get?_insert, if_neg hne]
        exact hget
      · simp [Write.perform]
    · cases hnext

/-! ## Changes of the index -/

theorem index_getD (h : Complete P files recorded) :
    files.index.getD .empty = (indexText P recorded).toByteArray := by
  rw [h.index]
  split
  · rename_i hnil
    rw [hnil]
    rfl
  · rfl

/-- All changes of the index together record the history. -/
theorem performAll_index (h : Complete P files recorded) :
    performAll Write.perform files (indexWrites P request) =
      { files with index := some (indexText P (recorded ++ [request])).toByteArray } := by
  simp only [performAll, indexWrites, List.foldl_cons, List.foldl_nil, Write.perform, Option.getD_some,
    index_getD h, indexText_concat, String.toByteArray_append, ByteArray.append_assoc,
    String.toUTF8_eq_toByteArray]

/-- The changes of the index, stopped, leave it as it was, incomplete, or with the history recorded. -/
theorem stopped_index (h : Complete P files recorded)
    (hstop : Interrupted Write.perform Write.Part files (indexWrites P request) files') :
    files'.snapshots = files.snapshots ∧ files'.lock = files.lock ∧
      (files'.index = files.index ∨ Incomplete files' ∨
        files'.index = some (indexText P (recorded ++ [request])).toByteArray) := by
  have hline : (10 : UInt8) ∉ (indexLine P (hashOf P request)).toByteArray.data.toList :=
    newline_not_mem_toByteArray (indexLine_oneLine _).newline_not_mem
  rcases hstop with hopen | hnext
  · rcases hopen with rfl | rfl
    · exact ⟨rfl, rfl, .inl rfl⟩
    · refine ⟨rfl, rfl, ?_⟩
      rcases hindex : files.index with _ | bytes
      · refine .inr (.inl ⟨.empty, ?_, by simp⟩)
        simp [Write.perform, hindex]
      · exact .inl (by simp [Write.perform, hindex])
  rcases hnext with hbytes | hnext
  · obtain ⟨cut, rfl⟩ := hbytes
    refine ⟨rfl, rfl, ?_⟩
    simp only [Write.perform, Option.getD_some, index_getD h, String.toUTF8_eq_toByteArray]
    by_cases hwrote : (indexText P recorded).toByteArray.data.back? ≠ some 10 ∨
        (indexLine P (hashOf P request)).toByteArray.extract 0 cut ≠ .empty
    · exact .inr (.inl ⟨_, rfl, back?_append_extract_ne hline cut hwrote⟩)
    · -- nothing was written behind a complete index
      obtain ⟨hlast, hempty⟩ := not_or.mp hwrote
      have hne : recorded ≠ [] := by
        rintro rfl
        exact hlast (by simp [indexText, joinLines])
      rw [not_not.mp hempty, ByteArray.append_empty, h.index, if_neg hne]
      exact .inl rfl
  rcases hnext with hnewline | hnext
  · obtain ⟨cut, rfl⟩ := hnewline
    refine ⟨rfl, rfl, .inr ?_⟩
    simp only [Write.perform, Option.getD_some, index_getD h, String.toUTF8_eq_toByteArray]
    rcases Nat.eq_zero_or_pos cut with rfl | hpos
    · refine .inl ⟨_, rfl, ?_⟩
      rw [ByteArray.extract_same, ByteArray.append_empty]
      have hwhole := back?_append_extract_ne (a := (indexText P recorded).toByteArray) hline
        (indexLine P (hashOf P request)).toByteArray.size
      rw [ByteArray.extract_zero_size] at hwhole
      refine hwhole (.inr fun hempty => ?_)
      have hblank := blank_indexLine (P := P) (hashOf P request)
      rw [String.toByteArray_inj.mp (hempty.trans String.toByteArray_empty.symm)] at hblank
      exact absurd hblank (by decide)
    · have hall : "\n".toByteArray.extract 0 cut = "\n".toByteArray := by
        obtain ⟨k, rfl⟩ : ∃ k, cut = "\n".toByteArray.size + k := ⟨cut - 1, by
          have hone : "\n".toByteArray.size = 1 := by decide
          omega⟩
        have hnone : ByteArray.empty.extract 0 k = .empty := ByteArray.extract_eq_empty_iff.mpr (by simp)
        have hcut := extract_append_size "\n".toByteArray .empty k
        rw [hnone, ByteArray.append_empty] at hcut
        exact hcut
      rw [hall, indexText_concat, String.toByteArray_append, String.toByteArray_append, ByteArray.append_assoc]
      exact .inr rfl
  · cases hnext

/-! ## The effect of a save -/

/-- A recorded history is one more line of the index. -/
theorem Complete.concat {files' : TaskDir} (hfits : indexNeeds P recorded request ≤ maxStoreFileBytes)
    (hindex : files'.index = some (indexText P (recorded ++ [request])).toByteArray)
    (hlock : files'.lock = true) : Complete P files' (recorded ++ [request]) where
  index := by rw [hindex, if_neg (by simp)]
  bounded := by
    have hone : "\n".utf8ByteSize = 1 := by decide
    rw [indexText_concat, String.utf8ByteSize_append, String.utf8ByteSize_append]
    unfold indexNeeds at hfits
    omega
  lock := fun _ => hlock

/-- Files that keep their bytes still hold the ledger. -/
theorem Ledger.frame (h : Ledger P project taskId files recorded) (hframe : Frame files files') :
    Ledger P project taskId files' recorded :=
  ⟨h.admissible, fun r hr => hframe _ _ (h.stored r hr), h.cumulative⟩

/-- A history that keeps all recorded events can be recorded behind the others. -/
theorem Ledger.concat (h : Ledger P project taskId files recorded) (hframe : Frame files files')
    (hadmissible : Admissible P project taskId request) (hstored : Stored P files' request)
    (hkept : ∀ e ∈ recordedEvents recorded, (incomingOf P request).get? e.id = some (decisionText P e)) :
    Ledger P project taskId files' (recorded ++ [request]) where
  admissible := by
    intro r hr
    rcases List.mem_append.mp hr with hr | hr
    · exact h.admissible r hr
    · exact List.mem_singleton.mp hr ▸ hadmissible
  stored := by
    intro r hr
    rcases List.mem_append.mp hr with hr | hr
    · exact hframe _ _ (h.stored r hr)
    · exact List.mem_singleton.mp hr ▸ hstored
  cumulative := by
    refine List.pairwise_append.mpr ⟨h.cumulative, List.pairwise_singleton _ _, fun r hr r' hr' => ?_⟩
    obtain rfl := List.mem_singleton.mp hr'
    intro e he
    exact (incomingOf_get?_iff hadmissible).mp (hkept e (List.mem_flatMap.mpr ⟨r, hr, he⟩))

/-- The writes of a save: none, the lock only, or all. -/
theorem saveWrites_cases (P : Platform) (dir : String) (files : TaskDir) (request : Request) :
    (∃ e, saveWrites P dir files request = ([], some e)) ∨
    (∃ e, saveWrites P dir files request = ([.createLock], some e)) ∨
    ∃ ws, precheck P request = .ok () ∧ lockedWrites P dir files request = .ok ws ∧
      saveWrites P dir files request = (.createLock :: ws, none) := by
  unfold saveWrites
  rcases hprecheck : precheck P request with e | ⟨⟨⟩⟩
  · exact .inl ⟨e, rfl⟩
  · rcases hlocked : lockedWrites P dir files request with e | ws
    · exact .inr (.inl ⟨e, rfl⟩)
    · exact .inr (.inr ⟨ws, rfl, rfl, rfl⟩)

theorem save_of_refusal {ws : List Write} {e : Error}
    (h : saveWrites P dir files request = (ws, some e)) :
    save P dir files request = (performAll Write.perform files ws, .error e) := by
  simp only [save, h]

theorem save_of_writes {ws : List Write} (h : saveWrites P dir files request = (ws, none)) :
    save P dir files request =
      (performAll Write.perform files ws, .ok ⟨"saved", sourceSha256 P.toPlatform request⟩) := by
  simp only [save, h]

/-- A refused save changes nothing but the lock file. -/
theorem save_refused {e : Error} (h : (save P dir files request).2 = .error e) :
    (save P dir files request).1 = files ∨ (save P dir files request).1 = { files with lock := true } := by
  rcases saveWrites_cases P dir files request with ⟨e', hws⟩ | ⟨e', hws⟩ | ⟨ws, -, -, hws⟩
  · rw [save_of_refusal hws]
    exact .inl rfl
  · rw [save_of_refusal hws]
    exact .inr rfl
  · rw [save_of_writes hws] at h
    cases h

/-- A save that goes through records its history. -/
theorem save_recorded (hP : P.Lawful) (hledger : Ledger P project taskId files recorded)
    (hcomplete : Complete P files recorded) (hread : ∀ r ∈ recorded, ReadsBack P r)
    (hproject : request.task.project = project) (htask : request.task.id = taskId) {receipt : SaveReceipt}
    (h : (save P dir files request).2 = .ok receipt) :
    Frame files (save P dir files request).1 ∧
      Ledger P project taskId (save P dir files request).1 (recorded ++ [request]) ∧
      Complete P (save P dir files request).1 (recorded ++ [request]) := by
  rcases saveWrites_cases P dir files request with ⟨e, hws⟩ | ⟨e, hws⟩ | ⟨ws, hprecheck, hlocked, hws⟩
  · rw [save_of_refusal hws] at h
    cases h
  · rw [save_of_refusal hws] at h
    cases h
  · rw [save_of_writes hws]
    have hadmissible : Admissible P project taskId request := ⟨hproject, htask, hprecheck⟩
    obtain ⟨hkept, hfits, snapshot, hsnapshot, rfl⟩ :=
      (lockedWrites_ok_iff hP hledger hcomplete hread).mp hlocked
    obtain ⟨hframe, hindex, hlock, hstored⟩ := performAll_snapshot hadmissible.size_le hsnapshot
    have hbefore : Complete P (performAll Write.perform files (.createLock :: snapshot)) recorded :=
      ⟨hindex ▸ hcomplete.index, hcomplete.bounded, fun _ => hlock⟩
    have hall : performAll Write.perform files (.createLock :: (snapshot ++ indexWrites P request)) =
        performAll Write.perform (performAll Write.perform files (.createLock :: snapshot))
          (indexWrites P request) := by
      rw [performAll, ← List.cons_append, List.foldl_append]
      rfl
    have hfinal := hall.trans (performAll_index hbefore)
    have hframe' : Frame files (performAll Write.perform files
        (.createLock :: (snapshot ++ indexWrites P request))) := hfinal ▸ hframe
    have hstored' : Stored P (performAll Write.perform files
        (.createLock :: (snapshot ++ indexWrites P request))) request := hfinal ▸ hstored
    exact ⟨hframe', hledger.concat hframe' hadmissible hstored' hkept,
      .concat hfits (by rw [hfinal]) (by rw [hfinal]; exact hlock)⟩

/-- What a save that stopped leaves of the index. -/
inductive IndexLeft (P : Platform) (files files' : TaskDir) (recorded : List Request) (request : Request) :
    Prop
  /-- The index is as it was; of the snapshot there is nothing, a part, or all. -/
  | asBefore (hindex : files'.index = files.index)
      (hsnapshot : files'.snapshots.get? (hashOf P request) = none ∨ PartStored P files' request)
  /-- The snapshot is there, and the index ends within the new line. -/
  | incomplete (hindex : Incomplete files') (hstored : Stored P files' request)
  /-- The history is recorded. -/
  | recorded (hindex : files'.index = some (indexText P (recorded ++ [request])).toByteArray)
      (hstored : Stored P files' request)

/-- A save that would go through, stopped. -/
theorem stopped_save (hP : P.Lawful) (hledger : Ledger P project taskId files recorded)
    (hcomplete : Complete P files recorded) (hread : ∀ r ∈ recorded, ReadsBack P r)
    (hadmissible : Admissible P project taskId request) {ws : List Write}
    (hlocked : lockedWrites P dir files request = .ok ws)
    (hstop : Interrupted Write.perform Write.Part files (.createLock :: ws) files') :
    Frame files files' ∧ (files.lock = true → files'.lock = true) ∧
      (files'.index = files.index ∨ files'.lock = true) ∧ IndexLeft P files files' recorded request := by
  obtain ⟨hkept, hfits, snapshot, hsnapshot, rfl⟩ :=
    (lockedWrites_ok_iff hP hledger hcomplete hread).mp hlocked
  rw [← List.cons_append, interrupted_append] at hstop
  rcases hstop with hstop | hstop
  · obtain ⟨hframe, hindex, hlock, hpart⟩ := stopped_snapshot hadmissible.size_le hsnapshot hstop
    exact ⟨hframe, hlock, .inl hindex, .asBefore hindex hpart⟩
  · obtain ⟨hframe, hindex, hlock, hstored⟩ := performAll_snapshot hadmissible.size_le hsnapshot
    have hbefore : Complete P (performAll Write.perform files (.createLock :: snapshot)) recorded :=
      ⟨hindex ▸ hcomplete.index, hcomplete.bounded, fun _ => hlock⟩
    obtain ⟨hsnapshots, hlock', hleft⟩ := stopped_index hbefore hstop
    have hframe' : Frame files files' := fun hash bytes hget => hsnapshots ▸ hframe hash bytes hget
    have hstored' : Stored P files' request := by
      unfold Stored
      rw [hsnapshots]
      exact hstored
    refine ⟨hframe', fun _ => hlock'.trans hlock, .inr (hlock'.trans hlock), ?_⟩
    rcases hleft with hsame | hincomplete | hrecorded
    · exact .asBefore (hsame.trans hindex) (.inr hstored'.part)
    · exact .incomplete hincomplete hstored'
    · exact .recorded hrecorded hstored'

/-! ## What a load gives -/

/-- The result of a load when the histories `recorded` are recorded. -/
def loaded (project taskId : String) (recorded : List Request) : Except Error Request :=
  if blank project = true ∨ blank taskId = true then .error (.corrupt "project and task must be nonempty")
  else
    match recorded.getLast? with
    | some r => .ok r
    | none => .error (.io .notFound)

/-- The identity of a task with an admissible history is not blank. -/
theorem Admissible.not_blank {r : Request} (h : Admissible P project taskId r) :
    ¬(blank project = true ∨ blank taskId = true) := by
  obtain ⟨positions, hvalid⟩ : ∃ positions, validate r = .ok positions := by
    have hscope := h.scope
    simp only [validateScope, bind_eq_ok, mapError_eq_ok] at hscope
    obtain ⟨positions, hvalid, -⟩ := hscope
    exact ⟨positions, hvalid⟩
  simp only [validate, bind_eq_ok, failIf_eq_ok] at hvalid
  obtain ⟨⟨⟩, -, ⟨⟩, hpresent, -⟩ := hvalid
  rw [← h.project, ← h.task]
  rintro (hblank | hblank)
  · exact hpresent (.inr (.inl (by simp [present, hblank])))
  · exact hpresent (.inl (by simp [present, hblank]))

/-- With a complete index the last recorded history is loaded. -/
theorem load_complete (hP : P.Lawful) (hledger : Ledger P project taskId files recorded)
    (hcomplete : Complete P files recorded) (hread : ∀ r ∈ recorded, ReadsBack P r) :
    load P dir files project taskId = loaded project taskId recorded := by
  unfold load loadWithSnapshot loaded
  by_cases hblank : blank project = true ∨ blank taskId = true
  · simp [hblank, failIf, Except.map, bind, Except.bind]
  rcases List.eq_nil_or_concat recorded with rfl | ⟨init, r, rfl⟩
  · have hindex : files.index = none := by rw [hcomplete.index, if_pos rfl]
    rcases hlock : files.lock with _ | _ <;>
      simp [hblank, hindex, readIndex, readBounded, failIf, Except.map, bind, Except.bind]
  · rw [List.concat_eq_append] at *
    have hr : r ∈ init ++ [r] := by simp
    have hadmissible := hledger.admissible r hr
    have hsnapshot := readSnapshot_stored hadmissible (hread r hr) (hledger.stored r hr) dir
    have hlock : files.lock = true := hcomplete.lock (by simp)
    have hentries := readIndex_complete hP hcomplete (by simp) (indexPath dir)
    have hlatest : ((init ++ [r]).map (hashOf P)).getLastD "" = hashOf P r := by simp
    simp only [hblank, hlock, hentries, failIf, bind, Except.bind, hlatest, hsnapshot, hadmissible.project,
      hadmissible.task]
    simp [Except.map]

/-- With an incomplete index a load fails. -/
theorem load_incomplete (P : Platform) (project taskId dir : String) (hincomplete : Incomplete files)
    (hlock : files.lock = true) :
    ∃ message, load P dir files project taskId = .error (.corrupt message) := by
  obtain ⟨message, hindex⟩ := readIndex_incomplete (P := P) hincomplete (indexPath dir)
  unfold load loadWithSnapshot
  by_cases hblank : blank project = true ∨ blank taskId = true
  · exact ⟨_, by simp [hblank, failIf, Except.map, bind, Except.bind]; rfl⟩
  · exact ⟨message, by simp [hblank, hlock, hindex, failIf, Except.map, bind, Except.bind]⟩

/-- With an incomplete index a save changes nothing but the lock file, and fails. -/
theorem lockedWrites_incomplete (P : Platform) (dir : String) (request : Request) (h : Incomplete files) :
    ∃ message, lockedWrites P dir files request = .error (.corrupt message) := by
  obtain ⟨message, hindex⟩ := readIndex_incomplete (P := P) h (indexPath dir)
  obtain ⟨bytes, hbytes, -⟩ := h
  have hprior : priorEntries P dir files = .error (.corrupt message) := by
    rw [priorEntries, if_pos (by rw [hbytes]; rfl), hindex]
  exact ⟨message, by simp [lockedWrites, hprior, bind, Except.bind]⟩

end Innen.Middleware.History.Store
