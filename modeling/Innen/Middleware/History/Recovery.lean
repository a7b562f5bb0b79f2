import Innen.Middleware.History.Saves

/-!
# After a crash

A save can stop between or within its writes. `stopped_save_recovery` is what this leaves to the next load
and to the next try of the same save: nothing is repaired, so a part of a snapshot or an incomplete index
stays until somebody removes it.
-/

namespace Innen.Middleware.History.Store

open Innen.Common Relation

variable {P : Platform} {project taskId dir : String} {files files' : TaskDir} {recorded : List Request}
  {request : Request} {s : Course}

/-- What a save that stopped leaves to a load and to a retry. -/
inductive Aftermath (P : Platform) (project taskId dir : String) (files files' : TaskDir) (request : Request) :
    Prop
  /-- The save is refused anyway: nothing is lost, and a retry is refused too. -/
  | refused (e : Error) (hsave : (save P dir files request).2 = .error e)
      (hload : load P dir files' project taskId = load P dir files project taskId)
      (hretry : (save P dir files' request).2 = .error e)
  /-- The index is as it was, and no other file is in the place of the snapshot: a retry succeeds. -/
  | asBefore (hindex : files'.index = files.index)
      (hload : load P dir files' project taskId = load P dir files project taskId)
      (hretry : ∃ receipt, (save P dir files' request).2 = .ok receipt)
      (hnew : load P dir (save P dir files' request).1 project taskId = .ok request)
  /-- A part of the snapshot is in its place: the old history is loaded, and every retry is refused. -/
  | conflict (hindex : files'.index = files.index)
      (hpart : PartStored P files' request) (hnot : ¬Stored P files' request)
      (hload : load P dir files' project taskId = load P dir files project taskId)
      (hretry : (save P dir files' request).2 = .error (.snapshotConflict (hashOf P request)))
      (hstill : load P dir (save P dir files' request).1 project taskId = load P dir files project taskId)
  /-- The index is incomplete: loads and saves fail. -/
  | incomplete (hindex : Incomplete files')
      (hload : ∃ message, load P dir files' project taskId = .error (.corrupt message))
      (hretry : ∃ message, (save P dir files' request).2 = .error (.corrupt message))
  /-- The history is recorded: it is loaded before and after a retry, which only needs room in the index. -/
  | recorded (hindex : files'.index ≠ files.index)
      (hload : load P dir files' project taskId = .ok request)
      (hretry : (∃ receipt, (save P dir files' request).2 = .ok receipt) ∨
        (save P dir files' request).2 = .error (.tooLarge "index" maxStoreFileBytes) ∧
        maxStoreFileBytes < files'.index.elim 0 ByteArray.size +
          (indexLine P (hashOf P request)).utf8ByteSize + 1)
      (hnew : load P dir (save P dir files' request).1 project taskId = .ok request)

/-- A history that keeps all recorded events is stopped by a full index or its snapshot only. -/
theorem lockedWrites_of_kept (dir : String) (hP : P.Lawful) (hledger : Ledger P project taskId files recorded)
    (hcomplete : Complete P files recorded) (hread : ∀ r ∈ recorded, ReadsBack P r)
    (hkept : ∀ e ∈ recordedEvents recorded, (incomingOf P request).get? e.id = some (decisionText P e)) :
    lockedWrites P dir files request =
      (if maxStoreFileBytes < indexNeeds P recorded request then .error (.tooLarge "index" maxStoreFileBytes)
      else (snapshotWrites dir files (hashOf P request) (requestBytes P request)).map
        (· ++ indexWrites P request)) := by
  have hok := (rejectImmutableChanges_ok_iff hledger hread dir request).mpr hkept
  have hhash : sourceSha256 P.toPlatform request = hashOf P request := rfl
  unfold indexNeeds
  simp only [lockedWrites, priorEntries_complete hP hcomplete dir, hok, indexSize_complete hcomplete, hhash,
    failIf, bind, Except.bind]
  by_cases hroom : maxStoreFileBytes <
      (indexText P recorded).utf8ByteSize + (indexLine P (hashOf P request)).utf8ByteSize + 1
  · simp only [if_pos hroom]
  · simp only [if_neg hroom]
    cases snapshotWrites dir files (hashOf P request) (requestBytes P request) with
    | error e => simp only [Except.map]
    | ok snapshot => simp only [Except.map, indexWrites]

/-- A part of a snapshot is never completed. -/
theorem snapshotWrites_conflict (hsize : (requestBytes P request).size ≤ maxStoreFileBytes)
    (hpart : PartStored P files request) (hnot : ¬Stored P files request) :
    snapshotWrites dir files (hashOf P request) (requestBytes P request) =
      .error (.snapshotConflict (hashOf P request)) := by
  obtain ⟨cut, hcut⟩ := hpart
  have hother : (requestBytes P request).extract 0 cut ≠ requestBytes P request := by
    intro hsame
    exact hnot (by rw [Stored, hcut, hsame])
  have hshort : ¬maxStoreFileBytes < ((requestBytes P request).extract 0 cut).size := by
    rw [ByteArray.size_extract]
    omega
  simp only [snapshotWrites, readBounded, hcut, if_neg hshort]
  rw [if_pos hother]

/-- A refused save is refused again when only the lock file is new. -/
theorem save_lockOnly (h : LockOnly files files') : (save P dir files' request).2 = (save P dir files request).2 := by
  rcases h with rfl | rfl
  · rfl
  · have hlocked : lockedWrites P dir { files with lock := true } request = lockedWrites P dir files request :=
      rfl
    unfold save saveWrites
    rw [hlocked]

/-- What the index of a stopped save looks like decides what a load and a retry give. -/
theorem IndexLeft.aftermath (hP : P.Lawful) (h : Consistent P project taskId s recorded)
    (hcomplete : Complete P s.files recorded) (hread : ∀ r ∈ recorded, ReadsBack P r)
    (hread' : ReadsBack P request) (hadmissible : Admissible P project taskId request)
    (hkept : ∀ e ∈ recordedEvents recorded, (incomingOf P request).get? e.id = some (decisionText P e))
    (hfits : indexNeeds P recorded request ≤ maxStoreFileBytes) (hframe : Frame s.files files')
    (hlock : s.files.lock = true → files'.lock = true)
    (hlock' : files'.index = s.files.index ∨ files'.lock = true)
    (hleft : IndexLeft P s.files files' recorded request) :
    Aftermath P project taskId dir s.files files' request := by
  have hsize := hadmissible.size_le
  rcases hleft with ⟨hindex, hsnapshot⟩ | ⟨hincomplete, hstored⟩ | ⟨hindex, hstored⟩
  · have hledger := h.ledger.frame hframe
    have hcomplete' := hcomplete.same hindex hlock
    have hload := h.load_eq hP hread hframe hindex hlock dir
    have hlocked := lockedWrites_of_kept dir hP hledger hcomplete' hread hkept
    rw [if_neg (not_lt.mpr hfits)] at hlocked
    by_cases hpart : PartStored P files' request ∧ ¬Stored P files' request
    · -- a part of the snapshot takes its place
      obtain ⟨hpart, hnot⟩ := hpart
      have hconflict : lockedWrites P dir files' request = .error (.snapshotConflict (hashOf P request)) := by
        rw [hlocked, snapshotWrites_conflict hsize hpart hnot, Except.map]
      have hretry := save_of_lockedError hadmissible.precheck hconflict
      have hlockOnly : LockOnly files' (save P dir files' request).1 := save_refused hretry
      refine .conflict hindex hpart hnot hload hretry ?_
      exact h.load_eq hP hread (hframe.trans hlockOnly.frame) (hlockOnly.index.trans hindex)
        (fun hl => hlockOnly.lock (hlock hl)) dir
    · have hplace : ∃ snapshot, snapshotWrites dir files' (hashOf P request) (requestBytes P request) =
          .ok snapshot := by
        by_cases hstored : Stored P files' request
        · exact ⟨[], (snapshotWrites_ok_iff hsize).mpr (.inl ⟨hstored, rfl⟩)⟩
        · have hnone := hsnapshot.resolve_right fun hp => hpart ⟨hp, hstored⟩
          exact ⟨_, (snapshotWrites_ok_iff hsize).mpr (.inr ⟨hnone, rfl⟩)⟩
      obtain ⟨snapshot, hsnapshot'⟩ := hplace
      rw [hsnapshot'] at hlocked
      have hretry := save_of_locked hadmissible.precheck hlocked
      exact .asBefore hindex hload ⟨_, hretry⟩
        (load_saved hP hledger hcomplete' hread hread' hadmissible.project hadmissible.task hretry)
  · have hlocked := hlock'.resolve_left (hincomplete.index_ne hcomplete)
    obtain ⟨message, herror⟩ := lockedWrites_incomplete P dir request hincomplete
    exact .incomplete hincomplete (load_incomplete _ _ _ _ hincomplete hlocked)
      ⟨message, save_of_lockedError hadmissible.precheck herror⟩
  · have hne := hcomplete.concat_ne hindex
    have hledger := h.ledger.concat hframe hadmissible hstored hkept
    have hcomplete' : Complete P files' (recorded ++ [request]) :=
      .concat hfits hindex (hlock'.resolve_left hne)
    have hall : ∀ r ∈ recorded ++ [request], ReadsBack P r := by
      intro r hr
      rcases List.mem_append.mp hr with hr | hr
      · exact hread r hr
      · exact List.mem_singleton.mp hr ▸ hread'
    have hload : load P dir files' project taskId = .ok request := by
      rw [load_complete hP hledger hcomplete' hall, loaded, if_neg hadmissible.not_blank,
        List.getLast?_concat]
    have hkept' : ∀ e ∈ recordedEvents (recorded ++ [request]),
        (incomingOf P request).get? e.id = some (decisionText P e) := by
      intro e he
      rw [recordedEvents, List.flatMap_append, List.mem_append, List.flatMap_singleton] at he
      rcases he with he | he
      · exact hkept e he
      · exact (incomingOf_get?_iff hadmissible).mpr ⟨e, he, rfl, rfl⟩
    have hlocked := lockedWrites_of_kept dir hP hledger hcomplete' hall hkept'
    by_cases hroom : maxStoreFileBytes < indexNeeds P (recorded ++ [request]) request
    · rw [if_pos hroom] at hlocked
      have hretry := save_of_lockedError hadmissible.precheck hlocked
      have hlockOnly : LockOnly files' (save P dir files' request).1 := save_refused hretry
      refine .recorded hne hload (.inr ⟨hretry, ?_⟩) ?_
      · rw [indexSize_complete hcomplete']
        exact hroom
      · rw [load_complete hP (hledger.frame hlockOnly.frame)
          (hcomplete'.same hlockOnly.index hlockOnly.lock) hall, loaded, if_neg hadmissible.not_blank,
          List.getLast?_concat]
    · rw [if_neg hroom, (snapshotWrites_ok_iff hsize).mpr (.inl ⟨hstored, rfl⟩)] at hlocked
      have hretry := save_of_locked hadmissible.precheck hlocked
      exact .recorded hne hload (.inl ⟨_, hretry⟩)
        (load_saved hP hledger hcomplete' hall hread' hadmissible.project hadmissible.task hretry)

/-- Wherever a save stops, after any saves before it. -/
theorem stopped_save_recovery (hP : P.Lawful) (hs : ReflTransGen (Step P project taskId dir) .start s)
    (hproject : request.task.project = project) (htask : request.task.id = taskId)
    (hread : ∀ r ∈ request :: s.tried, ReadsBack P r) (hstop : StoppedSave P dir s.files request files') :
    Frame s.files files' ∧ Aftermath P project taskId dir s.files files' request := by
  refine ⟨frame_stopped hstop, ?_⟩
  obtain ⟨recorded, h⟩ := consistent_of_run hP hs fun r hr => hread r (List.mem_cons_of_mem _ hr)
  have hread' : ∀ r ∈ recorded, ReadsBack P r := fun r hr => hread r (List.mem_cons_of_mem _ (h.tried hr))
  have hrefusal : ∀ ws e, saveWrites P dir s.files request = (ws, some e) →
      Aftermath P project taskId dir s.files files' request := by
    intro ws e hws
    have hlock := stopped_of_refusal hws hstop
    have hsave : (save P dir s.files request).2 = .error e := by rw [save_of_refusal hws]
    exact .refused e hsave (h.load_eq hP hread' hlock.frame hlock.index hlock.lock dir)
      ((save_lockOnly hlock).trans hsave)
  rcases saveWrites_cases P dir s.files request with ⟨e, hws⟩ | ⟨e, hws⟩ | ⟨ws, hprecheck, hlocked, hws⟩
  · exact hrefusal _ _ hws
  · exact hrefusal _ _ hws
  rcases h.index with ⟨hcomplete, -⟩ | ⟨-, hincomplete, -⟩
  · have hadmissible : Admissible P project taskId request := ⟨hproject, htask, hprecheck⟩
    obtain ⟨hkept, hfits, -⟩ := (lockedWrites_ok_iff hP h.ledger hcomplete hread').mp hlocked
    unfold StoppedSave at hstop
    rw [hws] at hstop
    obtain ⟨hframe, hlock, hlock', hleft⟩ :=
      stopped_save hP h.ledger hcomplete hread' hadmissible hlocked hstop
    exact hleft.aftermath hP h hcomplete hread' (hread request List.mem_cons_self) hadmissible hkept hfits
      hframe hlock hlock'
  · obtain ⟨ws', e, hrefused⟩ := saveWrites_incomplete P dir hincomplete request
    exact hrefusal _ _ hrefused

/-- Every save that would write a new snapshot can stop before its bytes are there. -/
theorem exists_part (hadmissible : Admissible P project taskId request)
    (hnone : files.snapshots.get? (hashOf P request) = none) {ws : List Write}
    (hlocked : lockedWrites P dir files request = .ok ws) :
    ∃ files', StoppedSave P dir files request files' ∧ files'.index = files.index ∧
      PartStored P files' request ∧ ¬Stored P files' request := by
  have hws : saveWrites P dir files request = (.createLock :: ws, none) := by
    simp [saveWrites, hadmissible.precheck, hlocked]
  obtain ⟨snapshot, hsnapshot, rfl⟩ := lockedWrites_shape hlocked
  rcases (snapshotWrites_ok_iff hadmissible.size_le).mp hsnapshot with ⟨hthere, -⟩ | ⟨-, rfl⟩
  · rw [hnone] at hthere
    cases hthere
  have hempty : ((Write.createSnapshot (hashOf P request)).perform
      (Write.createLock.perform files)).snapshots.get? (hashOf P request) = some .empty :=
    SortedMap.get?_insert_self _ _ _
  refine ⟨(Write.createSnapshot (hashOf P request)).perform (Write.createLock.perform files), ?_, rfl,
    ⟨0, ?_⟩, fun hstored => ?_⟩
  · unfold StoppedSave
    rw [hws]
    exact .later (.here (.inr rfl))
  · rw [ByteArray.extract_same, hempty]
  · rw [Stored, hempty] at hstored
    have hsize : (requestText P request).utf8ByteSize = 0 := by
      rw [← String.size_toByteArray, ← String.toUTF8_eq_toByteArray, ← requestBytes,
        ← Option.some.inj hstored, ByteArray.size_empty]
    rw [requestText, structText, String.utf8ByteSize_append, String.utf8ByteSize_append] at hsize
    have hbrace : "\x7b".utf8ByteSize = 1 := by decide
    omega

/-- After a crash within the index the saved history is not loaded, and after one before the bytes of the
snapshot the same save is refused. -/
theorem crash_breaks_store :
    (∃ files', StoppedSave emptyPlatform "store" savedCourse.files emptyHistory files' ∧
      ∃ message, load emptyPlatform "store" files' "innen" "maintenance" = .error (.corrupt message)) ∧
    ∃ files', StoppedSave emptyPlatform "store" .empty emptyHistory files' ∧
      (save emptyPlatform "store" files' emptyHistory).2 =
        .error (.snapshotConflict (hashOf emptyPlatform emptyHistory)) := by
  constructor
  · obtain ⟨hledger, hcomplete⟩ := savedCourse_recorded
    obtain ⟨ws, hlocked⟩ := savedCourse_locked
    obtain ⟨files', hstop, hincomplete, hlock⟩ := exists_incomplete emptyPlatform_lawful hledger hcomplete
      savedCourse_reads emptyHistory_admissible hlocked
    exact ⟨files', hstop, load_incomplete _ _ _ _ hincomplete hlock⟩
  · obtain ⟨files', hstop, hindex, hpart, hnot⟩ :=
      exists_part emptyHistory_admissible rfl emptyHistory_locked
    obtain ⟨hledger, hcomplete⟩ := start_recorded
    have hlocked := @lockedWrites_of_kept emptyPlatform _ _ _ _ emptyHistory "store" emptyPlatform_lawful
      (hledger.frame (frame_stopped hstop)) (hcomplete.same hindex (lock_stopped hstop))
      (fun _ h => nomatch h) (fun e he => absurd he List.not_mem_nil)
    rw [snapshotWrites_conflict emptyHistory_admissible.size_le hpart hnot, if_neg (not_lt.mpr emptyHistory_fits_first)]
      at hlocked
    exact ⟨files', hstop, save_of_lockedError emptyHistory_admissible.precheck hlocked⟩

/-- What the general theorem says of a second save that stops within the index. -/
theorem stopped_save_recovery_saved : ∃ files',
    StoppedSave emptyPlatform "store" savedCourse.files emptyHistory files' ∧ Incomplete files' ∧
      Frame savedCourse.files files' ∧
      Aftermath emptyPlatform "innen" "maintenance" "store" savedCourse.files files' emptyHistory := by
  obtain ⟨hledger, hcomplete⟩ := savedCourse_recorded
  obtain ⟨ws, hlocked⟩ := savedCourse_locked
  obtain ⟨files', hstop, hincomplete, -⟩ := exists_incomplete emptyPlatform_lawful hledger hcomplete
    savedCourse_reads emptyHistory_admissible hlocked
  have hread : ∀ r ∈ emptyHistory :: savedCourse.tried, ReadsBack emptyPlatform r :=
    List.forall_mem_cons.mpr ⟨savedCourse_reads emptyHistory (List.mem_singleton_self _), savedCourse_reads⟩
  exact ⟨files', hstop, hincomplete,
    stopped_save_recovery emptyPlatform_lawful (.single emptyHistory_saved) rfl rfl hread hstop⟩

end Innen.Middleware.History.Store
