import Innen.Middleware.History.Store

/-!
# What the directory of a task holds

A directory is seen through the histories recorded in its index, oldest first. While the index is
complete, reading it gives the hashes of these histories and reading a snapshot gives the history back,
so a save records its history exactly when it is admissible and keeps all events recorded before.
-/

namespace Innen.Middleware.History.Store

open Innen.Common

/-- What is used of the library functions. -/
structure Platform.Lawful (P : Platform) : Prop where
  /-- A hash is 64 hexadecimal digits. -/
  sha_shape : ∀ bytes, hashShape (P.sha256Hex bytes) = true
  /-- The line of a hash is read as that hash. -/
  index_entry : ∀ hash, hashShape hash = true → P.parseIndexEntry (indexLine P hash) = .ok hash

/-- The text of a history is parsed as that history. -/
def ReadsBack (P : Platform) (request : Request) : Prop :=
  P.parseRequest (requestBytes P request) = .ok request

/-- The hash of a history. -/
def hashOf (P : Platform) (request : Request) : String := sourceSha256 P.toPlatform request

/-- Every event of `older` is in `newer`, with the same id and the same text. -/
def Keeps (P : Platform) (older newer : Request) : Prop :=
  ∀ e ∈ older.events, ∃ e' ∈ newer.events, e'.id = e.id ∧ decisionText P e' = decisionText P e

/-- A history of the task that passes the checks of a save. -/
structure Admissible (P : Platform) (project taskId : String) (request : Request) : Prop where
  project : request.task.project = project
  task : request.task.id = taskId
  precheck : precheck P request = .ok ()

/-- The recorded histories and their snapshots. -/
structure Ledger (P : Platform) (project taskId : String) (files : TaskDir) (recorded : List Request) :
    Prop where
  admissible : ∀ r ∈ recorded, Admissible P project taskId r
  stored : ∀ r ∈ recorded, files.snapshots.get? (hashOf P r) = some (requestBytes P r)
  cumulative : recorded.Pairwise (Keeps P)

/-- The index of some histories. -/
def indexText (P : Platform) (recorded : List Request) : String :=
  joinLines (recorded.map fun r => indexLine P (hashOf P r))

/-- The index names the recorded histories and nothing else. -/
structure Complete (P : Platform) (files : TaskDir) (recorded : List Request) : Prop where
  index : files.index = if recorded = [] then none else some (indexText P recorded).toByteArray
  bounded : (indexText P recorded).utf8ByteSize ≤ maxStoreFileBytes
  lock : recorded ≠ [] → files.lock = true

/-- The index is there and does not end with a newline. -/
def Incomplete (files : TaskDir) : Prop := ∃ bytes, files.index = some bytes ∧ bytes.data.back? ≠ some 10

variable {P : Platform}

/-! ## The index -/

theorem indexLine_oneLine (hash : String) : OneLine (indexLine P hash) := by
  have hopen : OneLine "\x7b" := by decide
  have hclose : OneLine "\x7d" := by decide
  refine (hopen.append (Value.oneLine_fieldsText fun e he => ?_)).append hclose
  obtain rfl := List.mem_singleton.mp he
  exact oneLine_quote hash

theorem blank_indexLine (hash : String) : blank (indexLine P hash) = false := by
  unfold indexLine structText blank
  rw [String.append_assoc, String.toList_append, List.all_append]
  rfl

/-- The lines of an index. -/
theorem lines_indexText (recorded : List Request) :
    lines (indexText P recorded) = recorded.map fun r => indexLine P (hashOf P r) := by
  have hone : ∀ l ∈ recorded.map fun r => indexLine P (hashOf P r), OneLine l := by
    intro l hl
    obtain ⟨r, -, rfl⟩ := List.mem_map.mp hl
    exact indexLine_oneLine _
  have hstrip : ∀ l ∈ recorded.map fun r => indexLine P (hashOf P r), stripCr l = id l :=
    fun l hl => stripCr_of_getLast? (hone l hl).getLast?_ne
  rw [indexText, lines_joinLines fun l hl => (hone l hl).newline_not_mem, List.map_congr_left hstrip,
    List.map_id]

theorem indexText_concat (recorded : List Request) (r : Request) :
    indexText P (recorded ++ [r]) = indexText P recorded ++ (indexLine P (hashOf P r) ++ "\n") := by
  unfold indexText joinLines
  rw [List.map_append, List.foldl_append]
  simp [String.append_assoc]

theorem foldlM_readIndexLine (hP : P.Lawful) (path : String) (recorded : List Request) (n : ℕ)
    (entries : List String) :
    ((recorded.map fun r => indexLine P (hashOf P r)).zipIdx n).foldlM (readIndexLine P path) entries =
      .ok (entries ++ recorded.map (hashOf P)) := by
  induction recorded generalizing n entries with
  | nil => simp; rfl
  | cons r rest ih =>
    have hshape : hashShape (hashOf P r) = true := hP.sha_shape _
    have hone : readIndexLine P path entries (indexLine P (hashOf P r), n) =
        .ok (entries ++ [hashOf P r]) := by
      simp [readIndexLine, blank_indexLine, hP.index_entry _ hshape, hshape, failIf, Except.mapError, bind,
        Except.bind]
    rw [List.map_cons, List.zipIdx_cons, List.foldlM_cons, hone]
    simp only [bind, Except.bind]
    rw [ih, List.append_assoc]
    rfl

theorem back?_indexText {recorded : List Request} (h : recorded ≠ []) :
    (indexText P recorded).toByteArray.data.back? = some 10 := by
  obtain ⟨init, last, rfl⟩ := (List.eq_nil_or_concat recorded).resolve_left h
  rw [List.concat_eq_append, indexText_concat, ← String.append_assoc, String.toByteArray_append, back?_append]
  rfl

/-- Reading a complete index gives the hashes of the recorded histories. -/
theorem readIndex_complete (hP : P.Lawful) {files : TaskDir} {recorded : List Request}
    (h : Complete P files recorded) (hne : recorded ≠ []) (path : String) :
    readIndex P path files.index = .ok (recorded.map (hashOf P)) := by
  have hsize : ¬maxStoreFileBytes < (indexText P recorded).utf8ByteSize := not_lt.mpr h.bounded
  rw [h.index, if_neg hne]
  simp [readIndex, readBounded, hsize, back?_indexText hne, lines_indexText, foldlM_readIndexLine hP, failIf,
    hne, bind, Except.bind]

/-- Reading an incomplete index fails. -/
theorem readIndex_incomplete {files : TaskDir} (h : Incomplete files) (path : String) :
    ∃ message, readIndex P path files.index = .error (.corrupt message) := by
  obtain ⟨bytes, hindex, hlast⟩ := h
  rw [hindex]
  by_cases hsize : maxStoreFileBytes < bytes.size
  · exact ⟨_, by simp [readIndex, readBounded, hsize, bind, Except.bind]; rfl⟩
  · exact ⟨path ++ " is incomplete", by simp [readIndex, readBounded, hsize, hlast, failIf, bind, Except.bind]⟩

/-! ## The snapshots -/

theorem Admissible.scope {project taskId : String} {r : Request} (h : Admissible P project taskId r) :
    validateScope r = .ok () := by
  have hprecheck := h.precheck
  simp only [Store.precheck, bind_eq_ok] at hprecheck
  obtain ⟨⟨⟩, hscope, -⟩ := hprecheck
  exact hscope

theorem Admissible.size_le {project taskId : String} {r : Request} (h : Admissible P project taskId r) :
    (requestBytes P r).size ≤ maxStoreFileBytes := by
  have hprecheck := h.precheck
  simp only [Store.precheck, bind_eq_ok, failIf_eq_ok] at hprecheck
  obtain ⟨-, -, hsize⟩ := hprecheck
  exact not_lt.mp hsize

/-- Reading the snapshot of a recorded history gives this history. -/
theorem readSnapshot_stored {project taskId : String} {r : Request} (hr : Admissible P project taskId r)
    (hread : ReadsBack P r) {files : TaskDir}
    (hstored : files.snapshots.get? (hashOf P r) = some (requestBytes P r)) (dir : String) :
    readSnapshot P dir files (hashOf P r) = .ok r := by
  have hread' : P.parseRequest (requestBytes P r) = .ok r := hread
  have hhash : sourceSha256 P.toPlatform r = hashOf P r := rfl
  simp [readSnapshot, readBounded, hstored, not_lt.mpr hr.size_le, hread', hr.scope, hhash, failIf,
    Except.mapError, bind, Except.bind]

/-- The events of the recorded histories, oldest first. -/
def recordedEvents (recorded : List Request) : List Decision := recorded.flatMap (·.events)

/-- Collecting the events of the snapshots is collecting the recorded events. -/
theorem priorEvents_eq {project taskId : String} {files : TaskDir} {recorded : List Request}
    (h : Ledger P project taskId files recorded) (hread : ∀ r ∈ recorded, ReadsBack P r) (dir : String) :
    priorEvents P dir files (recorded.map (hashOf P)) = (recordedEvents recorded).foldlM (recordPrior P) ∅ := by
  obtain ⟨hadmissible, hstored, -⟩ := h
  unfold priorEvents recordedEvents
  generalize (∅ : SortedMap String String) = prior
  induction recorded generalizing prior with
  | nil => rfl
  | cons r rest ih =>
    have hone := readSnapshot_stored (hadmissible r List.mem_cons_self) (hread r List.mem_cons_self)
      (hstored r List.mem_cons_self) dir
    rw [List.map_cons, List.foldlM_cons, List.flatMap_cons, List.foldlM_append, hone]
    refine bind_congr fun prior' => ?_
    exact ih (fun r' hr' => hread r' (List.mem_cons_of_mem r hr'))
      (fun r' hr' => hadmissible r' (List.mem_cons_of_mem r hr'))
      (fun r' hr' => hstored r' (List.mem_cons_of_mem r hr')) prior'

/-- Collecting events keeps what was known and knows every event taken in. -/
theorem foldlM_recordPrior_ok {es : List Decision} {prior prior' : SortedMap String String}
    (h : es.foldlM (recordPrior P) prior = .ok prior') :
    (∀ id text, prior.get? id = some text → prior'.get? id = some text) ∧
      ∀ e ∈ es, prior'.get? e.id = some (decisionText P e) := by
  induction es generalizing prior with
  | nil =>
    obtain rfl := Except.ok.inj h
    exact ⟨fun _ _ h => h, fun e he => absurd he List.not_mem_nil⟩
  | cons e rest ih =>
    rw [List.foldlM_cons, bind_eq_ok] at h
    obtain ⟨next, hnext, hrest⟩ := h
    obtain ⟨hkept, hknown⟩ := ih hrest
    have hstep : (∀ id text, prior.get? id = some text → next.get? id = some text) ∧
        next.get? e.id = some (decisionText P e) := by
      unfold recordPrior at hnext
      rcases hget : prior.get? e.id with _ | previous
      · rw [hget] at hnext
        obtain rfl := Except.ok.inj hnext
        refine ⟨fun id text hid => ?_, SortedMap.get?_insert_self _ _ _⟩
        rw [SortedMap.get?_insert, if_neg]
        · exact hid
        · rintro rfl
          rw [hget] at hid
          cases hid
      · rw [hget] at hnext
        dsimp only at hnext
        split_ifs at hnext with hsame
        obtain rfl := Except.ok.inj hnext
        exact ⟨fun _ _ h => h, by rw [hget, not_not.mp hsame]⟩
    refine ⟨fun id text hid => hkept id text (hstep.1 id text hid), fun e' he' => ?_⟩
    rcases List.mem_cons.mp he' with rfl | he'
    · exact hkept _ _ hstep.2
    · exact hknown e' he'

/-- Events that all agree with one map are collected without an error, and nothing else is. -/
theorem foldlM_recordPrior_agrees {incoming : SortedMap String String} {es : List Decision}
    (hes : ∀ e ∈ es, incoming.get? e.id = some (decisionText P e)) {prior : SortedMap String String}
    (hprior : ∀ id text, prior.get? id = some text → incoming.get? id = some text) :
    ∃ prior', es.foldlM (recordPrior P) prior = .ok prior' ∧
      ∀ id text, prior'.get? id = some text → incoming.get? id = some text := by
  induction es generalizing prior with
  | nil => exact ⟨prior, rfl, hprior⟩
  | cons e rest ih =>
    have he := hes e List.mem_cons_self
    have hrest := fun e' he' => hes e' (List.mem_cons_of_mem e he')
    rw [List.foldlM_cons]
    unfold recordPrior
    rcases hget : prior.get? e.id with _ | previous
    · refine ih hrest fun id text hid => ?_
      rw [SortedMap.get?_insert] at hid
      split at hid
      · rename_i heq
        obtain rfl := Option.some.inj hid
        exact heq ▸ he
      · exact hprior id text hid
    · have hsame : previous = decisionText P e := by
        have := hprior _ _ hget
        rw [he] at this
        exact (Option.some.inj this).symm
      simp only [hsame, ne_eq, not_true_eq_false, if_false, bind, Except.bind]
      exact ih hrest hprior

/-! ## Events that must be kept -/

/-- The incoming events by id. -/
def incomingOf (P : Platform) (request : Request) : SortedMap String String :=
  (∅ : SortedMap String String).insertAll (request.events.map fun e => (e.id, decisionText P e))

theorem foldlM_checkKept_ok_iff {incoming : SortedMap String String} {es : List (String × String)} :
    es.foldlM (fun _ e => checkKept incoming e) () = .ok () ↔ ∀ e ∈ es, incoming.get? e.1 = some e.2 := by
  have hone : ∀ e, checkKept incoming e = .ok () ↔ incoming.get? e.1 = some e.2 := by
    intro e
    unfold checkKept
    rcases incoming.get? e.1 with _ | text
    · simp
    · by_cases h : text = e.2 <;> simp [h]
  induction es with
  | nil => simp; rfl
  | cons e rest ih =>
    rw [List.foldlM_cons, bind_eq_ok, List.forall_mem_cons, ← hone]
    exact ⟨fun ⟨⟨⟩, h, hrest⟩ => ⟨h, ih.mp hrest⟩, fun ⟨h, hrest⟩ => ⟨(), h, ih.mpr hrest⟩⟩

/-- A history is let through iff all recorded events are among the incoming ones, unchanged. -/
theorem rejectImmutableChanges_ok_iff {project taskId : String} {files : TaskDir} {recorded : List Request}
    (h : Ledger P project taskId files recorded) (hread : ∀ r ∈ recorded, ReadsBack P r) (dir : String)
    (request : Request) :
    rejectImmutableChanges P dir files (recorded.map (hashOf P)) request = .ok () ↔
      ∀ e ∈ recordedEvents recorded, (incomingOf P request).get? e.id = some (decisionText P e) := by
  simp only [rejectImmutableChanges, priorEvents_eq h hread, bind_eq_ok]
  constructor
  · rintro ⟨prior, hprior, hkept⟩ e he
    have hknown := (foldlM_recordPrior_ok hprior).2 e he
    exact foldlM_checkKept_ok_iff.mp hkept (e.id, decisionText P e) (prior.mem_entries_iff.mpr hknown)
  · intro hall
    obtain ⟨prior, hprior, hagree⟩ := foldlM_recordPrior_agrees hall
      (show ∀ id text, (∅ : SortedMap String String).get? id = some text → _ from fun _ _ h => nomatch h)
    refine ⟨prior, hprior, foldlM_checkKept_ok_iff.mpr fun e he => ?_⟩
    exact hagree e.1 e.2 (prior.mem_entries_iff.mp he)

/-- The ids of an admissible history are different, so its events are found by their ids. -/
theorem incomingOf_get?_iff {project taskId : String} {request : Request}
    (h : Admissible P project taskId request) {id text : String} :
    (incomingOf P request).get? id = some text ↔
      ∃ e ∈ request.events, e.id = id ∧ decisionText P e = text := by
  obtain ⟨positions, hvalid⟩ : ∃ positions, validate request = .ok positions := by
    have hscope := h.scope
    simp only [validateScope, bind_eq_ok, mapError_eq_ok] at hscope
    obtain ⟨positions, hvalid, -⟩ := hscope
    exact ⟨positions, hvalid⟩
  have hv := validated_of_ok hvalid
  have hunique : ∀ e ∈ request.events, ∀ e' ∈ request.events, e.id = e'.id → e = e' := by
    intro e he e' he' hid
    obtain ⟨i, hi⟩ := List.getElem?_of_mem he
    obtain ⟨j, hj⟩ := List.getElem?_of_mem he'
    have hij : i = j := by rw [← hv.position_eq hi, ← hv.position_eq hj, hid]
    subst hij
    exact Option.some.inj (hi.symm.trans hj)
  unfold incomingOf
  rw [SortedMap.get?_insertAll, SortedMap.get?_empty, Option.or_none]
  constructor
  · intro hget
    have hmem := Assoc.get?_some_mem hget
    rw [List.mem_reverse] at hmem
    obtain ⟨e, he, heq⟩ := List.mem_map.mp hmem
    obtain ⟨hid, htext⟩ := Prod.mk.inj heq
    exact ⟨e, he, hid, htext⟩
  · rintro ⟨e, he, rfl, rfl⟩
    have hmem : (e.id, decisionText P e) ∈ (request.events.map fun e => (e.id, decisionText P e)).reverse :=
      List.mem_reverse.mpr (List.mem_map_of_mem he)
    obtain ⟨text, htext⟩ := Option.isSome_iff_exists.mp
      (Assoc.get?_isSome_iff.mpr (List.mem_map_of_mem (f := Prod.fst) hmem))
    have hfound := Assoc.get?_some_mem htext
    rw [List.mem_reverse] at hfound
    obtain ⟨e', he', heq⟩ := List.mem_map.mp hfound
    obtain ⟨hid, rfl⟩ := Prod.mk.inj heq
    rw [htext, hunique e' he' e he hid]

end Innen.Middleware.History.Store
