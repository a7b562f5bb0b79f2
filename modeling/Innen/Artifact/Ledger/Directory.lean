import Innen.Artifact.Ledger.Files

/-!
# Directories with a ledger

A directory holds a ledger if its manifest and its log are what was printed (`Holds`). On such a directory an
operation does what it does to the state that is read: it is refused, it finds the ledger as it is, or it appends the
line of one entry and writes the projections (`Readable.course_writes`), which touch neither the manifest nor the log.
-/

namespace Innen.Ledger

open Innen.Common

/-! ## Laws of the parsers -/

/-- What is used of the parsers: they read what was printed, and a line is one value and all of it. -/
structure Codec.Lawful (C : Codec) : Prop where
  manifest_roundTrip : ∀ i, C.parseManifest (manifestText i).toByteArray = .ok ⟨magic, i⟩
  event_roundTrip : ∀ x, C.parseEvent (eventText x) = .ok x
  /-- The end of the line comes too early. -/
  event_cut : ∀ x l r, eventText x = l ++ r → r ≠ "" → ∃ e, C.parseEvent l = .error e
  /-- Trailing characters. -/
  event_trailing : ∀ x y, ∃ e, C.parseEvent (eventText x ++ eventText y) = .error e

variable {C : Codec} {H : String → String} {d d' : Files} {i : Identity} {xs : List FileEvent} {p : ℕ}

/-! ## Entries on lines -/

theorem oneLine_eventText (x : FileEvent) : OneLine (eventText x) := oneLine_structText (fun _ => by decide) _

theorem eventText_toList (x : FileEvent) : ∃ cs, (eventText x).toList = '\x7b' :: cs := by
  refine ⟨(Value.fieldsText (fun _ => "") x.fields).toList ++ ['\x7d'], ?_⟩
  have hopen : "\x7b".toList = ['\x7b'] := rfl
  have hclose : "\x7d".toList = ['\x7d'] := rfl
  rw [eventText, structText, String.toList_append, String.toList_append, List.append_assoc, hopen, hclose,
    List.singleton_append]

/-- A text that starts with a brace is not blank. -/
theorem blank_of_brace {s : String} {cs : List Char} (h : s.toList = '\x7b' :: cs) : blank s = false := by
  rw [blank, h]
  rfl

/-- The log of some entries. -/
def logText (xs : List FileEvent) : String := joinLines (xs.map eventText)

theorem logText_concat (xs : List FileEvent) (x : FileEvent) :
    logText (xs ++ [x]) = logText xs ++ (eventText x ++ "\n") := by
  rw [logText, List.map_append, joinLines, List.foldl_append, ← joinLines]
  simp [logText, String.append_assoc]

theorem lines_logText (xs : List FileEvent) : lines (logText xs) = xs.map eventText := by
  rw [logText, lines_joinLines]
  · refine (List.map_congr_left fun l hl => ?_).trans (List.map_id _)
    obtain ⟨x, -, rfl⟩ := List.mem_map.mp hl
    exact stripCr_of_getLast? (oneLine_eventText x).getLast?_ne
  · intro l hl
    obtain ⟨x, -, rfl⟩ := List.mem_map.mp hl
    exact (oneLine_eventText x).newline_not_mem

/-- Behind the lines of some entries, a text is read as it is read alone. -/
theorem readEvents_logText_append (hC : C.Lawful) (xs : List FileEvent) (rest : String) :
    readEvents C (logText xs ++ rest) = (readEvents C rest).map (xs ++ ·) := by
  have hread : (xs.map eventText).mapM (fun l => (C.parseEvent l).mapError LedgerError.invalid) = .ok xs := by
    induction xs with
    | nil => rfl
    | cons x xs ih =>
      rw [List.map_cons, List.mapM_cons, hC.event_roundTrip, ih]
      rfl
  have hkept : (xs.map eventText).filter (fun l => !blank l) = xs.map eventText := by
    refine List.filter_eq_self.mpr fun l hl => ?_
    obtain ⟨x, -, rfl⟩ := List.mem_map.mp hl
    obtain ⟨cs, hcs⟩ := eventText_toList x
    rw [blank_of_brace hcs]
    rfl
  rw [readEvents, lines_append (s := logText xs) (terminated_joinLines _), lines_logText, List.filter_append, hkept,
    List.mapM_append, hread, readEvents]
  cases List.mapM (fun l => (C.parseEvent l).mapError LedgerError.invalid)
    ((lines rest).filter fun l => !blank l) <;> rfl

theorem readEvents_logText (hC : C.Lawful) (xs : List FileEvent) : readEvents C (logText xs) = .ok xs := by
  have h := readEvents_logText_append hC xs ""
  rw [String.append_empty] at h
  rw [h]
  change Except.ok (xs ++ []) = _
  rw [List.append_nil]

/-- One line, whether or not a newline ends it. -/
theorem readEvents_line {l rest : String} {cs : List Char} (hbrace : l.toList = '\x7b' :: cs) (hl : OneLine l)
    (hrest : rest = "" ∨ rest = "\n") :
    readEvents C (l ++ rest) = ((C.parseEvent l).mapError .invalid).map ([·]) := by
  have hlines : lines (l ++ rest) = [l] := by
    rcases hrest with rfl | rfl
    · rw [String.append_empty, lines_of_not_mem hl.newline_not_mem]
      rintro rfl
      cases hbrace
    · rw [lines_newline hl.newline_not_mem, stripCr_of_getLast? hl.getLast?_ne]
  rw [readEvents, hlines, List.filter_cons_of_pos (by rw [blank_of_brace hbrace]; rfl), List.filter_nil,
    List.mapM_cons, List.mapM_nil]
  cases C.parseEvent l <;> rfl

/-! ## Directories with a ledger -/

/-- The directory holds a manifest and the lines of some entries. -/
structure Holds (d : Files) (i : Identity) (xs : List FileEvent) : Prop where
  manifest : d .manifest = some (manifestText i).toByteArray
  events : d .events = some (logText xs).toByteArray
  legacyIndex : d .legacyIndex = none

/-- The directory holds no file of a ledger, temporary ones apart. -/
structure Bare (d : Files) : Prop where
  manifest : d .manifest = none
  events : d .events = none
  index : d .index = none
  legacyIndex : d .legacyIndex = none
  timeline : d .timeline = none

/-- The state that a manifest and some entries stand for. -/
def stateOf (i : Identity) (xs : List FileEvent) : State :=
  ⟨i, xs.filterMap FileEvent.receipt, xs.filterMap FileEvent.event⟩

/-- Reading in terms of the text of the log. -/
theorem readState_text (hC : C.Lawful) (hmanifest : d .manifest = some (manifestText i).toByteArray) {content : String}
    (hevents : d .events = some content.toByteArray) :
    readState C d = (readEvents C content).map (stateOf i) := by
  simp only [readState, hmanifest, hevents, okOr_some, hC.manifest_roundTrip, fromUTF8?_toByteArray, Except.mapError,
    bind, Except.bind]
  cases readEvents C content <;> rfl

theorem Holds.readState (hC : C.Lawful) (h : Holds d i xs) : readState C d = .ok (stateOf i xs) := by
  rw [readState_text hC h.manifest h.events, readEvents_logText hC]
  rfl

theorem Bare.readState (h : Bare d) : readState C d = .error (.io C.notFound) := by
  rw [Ledger.readState, h.manifest]
  rfl

/-- A write of a projection: it leaves the manifest and the log alone. -/
def Write.Derived : Write → Prop
  | .create file _ => ∃ f pid, file = .temp f pid
  | .append _ _ => False
  | .rename file target => (∃ f pid, file = .temp f pid) ∧ (target = .index ∨ target = .timeline)

/-- What such writes keep. -/
structure SameLedger (d d' : Files) : Prop where
  manifest : d' .manifest = d .manifest
  events : d' .events = d .events
  legacyIndex : d' .legacyIndex = d .legacyIndex

theorem SameLedger.refl (d : Files) : SameLedger d d := ⟨rfl, rfl, rfl⟩

theorem SameLedger.trans {d'' : Files} (h : SameLedger d d') (h' : SameLedger d' d'') : SameLedger d d'' :=
  ⟨h'.manifest.trans h.manifest, h'.events.trans h.events, h'.legacyIndex.trans h.legacyIndex⟩

theorem SameLedger.holds (h : SameLedger d d') (hd : Holds d i xs) : Holds d' i xs :=
  ⟨h.manifest.trans hd.manifest, h.events.trans hd.events, h.legacyIndex.trans hd.legacyIndex⟩

theorem Write.Derived.sameLedger {w : Write} (h : w.Derived) (d : Files) : SameLedger d (w.perform d) := by
  cases w with
  | create file bytes =>
    obtain ⟨f, p, rfl⟩ := h
    exact ⟨rfl, rfl, rfl⟩
  | append file bytes => exact h.elim
  | rename file target =>
    obtain ⟨⟨f, p, rfl⟩, rfl | rfl⟩ := h
    · exact ⟨rfl, rfl, rfl⟩
    · exact ⟨rfl, rfl, rfl⟩

theorem Write.Derived.sameLedger_part {w : Write} (h : w.Derived) (n : ℕ) (d : Files) : SameLedger d (w.part n d) := by
  cases n with
  | zero => exact SameLedger.refl d
  | succ n =>
    cases w with
    | create file bytes => exact Write.Derived.sameLedger (w := .create file (bytes.extract 0 n)) h d
    | append file bytes => exact h.elim
    | rename file target => exact Write.Derived.sameLedger (w := .rename file target) h d

theorem sameLedger_performAll {ws : List Write} (h : ∀ w ∈ ws, w.Derived) (d : Files) :
    SameLedger d (performAll Write.perform d ws) :=
  performAll_invariant (SameLedger d) (fun w hw _ hd => hd.trans ((h w hw).sameLedger _)) (SameLedger.refl d)

theorem sameLedger_stopped {ws : List Write} (h : ∀ w ∈ ws, w.Derived) (d : Files) (k n : ℕ) :
    SameLedger d (stopped d ws k n) := by
  induction ws generalizing d k with
  | nil => exact SameLedger.refl d
  | cons w ws ih =>
    cases k with
    | zero => exact (h w List.mem_cons_self).sameLedger_part n d
    | succ k =>
      exact ((h w List.mem_cons_self).sameLedger d).trans (ih (fun w' hw' => h w' (List.mem_cons_of_mem w hw')) _ k)

/-! ## Projecting -/

/-- No temporary file of a process is in the way of its projections. -/
structure TempFree (d : Files) (pid : ℕ) : Prop where
  index : d (.temp .index pid) = none
  timeline : d (.temp .timeline pid) = none

theorem atomic_derived {file : LedgerFile} (hfile : file = .index ∨ file = .timeline) (bytes : ByteArray) :
    ∀ w ∈ (atomic C d p file bytes).writes, w.Derived := by
  intro w hw
  rw [atomic] at hw
  split_ifs at hw
  · cases hw
  · rcases List.mem_cons.mp hw with rfl | hw
    · exact ⟨_, _, rfl⟩
    · obtain rfl := List.mem_singleton.mp hw
      exact ⟨⟨_, _, rfl⟩, hfile⟩

theorem project_derived : ∀ w ∈ (project C d p .index).writes, w.Derived := by
  intro w hw
  rw [project] at hw
  split at hw
  · cases hw
  · rcases Course.mem_andThen hw with hw | ⟨-, hw⟩
    · exact atomic_derived (.inl rfl) _ w hw
    · exact atomic_derived (.inr rfl) _ w hw

theorem atomic_result {file : LedgerFile} {bytes : ByteArray} :
    (atomic C d p file bytes).result = .ok () ↔ d (.temp file p) = none := by
  rw [atomic]
  cases d (.temp file p) <;> simp [Course.plain]

/-- Projecting ends well iff the ledger is read and no temporary file is in the way. -/
theorem project_result :
    (project C d p .index).result = .ok () ↔ (∃ s, readState C d = .ok s) ∧ TempFree d p := by
  rw [project]
  split
  · rename_i e he
    simp [he, Course.plain]
  · rename_i s hs
    rw [Course.andThen_result, atomic_result, atomic_result]
    constructor
    · rintro ⟨hindex, htimeline⟩
      refine ⟨⟨s, hs⟩, hindex, ?_⟩
      rw [Course.done, atomic, if_neg (by simp [hindex])] at htimeline
      exact htimeline
    · rintro ⟨-, hindex, htimeline⟩
      refine ⟨hindex, ?_⟩
      rw [Course.done, atomic, if_neg (by simp [hindex])]
      exact htimeline

/-! ## Appending -/

/-- The write of an entry. -/
def appendWrite (x : FileEvent) : Write := .append .events (eventText x ++ "\n").toByteArray

theorem Holds.append (h : Holds d i xs) (x : FileEvent) : Holds ((appendWrite x).perform d) i (xs ++ [x]) where
  manifest := h.manifest
  events := by
    rw [appendWrite, Write.perform, Function.update_self, h.events, Option.getD_some, logText_concat,
      String.toByteArray_append (s := logText xs)]
  legacyIndex := h.legacyIndex

theorem appendLocked_writes {x : FileEvent} {log : ByteArray} (h : d .events = some log) :
    (appendLocked C d p .index x).writes =
      appendWrite x :: (project C ((appendWrite x).perform d) p .index).writes := by
  rw [appendLocked, h]
  rfl

theorem appendLocked_result {x : FileEvent} {log : ByteArray} (h : d .events = some log) :
    (appendLocked C d p .index x).result = .ok () ↔
      (project C ((appendWrite x).perform d) p .index).result = .ok () := by
  rw [appendLocked, h, Course.andThen_result, Course.mapError, mapError_eq_ok]
  exact ⟨And.right, fun h => ⟨rfl, h⟩⟩

/-! ## Requests -/

/-- The entry that a request appends, if it appends one. -/
def State.entry (sha256Hex : String → String) (s : State) : Request → Except LedgerError (Option FileEvent)
  | .init o => do
    s.reopen o
    .ok none
  | .add o file now => do
    let r ← newReceipt sha256Hex s o file now
    .ok (some r.entry)
  | .event x now => do
    let e ← newEvent s x now
    .ok (some e.entry)

/-- A ledger with one more entry. -/
def State.push (s : State) (y : Option FileEvent) : State :=
  { s with
    receipts := s.receipts ++ (y.bind FileEvent.receipt).toList
    events := s.events ++ (y.bind FileEvent.event).toList }

/-- An operation on a ledger appends its entry. -/
theorem perform_eq (s : State) (q : Request) : s.perform H q = (s.entry H q).map s.push := by
  cases q with
  | init o =>
    rw [State.perform, State.entry]
    cases s.reopen o with
    | error e => rfl
    | ok u => simp [State.push, bind, Except.bind, Except.map]
  | add o file now =>
    rw [State.perform, State.entry]
    cases newReceipt H s o file now with
    | error e => rfl
    | ok r => simp [State.push, bind, Except.bind, Except.map, Receipt.entry]
  | event x now =>
    rw [State.perform, State.entry]
    cases newEvent s x now with
    | error e => rfl
    | ok e => simp [State.push, bind, Except.bind, Except.map, EventRecord.entry]

theorem stateOf_append (i : Identity) (xs : List FileEvent) (x : FileEvent) :
    stateOf i (xs ++ [x]) = (stateOf i xs).push (some x) := by
  simp only [stateOf, State.push, List.filterMap_append, Option.bind_some]
  cases hr : x.receipt <;> cases he : x.event <;> simp [hr, he]

/-- What `add` checks before it reads the ledger is part of what it checks. -/
theorem checkAdd_of_newReceipt {s : State} {o : AddOptions} {file : FileAnswer} {now : String} {r : Receipt}
    (h : newReceipt H s o file now = .ok r) : checkAdd o file = .ok () := by
  simp only [newReceipt, bind_eq_ok, failIf_eq_ok] at h
  obtain ⟨_, howner, _, hrole, _, hrelation, path, hpath, inDownloads, hin, _, hdownloads, -⟩ := h
  simp only [checkAdd, bind_eq_ok, failIf_eq_ok]
  exact ⟨(), howner, (), hrole, (), hrelation, path, hpath, inDownloads, hin, hdownloads⟩

theorem indexFile_eq (h : d .legacyIndex = none) : indexFile d = .index := by
  rw [indexFile, h]
  split <;> rfl

/-- A directory whose ledger is read. -/
structure Readable (C : Codec) (d : Files) (s : State) : Prop where
  manifest : d .manifest = some (manifestText s.identity).toByteArray
  legacyIndex : d .legacyIndex = none
  read : readState C d = .ok s

theorem Holds.readable (hC : C.Lawful) (h : Holds d i xs) : Readable C d (stateOf i xs) :=
  ⟨h.manifest, h.legacyIndex, h.readState hC⟩

variable {s : State} {q : Request}

theorem Readable.log (h : Readable C d s) : ∃ log, d .events = some log := by
  have hread := h.read
  simp only [Ledger.readState, bind_eq_ok] at hread
  obtain ⟨manifest, -, p, -, log, hlog, -⟩ := hread
  cases hevents : d .events with
  | none =>
    rw [hevents] at hlog
    cases hlog
  | some log' => exact ⟨log', rfl⟩

theorem Readable.openManifest (hC : C.Lawful) (h : Readable C d s) {o : InitOptions} (ho : checkInit o = .ok ()) :
    course C H d p (.init o) = .plain (s.reopen o) := by
  have hopen : Ledger.openManifest C (manifestText s.identity).toByteArray o = s.reopen o := by
    rw [Ledger.openManifest, hC.manifest_roundTrip, State.reopen, ho]
    rfl
  rw [course, ho]
  dsimp only
  rw [h.manifest]
  dsimp only
  rw [hopen]

/-- Opening a ledger that exists checks its identity. -/
theorem Readable.course_init (hC : C.Lawful) (h : Readable C d s) (o : InitOptions) :
    course C H d p (.init o) = .plain (s.reopen o) := by
  cases ho : checkInit o with
  | ok u => exact h.openManifest hC ho
  | error e =>
    rw [course, State.reopen, ho]
    rfl

/-- A request that is refused writes nothing. -/
theorem Readable.course_error (hC : C.Lawful) (h : Readable C d s) {e : LedgerError}
    (he : s.entry H q = .error e) : ∃ e', course C H d p q = .plain (.error e') := by
  cases q with
  | init o =>
    rw [h.course_init hC]
    cases hr : s.reopen o with
    | error e' => exact ⟨e', rfl⟩
    | ok u =>
      rw [State.entry, hr] at he
      cases he
  | add o file now =>
    cases hr : newReceipt H s o file now with
    | ok r =>
      rw [State.entry, hr] at he
      cases he
    | error e' =>
      rw [course, h.read]
      cases checkAdd o file with
      | error e'' => exact ⟨e'', rfl⟩
      | ok u =>
        refine ⟨e', ?_⟩
        simp only [bind, Except.bind, hr]
  | event x now =>
    cases hr : newEvent s x now with
    | ok r =>
      rw [State.entry, hr] at he
      cases he
    | error e' =>
      refine ⟨e', ?_⟩
      rw [course, h.read]
      simp only [bind, Except.bind, hr]

/-- A request without an entry opens the ledger. -/
theorem Readable.course_none (hC : C.Lawful) (h : Readable C d s) (hq : s.entry H q = .ok none) :
    (∃ o, q = .init o) ∧ course C H d p q = .plain (.ok ()) := by
  cases q with
  | init o =>
    rw [h.course_init hC]
    simp only [State.entry, bind_eq_ok] at hq
    obtain ⟨_, hr, -⟩ := hq
    exact ⟨⟨o, rfl⟩, by rw [hr]⟩
  | add o file now =>
    simp only [State.entry, bind_eq_ok] at hq
    obtain ⟨r, -, hr⟩ := hq
    cases hr
  | event x now =>
    simp only [State.entry, bind_eq_ok] at hq
    obtain ⟨r, -, hr⟩ := hq
    cases hr

/-- A request with an entry appends it; an event is read back behind that. -/
theorem Readable.course_some (h : Readable C d s) {x : FileEvent} (hq : s.entry H q = .ok (some x)) :
    course C H d p q = appendLocked C d p .index x ∨ (∃ e : EventRecord, x = e.entry) ∧
      course C H d p q =
        (appendLocked C d p .index x).andThen Write.perform d fun d' => .plain (readBack C d') := by
  cases q with
  | init o =>
    simp only [State.entry, bind_eq_ok] at hq
    obtain ⟨_, -, hq⟩ := hq
    cases hq
  | add o file now =>
    simp only [State.entry, bind_eq_ok] at hq
    obtain ⟨r, hr, hx⟩ := hq
    obtain rfl := Option.some.inj (Except.ok.inj hx)
    refine .inl ?_
    rw [course, checkAdd_of_newReceipt hr, h.read]
    simp only [bind, Except.bind, hr, indexFile_eq h.legacyIndex]
  | event y now =>
    simp only [State.entry, bind_eq_ok] at hq
    obtain ⟨e, he, hx⟩ := hq
    obtain rfl := Option.some.inj (Except.ok.inj hx)
    refine .inr ⟨⟨e, rfl⟩, ?_⟩
    rw [course, h.read]
    simp only [bind, Except.bind, he, indexFile_eq h.legacyIndex]

/-- The writes of a request with an entry: its line, then the projections. -/
theorem Readable.course_writes (h : Readable C d s) {x : FileEvent} (hq : s.entry H q = .ok (some x)) :
    (course C H d p q).writes =
      appendWrite x :: (project C ((appendWrite x).perform d) p .index).writes := by
  obtain ⟨log, hlog⟩ := h.log
  rcases h.course_some hq with heq | ⟨-, heq⟩
  · rw [heq, appendLocked_writes hlog]
  · rw [heq, ← appendLocked_writes hlog, Course.andThen]
    cases (appendLocked C d p .index x).result with
    | error e => rfl
    | ok u => simp [Course.plain]

/-- It ends well only if the projections are written. -/
theorem Readable.project_of_result (h : Readable C d s) {x : FileEvent} (hq : s.entry H q = .ok (some x))
    (hok : (course C H d p q).result = .ok ()) :
    (project C ((appendWrite x).perform d) p .index).result = .ok () := by
  obtain ⟨log, hlog⟩ := h.log
  rcases h.course_some hq with heq | ⟨-, heq⟩
  · rwa [heq, appendLocked_result hlog] at hok
  · rw [heq, Course.andThen_result, appendLocked_result hlog] at hok
    exact hok.1

theorem tempFree_append (x : FileEvent) : TempFree ((appendWrite x).perform d) p ↔ TempFree d p :=
  ⟨fun h => ⟨h.index, h.timeline⟩, fun h => ⟨h.index, h.timeline⟩⟩

/-- What a request with an entry leaves. -/
theorem Holds.done (hC : C.Lawful) (h : Holds d i xs) {x : FileEvent}
    (hq : (stateOf i xs).entry H q = .ok (some x)) :
    Holds ((course C H d p q).done Write.perform d) i (xs ++ [x]) := by
  rw [Course.done, (h.readable hC).course_writes hq]
  exact (sameLedger_performAll project_derived _).holds (h.append x)

/-- Where the lines are whole, it ends well iff no temporary file is in the way. -/
theorem Holds.course_result (hC : C.Lawful) (h : Holds d i xs) {x : FileEvent}
    (hq : (stateOf i xs).entry H q = .ok (some x)) :
    (course C H d p q).result = .ok () ↔ TempFree d p := by
  have hproject : (project C ((appendWrite x).perform d) p .index).result = .ok () ↔ TempFree d p := by
    rw [project_result, tempFree_append, (h.append x).readState hC]
    exact ⟨And.right, fun htemp => ⟨⟨_, rfl⟩, htemp⟩⟩
  constructor
  · exact fun hok => hproject.mp ((h.readable hC).project_of_result hq hok)
  · intro htemp
    have happend := (appendLocked_result h.events).mpr (hproject.mpr htemp)
    rcases (h.readable hC).course_some (p := p) hq with heq | ⟨⟨e, rfl⟩, heq⟩
    · rw [heq, happend]
    · rw [heq, Course.andThen_result]
      refine ⟨happend, ?_⟩
      have hdone : Holds ((appendLocked C d p .index e.entry).done Write.perform d) i (xs ++ [e.entry]) := by
        rw [Course.done, appendLocked_writes h.events]
        exact (sameLedger_performAll project_derived _).holds (h.append e.entry)
      rw [Course.plain, readBack, hdone.readState hC]
      simp [stateOf, EventRecord.entry, bind, Except.bind]

/-- An operation that ends well leaves the ledger that the request makes of the one that was read. -/
theorem Holds.readState_done (hC : C.Lawful) (h : Holds d i xs) (hok : (course C H d p q).result = .ok ()) :
    Ledger.readState C ((course C H d p q).done Write.perform d) = .ok ((stateOf i xs).after H q) := by
  have hread := h.readable hC
  rw [State.after, perform_eq]
  cases hq : (stateOf i xs).entry H q with
  | error e =>
    obtain ⟨e', he'⟩ := hread.course_error (p := p) hC hq
    rw [he'] at hok
    cases hok
  | ok y =>
    cases y with
    | none =>
      rw [(hread.course_none hC hq).2]
      refine hread.read.trans ?_
      simp [Except.map, State.push]
    | some x =>
      rw [(h.done hC hq).readState hC, stateOf_append]
      rfl

/-! ## A new ledger -/

/-- The ledger that `init` creates. -/
def InitOptions.identity (o : InitOptions) : Identity := ⟨o.projectId, o.title, o.categories⟩

/-- The writes before the projections of a new ledger. -/
def createWrites (o : InitOptions) : List Write :=
  [.create .manifest (manifestText o.identity).toByteArray, .create .events .empty]

theorem Bare.created (h : Bare d) (o : InitOptions) : Holds (performAll Write.perform d (createWrites o)) o.identity [] where
  manifest := rfl
  events := rfl
  legacyIndex := h.legacyIndex

theorem Bare.course_init (h : Bare d) {o : InitOptions} (ho : checkInit o = .ok ()) :
    course C H d p (.init o) =
      (⟨createWrites o, .ok ()⟩ : LedgerCourse).andThen Write.perform d fun d' => project C d' p .index := by
  rw [course, ho]
  dsimp only
  rw [h.manifest]
  dsimp only
  rw [createLedger, if_neg (by simp [h.timeline, h.index, h.legacyIndex, h.events])]
  rfl

/-- Without a ledger there is nothing to do but to create one. -/
theorem Bare.course_cases (h : Bare d) (q : Request) :
    (∃ e, course C H d p q = .plain (.error e)) ∨ ∃ o, q = .init o ∧ checkInit o = .ok () := by
  cases q with
  | init o =>
    cases ho : checkInit o with
    | error e =>
      refine .inl ⟨e, ?_⟩
      rw [course, ho]
    | ok u => exact .inr ⟨o, rfl, ho⟩
  | add o file now =>
    refine .inl ?_
    rw [course, h.readState]
    cases checkAdd o file with
    | error e => exact ⟨e, rfl⟩
    | ok u => exact ⟨_, rfl⟩
  | event x now =>
    refine .inl ⟨.io C.notFound, ?_⟩
    rw [course, h.readState]
    rfl

theorem create_writes (o : InitOptions) :
    ((⟨createWrites o, .ok ()⟩ : LedgerCourse).andThen Write.perform d fun d' => project C d' p .index).writes =
      createWrites o ++ (project C (performAll Write.perform d (createWrites o)) p .index).writes := rfl

theorem Bare.create_result (hC : C.Lawful) (h : Bare d) (o : InitOptions) :
    ((⟨createWrites o, .ok ()⟩ : LedgerCourse).andThen Write.perform d fun d' => project C d' p .index).result = .ok () ↔
      TempFree d p := by
  rw [Course.andThen_result, project_result, Course.done, (h.created o).readState hC]
  exact ⟨fun hok => ⟨hok.2.2.index, hok.2.2.timeline⟩, fun htemp => ⟨rfl, ⟨_, rfl⟩, htemp.index, htemp.timeline⟩⟩

theorem Bare.create_done (h : Bare d) (o : InitOptions) :
    Holds (((⟨createWrites o, .ok ()⟩ : LedgerCourse).andThen Write.perform d fun d' => project C d' p .index).done Write.perform d) o.identity [] := by
  rw [Course.done, create_writes, performAll, List.foldl_append, ← performAll, ← performAll]
  exact (sameLedger_performAll project_derived _).holds (h.created o)

end Innen.Ledger
