import Innen.Common.Transition
import Innen.Harvest.Events

/-!
# Runs of the harvest

A file that a run handles is appended to the journal or reported as skipped, and only what was handled is named by the
cursor. So along any sequence of runs, of changes of the inbox and of losses of the cursor, no file is consumed that was
neither appended nor reported.
-/

namespace Innen.Harvest

open Innen.Common Innen.Credentials Innen.Journal

variable {T : Tools}

/-! ## The cursor -/

/-- What is stored in the cursor file starts and ends with a brace. -/
theorem toList_storedText (T : Tools) (stored : StoredCursor) :
    ∃ cs, (storedText T stored).toList = '\x7b' :: (cs ++ ['\x7d']) := by
  refine ⟨(Value.fieldsText T.floatText [("schema", .string stored.schema),
    ("consumed", .array (stored.consumed.elems.map .string))]).toList, ?_⟩
  rw [storedText, structText, String.toList_append, String.toList_append]
  rfl

theorem trim_storedText (T : Tools) (stored : StoredCursor) : trim (storedText T stored) = storedText T stored := by
  obtain ⟨cs, hcs⟩ := toList_storedText T stored
  exact trim_of_ends hcs (by decide) (by decide)

/-- A stored cursor is not read as the count of the older format. -/
theorem parseU64_storedText (T : Tools) (stored : StoredCursor) : parseU64 (storedText T stored) = none := by
  obtain ⟨cs, hcs⟩ := toList_storedText T stored
  have hplus : (storedText T stored).toList.head? ≠ some '+' := by
    rw [hcs, List.head?_cons]
    decide
  have hdigits : (storedText T stored).toList.all Char.isDigit = false := by
    rw [hcs, List.all_cons]
    rfl
  rw [parseU64, if_neg hplus, if_neg]
  rintro ⟨-, hall, -⟩
  exact absurd (hdigits.symm.trans hall) (by decide)

/-- The cursor that is stored is the cursor that is loaded. -/
theorem loadCursor_storeCursor (hT : T.Lawful) (consumed : SortedSet String) :
    loadCursor T (storeCursor T consumed) = .current consumed := by
  have hbytes : String.fromUTF8? (storedText T ⟨watermarkSchema, consumed⟩).toUTF8 =
      some (storedText T ⟨watermarkSchema, consumed⟩) := fromUTF8?_toByteArray _
  have hparse := hT ⟨watermarkSchema, consumed⟩
  simp only [loadCursor, storeCursor, hbytes, trim_storedText, parseU64_storedText]
  rw [hparse]
  exact if_pos rfl

theorem consumed_of_unknown {state : CursorState} (h : state.known = none) : state.consumed = ∅ := by
  rw [CursorState.consumed, h, Option.getD_none]

theorem mem_advance {state : CursorState} {handled : List String} {rel : String} :
    rel ∈ advance state handled ↔ rel ∈ handled ∨ rel ∈ state.consumed := SortedSet.mem_foldl_insert

/-! ## One file -/

section

variable {W : World} {inbox : Inbox} {i : ℕ} {rel : String} {rest : List String} {p : Progress} {bytes : ByteArray}

theorem ingestFrom_unreadable (hread : inbox.read rel = none) :
    ingestFrom T W inbox i (rel :: rest) p = ingestFrom T W inbox (i + 1) rest p := by
  simp only [ingestFrom, hread]

theorem ingestFrom_skip {pattern : String} (hread : inbox.read rel = some bytes)
    (hscan : (scanCredentials (fromUtf8Lossy bytes).toList).head? = some pattern) :
    ingestFrom T W inbox i (rel :: rest) p = ingestFrom T W inbox (i + 1) rest
      { p with
        skipped := p.skipped ++ [⟨rel, pattern, credentialPreview (fromUtf8Lossy bytes) pattern⟩]
        processed := p.processed ++ [rel] } := by
  simp only [ingestFrom, hread, hscan]

theorem ingestFrom_append (hread : inbox.read rel = some bytes)
    (hclean : scanCredentials (fromUtf8Lossy bytes).toList = []) (happend : W.appends i = true) :
    ingestFrom T W inbox i (rel :: rest) p = ingestFrom T W inbox (i + 1) rest
      { p with
        journal := p.journal ++ [fileEntry T rel bytes (W.observed i) (W.appended i)]
        added := p.added + 1
        processed := p.processed ++ [rel] } := by
  simp only [ingestFrom, hread, hclean, List.head?_nil, happend, if_true]

theorem ingestFrom_stop (hread : inbox.read rel = some bytes)
    (hclean : scanCredentials (fromUtf8Lossy bytes).toList = []) (hfail : W.appends i = false) :
    ingestFrom T W inbox i (rel :: rest) p = p := by
  simp only [ingestFrom, hread, hclean, List.head?_nil, hfail, Bool.false_eq_true, if_false]

end

/-- What a run does with a file that it can read: it reports a credential, or it appends the event of the file. -/
inductive Handles (T : Tools) (inbox : Inbox) : Progress → Progress → Prop
  | skip {p : Progress} {rel pattern : String} {bytes : ByteArray} (hread : inbox.read rel = some bytes)
      (hscan : pattern ∈ (scanCredentials (fromUtf8Lossy bytes).toList).head?) :
      Handles T inbox p { p with
        skipped := p.skipped ++ [⟨rel, pattern, credentialPreview (fromUtf8Lossy bytes) pattern⟩]
        processed := p.processed ++ [rel] }
  | append {p : Progress} {rel observed appended : String} {bytes : ByteArray} (hread : inbox.read rel = some bytes)
      (hclean : scanCredentials (fromUtf8Lossy bytes).toList = []) :
      Handles T inbox p { p with
        journal := p.journal ++ [fileEntry T rel bytes observed appended]
        added := p.added + 1
        processed := p.processed ++ [rel] }

/-- What the handling of one file keeps, the loop keeps. -/
theorem ingestFrom_invariant {W : World} {inbox : Inbox} {inv : Progress → Prop}
    (hstep : ∀ {p p'}, Handles T inbox p p' → inv p → inv p') (i : ℕ) (names : List String) {p : Progress} (hp : inv p) :
    inv (ingestFrom T W inbox i names p) := by
  induction names generalizing i p with
  | nil => exact hp
  | cons rel rest ih =>
    cases hread : inbox.read rel with
    | none =>
      rw [ingestFrom_unreadable hread]
      exact ih _ hp
    | some bytes =>
      cases hscan : (scanCredentials (fromUtf8Lossy bytes).toList).head? with
      | some pattern =>
        rw [ingestFrom_skip hread hscan]
        exact ih _ (hstep (.skip hread (Option.mem_def.mpr hscan)) hp)
      | none =>
        have hclean := List.head?_eq_none_iff.mp hscan
        cases happend : W.appends i with
        | false =>
          rw [ingestFrom_stop hread hclean happend]
          exact hp
        | true =>
          rw [ingestFrom_append hread hclean happend]
          exact ih _ (hstep (.append hread hclean) hp)

/-! ## One run -/

/-- A name has an event among the entries, or it is reported. -/
def Accounted (T : Tools) (entries : List JournalEntry) (reported : List String) (rel : String) : Prop :=
  (∃ bytes observed appended, fileEntry T rel bytes observed appended ∈ entries) ∨ rel ∈ reported

theorem Accounted.mono {entries entries' : List JournalEntry} {reported reported' : List String} {rel : String}
    (h : Accounted T entries reported rel) (hentries : entries ⊆ entries') (hreported : reported ⊆ reported') :
    Accounted T entries' reported' rel := by
  rcases h with ⟨bytes, observed, appended, hmem⟩ | hmem
  · exact .inl ⟨bytes, observed, appended, hentries hmem⟩
  · exact .inr (hreported hmem)

/-- The names that a run reports as skipped. -/
def IngestReport.paths (report : IngestReport) : List String := report.skipped.map Skipped.path

/-- The entries that a run appends. -/
def newEntries (T : Tools) (W : World) (s : Store) : List JournalEntry :=
  (run T W s).1.journal.drop s.journal.length

/-- The loop only appends, and what it handled is accounted for. -/
def Sound (T : Tools) (journal : List JournalEntry) (p : Progress) : Prop :=
  ∃ new, p.journal = journal ++ new ∧ ∀ rel ∈ p.processed, Accounted T new (p.skipped.map Skipped.path) rel

theorem Sound.handles {inbox : Inbox} {journal : List JournalEntry} {p p' : Progress} (h : Handles T inbox p p')
    (hp : Sound T journal p) : Sound T journal p' := by
  obtain ⟨new, hjournal, hprocessed⟩ := hp
  cases h with
  | @skip rel pattern bytes hread hscan =>
    refine ⟨new, hjournal, fun name hname => ?_⟩
    rw [List.map_append]
    rcases List.mem_append.mp hname with hname | hname
    · exact (hprocessed name hname).mono (List.Subset.refl new) (List.subset_append_left _ _)
    · obtain rfl := List.mem_singleton.mp hname
      exact .inr (List.mem_append_right _ List.mem_cons_self)
  | @append rel observed appended bytes hread hclean =>
    refine ⟨new ++ [fileEntry T rel bytes observed appended], ?_, fun name hname => ?_⟩
    · rw [hjournal, List.append_assoc]
    · rcases List.mem_append.mp hname with hname | hname
      · exact (hprocessed name hname).mono (List.subset_append_left _ _) (List.Subset.refl _)
      · obtain rfl := List.mem_singleton.mp hname
        exact .inl ⟨bytes, observed, appended, List.mem_append_right _ List.mem_cons_self⟩

/-- A run keeps the inbox and only appends to the journal. The cursor it leaves is the one it found, or names what that
one named and what the run accounts for. -/
theorem run_spec (T : Tools) (W : World) (s : Store) :
    (run T W s).1.inbox = s.inbox ∧ (run T W s).1.journal = s.journal ++ newEntries T W s ∧
      ((run T W s).1.cursorFile = s.cursorFile ∨
        ∃ handled, (run T W s).1.cursorFile = storeCursor T (advance (loadCursor T s.cursorFile) handled) ∧
          ∀ rel ∈ handled, Accounted T (newEntries T W s) (run T W s).2.paths rel) := by
  have hsound : Sound T s.journal
      (ingestFrom T W s.inbox 0 (unconsumed T s.inbox s.cursorFile).1 ⟨s.journal, 0, [], []⟩) :=
    ingestFrom_invariant Sound.handles 0 _
      ⟨[], (List.append_nil _).symm, fun rel hrel => absurd hrel List.not_mem_nil⟩
  obtain ⟨new, hjournal, hprocessed⟩ := hsound
  simp only [newEntries, run]
  split_ifs with hnothing hstores
  · exact ⟨rfl, by simp only [List.drop_length, List.append_nil], .inl rfl⟩
  · have hnew : (s.journal ++ new).drop s.journal.length = new := List.drop_left
    refine ⟨rfl, ?_, .inr ⟨_, rfl, ?_⟩⟩
    · rw [hjournal, hnew]
    · simpa only [hjournal, hnew, IngestReport.paths] using hprocessed
  · have hnew : (s.journal ++ new).drop s.journal.length = new := List.drop_left
    exact ⟨rfl, by rw [hjournal, hnew], .inl rfl⟩

/-! ## A run without failures -/

/-- The run would append the file. -/
def ingests (inbox : Inbox) (rel : String) : Bool :=
  (inbox.read rel).any fun bytes => decide (scanCredentials (fromUtf8Lossy bytes).toList = [])

/-- The run would report the file. -/
def skips (inbox : Inbox) (rel : String) : Bool :=
  (inbox.read rel).any fun bytes => !decide (scanCredentials (fromUtf8Lossy bytes).toList = [])

/-- An entry is the event of a file with its bytes. -/
def Records (T : Tools) (inbox : Inbox) (rel : String) (entry : JournalEntry) : Prop :=
  ∃ bytes observed appended, inbox.read rel = some bytes ∧ entry = fileEntry T rel bytes observed appended

/-- When every append succeeds, each file without a credential gets its event and each one with a credential is
reported, in this order. -/
theorem ingestFrom_all {W : World} {inbox : Inbox} (hW : ∀ i, W.appends i = true) (i : ℕ) (names : List String)
    (p : Progress) :
    ∃ new, (ingestFrom T W inbox i names p).journal = p.journal ++ new ∧
      List.Forall₂ (Records T inbox) (names.filter (ingests inbox)) new ∧
      (ingestFrom T W inbox i names p).skipped.map Skipped.path =
        p.skipped.map Skipped.path ++ names.filter (skips inbox) := by
  induction names generalizing i p with
  | nil => exact ⟨[], (List.append_nil _).symm, .nil, (List.append_nil _).symm⟩
  | cons rel rest ih =>
    cases hread : inbox.read rel with
    | none =>
      have hingests : ingests inbox rel = false := by rw [ingests, hread]; rfl
      have hskips : skips inbox rel = false := by rw [skips, hread]; rfl
      rw [ingestFrom_unreadable hread, List.filter_cons_of_neg (by simp [hingests]),
        List.filter_cons_of_neg (by simp [hskips])]
      exact ih _ _
    | some bytes =>
      cases hscan : (scanCredentials (fromUtf8Lossy bytes).toList).head? with
      | some pattern =>
        have hne : scanCredentials (fromUtf8Lossy bytes).toList ≠ [] := by
          rintro h
          rw [h] at hscan
          cases hscan
        have hingests : ingests inbox rel = false := by simp [ingests, hread, hne]
        have hskips : skips inbox rel = true := by simp [skips, hread, hne]
        rw [ingestFrom_skip hread hscan, List.filter_cons_of_neg (by simp [hingests]),
          List.filter_cons_of_pos hskips]
        obtain ⟨new, hjournal, hnew, hskipped⟩ := ih (i + 1)
          { p with
            skipped := p.skipped ++ [⟨rel, pattern, credentialPreview (fromUtf8Lossy bytes) pattern⟩]
            processed := p.processed ++ [rel] }
        refine ⟨new, hjournal, hnew, hskipped.trans ?_⟩
        rw [List.map_append, List.append_assoc]
        rfl
      | none =>
        have hclean := List.head?_eq_none_iff.mp hscan
        have hingests : ingests inbox rel = true := by simp [ingests, hread, hclean]
        have hskips : skips inbox rel = false := by simp [skips, hread, hclean]
        rw [ingestFrom_append hread hclean (hW i), List.filter_cons_of_pos hingests,
          List.filter_cons_of_neg (by simp [hskips])]
        obtain ⟨new, hjournal, hnew, hskipped⟩ := ih (i + 1)
          { p with
            journal := p.journal ++ [fileEntry T rel bytes (W.observed i) (W.appended i)]
            added := p.added + 1
            processed := p.processed ++ [rel] }
        refine ⟨fileEntry T rel bytes (W.observed i) (W.appended i) :: new, ?_,
          .cons ⟨bytes, _, _, hread, rfl⟩ hnew, hskipped⟩
        rw [hjournal, List.append_assoc]
        rfl

/-- The whole run without failures. -/
theorem run_all {W : World} (hopen : W.opens = true) (hW : ∀ i, W.appends i = true) (s : Store) :
    List.Forall₂ (Records T s.inbox) ((unconsumed T s.inbox s.cursorFile).1.filter (ingests s.inbox))
        (newEntries T W s) ∧
      (run T W s).2.paths = (unconsumed T s.inbox s.cursorFile).1.filter (skips s.inbox) := by
  obtain ⟨new, hjournal, hnew, hskipped⟩ := @ingestFrom_all T W s.inbox hW 0
    (unconsumed T s.inbox s.cursorFile).1 ⟨s.journal, 0, [], []⟩
  by_cases hnothing : (unconsumed T s.inbox s.cursorFile).1 = []
  · simp only [newEntries, run, hnothing, true_or, if_true, List.drop_length, List.filter_nil]
    exact ⟨.nil, rfl⟩
  · have hgo : ¬((unconsumed T s.inbox s.cursorFile).1 = [] ∨ W.opens = false) := by simp [hnothing, hopen]
    simp only [newEntries, run, if_neg hgo, hjournal, List.drop_left, IngestReport.paths]
    exact ⟨hnew, hskipped⟩

/-! ## Listing -/

/-- A Markdown file of the inbox whose name is a text, with its bytes. -/
def Inbox.Holds (inbox : Inbox) (rel : String) (bytes : ByteArray) : Prop :=
  ⟨rel.toUTF8, .file (some bytes)⟩ ∈ inbox.entries ∧ isMarkdown rel.toUTF8 = true

theorem Inbox.Holds.listed {inbox : Inbox} {rel : String} {bytes : ByteArray} (h : inbox.Holds rel bytes) :
    rel ∈ listInboxFiles inbox := by
  refine List.mem_mergeSort.mpr (List.mem_map.mpr ⟨_, List.mem_filter.mpr ⟨h.1, ?_⟩, ?_⟩)
  · exact Bool.and_eq_true_iff.mpr ⟨rfl, h.2⟩
  · exact fromUtf8Lossy_of_text (fromUTF8?_toByteArray rel)

/-- No other entry has its name, so it is the file that is read. -/
theorem Inbox.Holds.read {inbox : Inbox} {rel : String} {bytes : ByteArray} (h : inbox.Holds rel bytes) :
    inbox.read rel = some bytes := by
  have hfind : inbox.entries.find? (fun e => e.name = rel.toUTF8) = some ⟨rel.toUTF8, .file (some bytes)⟩ := by
    cases hfound : inbox.entries.find? (fun e => e.name = rel.toUTF8) with
    | none => exact absurd (List.find?_eq_none.mp hfound _ h.1) (by simp)
    | some e =>
      have hname : e.name = rel.toUTF8 := by simpa using List.find?_some hfound
      exact congrArg some (List.inj_on_of_nodup_map inbox.nodup (List.mem_of_find?_eq_some hfound) h.1 hname)
  rw [Inbox.read, hfind]

/-! ## Runs among other changes -/

/-- The store, with what the runs so far appended and reported. -/
structure System where
  store : Store
  harvested : List JournalEntry
  reported : List String

/-- What can happen: files come and go, the cursor is lost or replaced by one that names nothing, something else is
appended to the journal, and files are ingested. -/
inductive Action where
  | changeInbox (inbox : Inbox)
  | loseCursor (file : CursorFile)
  | appendOther (entry : JournalEntry)
  | ingest (W : World)

/-- One step. A cursor file that names files is only written by `run`. -/
def step (T : Tools) (s : System) : Action → Option System
  | .changeInbox inbox => some { s with store := { s.store with inbox := inbox } }
  | .loseCursor file =>
    match (loadCursor T file).known with
    | none => some { s with store := { s.store with cursorFile := file } }
    | some _ => none
  | .appendOther entry => some { s with store := { s.store with journal := s.store.journal ++ [entry] } }
  | .ingest W => some
      { store := (run T W s.store).1
        harvested := s.harvested ++ newEntries T W s.store
        reported := s.reported ++ (run T W s.store).2.paths }

/-- The names that the cursor counts as consumed. -/
def System.consumed (T : Tools) (s : System) : SortedSet String := (loadCursor T s.store.cursorFile).consumed

/-- Before the first run. -/
structure System.Fresh (T : Tools) (s : System) : Prop where
  cursor : (loadCursor T s.store.cursorFile).known = none
  harvested : s.harvested = []
  reported : s.reported = []

/-- What was appended is in the journal, and what is consumed was appended or reported. -/
structure System.Inv (T : Tools) (s : System) : Prop where
  appended : ∀ entry ∈ s.harvested, entry ∈ s.store.journal
  accounted : ∀ rel ∈ s.consumed T, Accounted T s.harvested s.reported rel

theorem System.Fresh.inv {s : System} (h : s.Fresh T) : s.Inv T where
  appended entry hentry := absurd (h.harvested ▸ hentry) List.not_mem_nil
  accounted rel hrel := by
    rw [System.consumed, consumed_of_unknown h.cursor] at hrel
    exact absurd hrel (SortedSet.not_mem_empty rel)

theorem System.Inv.ingest (hT : T.Lawful) {s : System} (h : s.Inv T) (W : World) :
    System.Inv T ⟨(run T W s.store).1, s.harvested ++ newEntries T W s.store,
      s.reported ++ (run T W s.store).2.paths⟩ := by
  obtain ⟨-, hjournal, hcursor⟩ := run_spec T W s.store
  constructor
  · intro entry hentry
    rw [hjournal]
    rcases List.mem_append.mp hentry with hold | hnew
    · exact List.mem_append_left _ (h.appended entry hold)
    · exact List.mem_append_right _ hnew
  · intro rel hrel
    have hold : ∀ name ∈ s.consumed T, Accounted T (s.harvested ++ newEntries T W s.store)
        (s.reported ++ (run T W s.store).2.paths) name := fun name hname =>
      (h.accounted name hname).mono (List.subset_append_left _ _) (List.subset_append_left _ _)
    rcases hcursor with hsame | ⟨handled, hstored, haccounted⟩
    · rw [System.consumed, hsame] at hrel
      exact hold rel hrel
    · rw [System.consumed, hstored, loadCursor_storeCursor hT] at hrel
      rcases mem_advance.mp hrel with hrel | hrel
      · exact (haccounted rel hrel).mono (List.subset_append_right _ _) (List.subset_append_right _ _)
      · exact hold rel hrel

theorem System.Inv.step (hT : T.Lawful) {s s' : System} {a : Action} (h : s.Inv T)
    (hstep : Harvest.step T s a = some s') : s'.Inv T := by
  cases a with
  | changeInbox inbox =>
    obtain rfl := Option.some.inj hstep
    exact ⟨h.appended, h.accounted⟩
  | loseCursor file =>
    cases hknown : (loadCursor T file).known with
    | some consumed => simp [Harvest.step, hknown] at hstep
    | none =>
      simp only [Harvest.step, hknown, Option.some.injEq] at hstep
      subst hstep
      refine ⟨h.appended, fun rel hrel => ?_⟩
      rw [System.consumed, consumed_of_unknown hknown] at hrel
      exact absurd hrel (SortedSet.not_mem_empty rel)
  | appendOther entry =>
    obtain rfl := Option.some.inj hstep
    exact ⟨fun e he => List.mem_append_left _ (h.appended e he), h.accounted⟩
  | ingest W =>
    obtain rfl := Option.some.inj hstep
    exact h.ingest hT W

theorem System.Fresh.reaches (hT : T.Lawful) {s s' : System} {actions : List Action} (h : s.Fresh T)
    (hrun : runActions (Harvest.step T) s actions = some s') : s'.Inv T :=
  (guardedRun_true_iff.mpr hrun).invariant (fun hinv _ hstep => hinv.step hT hstep) h.inv

/-- All goes well, and the clock stands still. -/
def calmWorld : World := ⟨true, fun _ => true, true, fun _ => "2026-01-01T00:00:00Z", fun _ => "2026-01-01T00:00:00Z"⟩

end Innen.Harvest
