import Innen.EvidenceClosure.Evaluation
import Innen.Journal.Table

/-!
# What a snapshot holds

A snapshot that succeeds has parsed every line. Its graph is the replay of the visible events, those of
the entries not later than the cutoff, and the rows filed under a node are the live walked rows with
that end point, in journal order.
-/

namespace Innen.EvidenceClosure

open Innen.Common Innen.Journal Innen.Graph

/-! ## From lines to entries -/

/-- The entries of numbered lines, when every line that is not blank parses. -/
def parseLines (P : Platform) : List (String × ℕ) → Option (List (ℕ × JournalEntry))
  | [] => some []
  | l :: rest =>
    if blank l.1 then parseLines P rest
    else
      match P.parseEntry l.1, parseLines P rest with
      | some e, some es => some ((l.2 + 1, e) :: es)
      | _, _ => none

/-- The numbered entries of a journal that parses. -/
def parseJournal (P : Platform) (raw : ByteArray) : Option (List (ℕ × JournalEntry)) :=
  (String.fromUTF8? raw).bind fun text => parseLines P (lines text).zipIdx

/-- Take in numbered entries one after the other. -/
def readEntries (P : Platform) (cutoff : String) (r : Reading) (es : List (ℕ × JournalEntry)) :
    Except SnapshotError Reading :=
  es.foldlM (fun r e => readEntry P cutoff r e.1 e.2) r

variable {P : Platform} {cutoff : String}

/-- Reading lines that parse is reading their entries. -/
theorem foldlM_readLine {ls : List (String × ℕ)} {es : List (ℕ × JournalEntry)}
    (h : parseLines P ls = some es) (r : Reading) :
    ls.foldlM (readLine P cutoff) r = readEntries P cutoff r es := by
  induction ls generalizing es r with
  | nil =>
    obtain rfl := Option.some.inj h
    rfl
  | cons l rest ih =>
    rw [parseLines] at h
    rw [List.foldlM_cons]
    split at h
    · rename_i hblank
      rw [readLine, if_pos hblank]
      exact ih h r
    · rename_i hblank
      split at h
      · rename_i e es' he hrest
        obtain rfl := Option.some.inj h
        simp only [readLine, if_neg hblank, he]
        rw [readEntries, List.foldlM_cons]
        exact bind_congr fun r' => ih hrest r'
      · cases h

/-- Lines that were all read did parse. -/
theorem parseLines_of_ok {ls : List (String × ℕ)} {r r' : Reading}
    (h : ls.foldlM (readLine P cutoff) r = .ok r') : ∃ es, parseLines P ls = some es := by
  induction ls generalizing r with
  | nil => exact ⟨[], rfl⟩
  | cons l rest ih =>
    rw [List.foldlM_cons, bind_eq_ok] at h
    obtain ⟨next, hnext, hrest⟩ := h
    obtain ⟨es, hes⟩ := ih hrest
    rw [parseLines]
    split
    · exact ⟨es, hes⟩
    · rename_i hblank
      rw [readLine, if_neg hblank] at hnext
      rcases hparse : P.parseEntry l.1 with _ | e <;> rw [hparse] at hnext
      · cases hnext
      · exact ⟨(l.2 + 1, e) :: es, by simp only [hes]⟩

/-- A snapshot that succeeds has parsed the journal and read its entries. -/
theorem snapshot_ok {raw : ByteArray} {s : Snapshot} (h : snapshot P cutoff raw = .ok s) :
    ∃ es r, parseJournal P raw = some es ∧ readEntries P cutoff ⟨[], ∅, ∅⟩ es = .ok r ∧
      s = r.snapshot cutoff (P.sha256Hex raw) := by
  unfold snapshot at h
  split at h
  · cases h
  · rename_i text htext
    rw [bind_eq_ok] at h
    obtain ⟨r, hr, hs⟩ := h
    obtain ⟨es, hes⟩ := parseLines_of_ok hr
    refine ⟨es, r, ?_, ?_, (Except.ok.inj hs).symm⟩
    · rw [parseJournal, htext]
      exact hes
    · rw [← foldlM_readLine hes, hr]

/-- The snapshot of a journal that parses. -/
theorem snapshot_of_parseJournal {raw : ByteArray} {es : List (ℕ × JournalEntry)}
    (h : parseJournal P raw = some es) :
    snapshot P cutoff raw = (readEntries P cutoff ⟨[], ∅, ∅⟩ es).map
      (·.snapshot cutoff (P.sha256Hex raw)) := by
  obtain ⟨text, htext, hes⟩ := Option.bind_eq_some_iff.mp h
  simp only [snapshot, htext]
  rw [foldlM_readLine hes]
  rcases readEntries P cutoff ⟨[], ∅, ∅⟩ es with e | r <;> rfl

/-! ## The visible events -/

/-- The payload of an entry as it is replayed. -/
def replayedPayload (e : JournalEntry) : Value :=
  if e.op = "edge.assert" ∨ e.op = "edge.retract" then normalizeKind e.payload.val else e.payload.val

/-- The event of an entry that is not later than the cutoff. -/
def visibleEvent (cutoff : String) (e : JournalEntry) : Option Value :=
  if cutoff < e.observedUtc then none else some (eventValue e.op (replayedPayload e) e.observedUtc)

/-- The events of a journal up to a cutoff. -/
def visibleEvents (P : Platform) (cutoff : String) (raw : ByteArray) : List Value :=
  ((parseJournal P raw).getD []).filterMap fun e => visibleEvent cutoff e.2

theorem edgePayload_ok {payload payload' : Value} (h : edgePayload payload = .ok payload') :
    payload' = normalizeKind payload := by
  simp only [edgePayload, bind_eq_ok] at h
  obtain ⟨_, -, _, -, h⟩ := h
  exact (Except.ok.inj h).symm

theorem readPayload_ok {e : JournalEntry} {payload : Value} (h : readPayload e = .ok payload) :
    payload = replayedPayload e := by
  unfold readPayload at h
  unfold replayedPayload
  split at h
  · rename_i hedge
    rw [if_pos hedge]
    exact edgePayload_ok h
  · rename_i hedge
    rw [if_neg hedge]
    exact (Except.ok.inj h).symm

/-- An entry adds its visible event. -/
theorem readEntry_values {r r' : Reading} {n : ℕ} {e : JournalEntry}
    (h : readEntry P cutoff r n e = .ok r') : r'.values = r.values ++ (visibleEvent cutoff e).toList := by
  unfold readEntry at h
  split at h
  · cases h
  · split at h
    · rename_i hlate
      obtain rfl := Except.ok.inj h
      simp [visibleEvent, hlate]
    · rename_i hlate
      simp only [readVisible, bind_eq_ok] at h
      obtain ⟨payload, hpayload, _, -, citations, -, h⟩ := h
      obtain rfl := Except.ok.inj h
      simp [visibleEvent, hlate, readPayload_ok hpayload]

theorem readEntries_values {r r' : Reading} {es : List (ℕ × JournalEntry)}
    (h : readEntries P cutoff r es = .ok r') :
    r'.values = r.values ++ es.filterMap fun e => visibleEvent cutoff e.2 := by
  induction es generalizing r with
  | nil =>
    obtain rfl := Except.ok.inj h
    simp
  | cons e rest ih =>
    rw [readEntries, List.foldlM_cons, bind_eq_ok] at h
    obtain ⟨next, hnext, hrest⟩ := h
    rw [ih hrest, readEntry_values hnext, List.filterMap_cons]
    cases visibleEvent cutoff e.2 <;> simp

/-- The graph of a snapshot is the replay of the visible events. -/
theorem snapshot_graph {raw : ByteArray} {s : Snapshot} (h : snapshot P cutoff raw = .ok s) :
    s.graph = materialize (visibleEvents P cutoff raw) (some cutoff) "" false := by
  obtain ⟨es, r, hes, hr, rfl⟩ := snapshot_ok h
  have hvalues := readEntries_values hr
  rw [List.nil_append] at hvalues
  rw [visibleEvents, hes, Option.getD_some, ← hvalues]
  rfl

/-- A row of a snapshot is a row of the visible events that is valid at the cutoff. -/
theorem mem_snapshot_edges {raw : ByteArray} {s : Snapshot} (h : snapshot P cutoff raw = .ok s)
    {e : StoredEdge} :
    e ∈ s.graph.edges ↔ e ∈ rowsOf (visibleEvents P cutoff raw) ∧ e.validAt cutoff = true := by
  rw [snapshot_graph h, ← replay_edges]
  simp [materialize]

/-! ## The filed rows -/

/-- A live walked row that is filed under `id`. -/
def filedAt (id : String) (e : StoredEdge) : Bool :=
  !e.retracted && ((e.edge.name = "DEPENDS_ON" ∧ e.from = id) ∨
    (e.edge.name = "CONTRADICTS" ∧ (e.from = id ∨ e.to = id)))

/-- The rows under a node. -/
def rowsUnder (m : SortedMap String (List StoredEdge)) (id : String) : List StoredEdge :=
  (m.get? id).getD []

theorem rowsUnder_fileRow (m : SortedMap String (List StoredEdge)) (id id' : String) (e : StoredEdge) :
    rowsUnder (fileRow m id' e) id = rowsUnder m id ++ if id = id' then [e] else [] := by
  unfold rowsUnder fileRow
  rw [SortedMap.get?_upsert]
  split
  · rename_i h
    subst h
    rfl
  · simp

theorem rowsUnder_addAdjacent (m : SortedMap String (List StoredEdge)) (id : String) (e : StoredEdge) :
    rowsUnder (addAdjacent m e) id = rowsUnder m id ++ if filedAt id e then [e] else [] := by
  unfold addAdjacent filedAt
  by_cases hr : e.retracted = true
  · simp [hr]
  have hkinds : ¬("DEPENDS_ON" = "CONTRADICTS") := by decide
  by_cases hd : e.edge.name = "DEPENDS_ON"
  · have hc : e.edge.name ≠ "CONTRADICTS" := hd ▸ hkinds
    simp [hr, hd, rowsUnder_fileRow, eq_comm]
  by_cases hc : e.edge.name = "CONTRADICTS"
  · by_cases hft : e.from = e.to
    · simp [hr, hc, hft, rowsUnder_fileRow, eq_comm]
    · by_cases h₁ : id = e.from
      · have h₂ : id ≠ e.to := h₁ ▸ hft
        simp [hr, hc, hft, rowsUnder_fileRow, h₁]
      · simp [hr, hc, hft, rowsUnder_fileRow, h₁, eq_comm]
  · simp [hr, hd, hc]

theorem rowsUnder_foldl (edges : List StoredEdge) (m : SortedMap String (List StoredEdge)) (id : String) :
    rowsUnder (edges.foldl addAdjacent m) id = rowsUnder m id ++ edges.filter (filedAt id) := by
  induction edges generalizing m with
  | nil => simp
  | cons e rest ih =>
    rw [List.foldl_cons, ih, rowsUnder_addAdjacent, List.append_assoc]
    congr 1
    by_cases h : filedAt id e = true <;> simp [h]

/-- The rows filed under a node of a snapshot, in journal order. -/
theorem rowsAt_snapshot {raw : ByteArray} {s : Snapshot} (h : snapshot P cutoff raw = .ok s) (id : String) :
    rowsAt s id = s.graph.edges.filter (filedAt id) := by
  obtain ⟨es, r, -, -, rfl⟩ := snapshot_ok h
  have hfold := rowsUnder_foldl (materialize r.values (some cutoff) "" false).edges ∅ id
  exact hfold

end Innen.EvidenceClosure
