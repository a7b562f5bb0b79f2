import Innen.Common.ByteLines
import Innen.Common.Except
import Innen.Conversation.Page

/-!
# One-pass, bounded scanning of a session

A session file is scanned line by line out of a buffer that is filled again and again, until a limit on the bytes or on
the records is met. A line that is too long is counted and left out, every other one is projected to the dialogue.

What the scan returns depends on the bytes of the file alone, not on how they come into the buffer: it is what the longest
prefix of the file within both limits gives (`scanJsonl_longest`).
-/

namespace Innen.Conversation.Scan

open Common

/-! ## The reader -/

/-- A buffered reader: the pieces of the file that fill the buffer one after the other, of which only the end of the file
gives an empty one. -/
structure Reader where
  chunks : List (List UInt8)
  nonempty : ∀ c ∈ chunks, c ≠ []

/-- The bytes that are still to be read. -/
def Reader.content (r : Reader) : List UInt8 := r.chunks.flatten

/-- `fill_buf`: what is in the buffer, nothing at the end of the file. -/
def Reader.fillBuf (r : Reader) : List UInt8 := r.chunks.headD []

/-- Take bytes off the first piece. -/
def dropBytes (n : ℕ) : List (List UInt8) → List (List UInt8)
  | [] => []
  | c :: rest => if c.drop n = [] then rest else c.drop n :: rest

theorem ne_nil_of_mem_dropBytes {n : ℕ} {chunks : List (List UInt8)} (h : ∀ c ∈ chunks, c ≠ []) :
    ∀ c ∈ dropBytes n chunks, c ≠ [] := by
  intro c hc
  cases chunks with
  | nil => exact absurd hc List.not_mem_nil
  | cons d rest =>
    rw [dropBytes] at hc
    split_ifs at hc with hempty
    · exact h c (List.mem_cons_of_mem d hc)
    · rcases List.mem_cons.mp hc with rfl | hc
      · exact hempty
      · exact h c (List.mem_cons_of_mem d hc)

/-- `consume`: the bytes are taken off the buffer. -/
def Reader.consume (r : Reader) (n : ℕ) : Reader := ⟨dropBytes n r.chunks, ne_nil_of_mem_dropBytes r.nonempty⟩

theorem Reader.fillBuf_eq_nil_iff {r : Reader} : r.fillBuf = [] ↔ r.content = [] := by
  obtain ⟨chunks, hne⟩ := r
  cases chunks with
  | nil => exact iff_of_true rfl rfl
  | cons c rest =>
    have hc := hne c List.mem_cons_self
    refine iff_of_false hc fun h => hc ?_
    exact (List.append_eq_nil_iff.mp (show c ++ rest.flatten = [] from h)).1

/-- What is taken off the buffer is the beginning of what is to be read. -/
theorem Reader.content_consume {r : Reader} {n : ℕ} (h : n ≤ r.fillBuf.length) :
    r.content = r.fillBuf.take n ++ (r.consume n).content := by
  obtain ⟨chunks, hne⟩ := r
  cases chunks with
  | nil =>
    obtain rfl := Nat.le_zero.mp h
    rfl
  | cons c rest =>
    have hsplit := List.take_append_drop n c
    unfold consume content fillBuf
    simp only [dropBytes, List.headD_cons, List.flatten_cons]
    split_ifs with hempty
    · rw [hempty, List.append_nil] at hsplit
      rw [hsplit]
    · rw [List.flatten_cons, ← List.append_assoc, hsplit]

/-! ## Lines -/

/-- What lines are read with. -/
structure Platform where
  sourcePath : String
  /-- `serde_json::from_str`, with the text of its error. -/
  parse : String → Except String Value
  /-- `projection::dialogue` of the source. -/
  dialogue : Value → Except ReadError (Option Value)

/-- How long a line may be. -/
def maxLineBytes : ℕ := 1024 * 1024

structure ScanLimits where
  maxBytes : ℕ
  maxRecords : ℕ

/-- The result of a scan, with the bytes that were hashed. -/
structure ScanResult where
  records : List Record
  bytesRead : ℕ
  recordsScanned : ℕ
  complete : Bool
  projectionIncomplete : Bool
  warnings : List String
  hashed : List UInt8
deriving DecidableEq

/-- The result before the first byte. -/
def ScanResult.empty : ScanResult := ⟨[], 0, 0, false, false, [], []⟩

/-- Count and hash bytes. -/
def ScanResult.read (result : ScanResult) (bytes : List UInt8) : ScanResult :=
  { result with bytesRead := result.bytesRead + bytes.length, hashed := result.hashed ++ bytes }

/-- The file is scanned to its end. -/
def ScanResult.finished (result : ScanResult) : ScanResult := { result with complete := true }

/-- The scan stops before the end of the file. -/
def ScanResult.stopped (result : ScanResult) (warning : String) : ScanResult :=
  { result with complete := false, warnings := result.warnings ++ [warning] }

/-- `strip_suffix` of one byte, if it is there. -/
def stripByte (b : UInt8) (bytes : List UInt8) : List UInt8 := if bytes.getLast? = some b then bytes.dropLast else bytes

/-- `accept_event`, for an event that is not counted. -/
def acceptEvent (X : Platform) (result : ScanResult) (lineNumber : ℕ) (event : Value) : Except ReadError ScanResult :=
  if event.asObject? = none then
    .error ⟨"unsupported transcript event at " ++ X.sourcePath ++ ":" ++ toString lineNumber ++ ": expected object"⟩
  else do
    let shown ← X.dialogue event
    .ok (match shown with
      | some event => { result with records := result.records ++ [⟨lineNumber, event⟩] }
      | none => result)

/-- What is said of a line that is too long. -/
def oversizedWarning (lineNumber : ℕ) : String :=
  "omitted oversized source line " ++ toString lineNumber ++ " from dialogue projection; line exceeds " ++
    toString maxLineBytes ++ " bytes"

/-- `accept_line`. -/
def acceptLine (X : Platform) (result : ScanResult) (lineNumber : ℕ) (bytes : List UInt8) (oversized : Bool) :
    Except ReadError ScanResult :=
  let result := { result with recordsScanned := result.recordsScanned + 1 }
  if oversized then
    .ok { result with projectionIncomplete := true, warnings := result.warnings ++ [oversizedWarning lineNumber] }
  else
    match String.fromUTF8? ⟨(stripByte 13 (stripByte 10 bytes)).toArray⟩ with
    | none => .error ⟨"invalid UTF-8 in transcript at " ++ X.sourcePath ++ ":" ++ toString lineNumber⟩
    | some text =>
      if blank text then .ok result
      else
        match X.parse text with
        | .error e =>
          .error ⟨"invalid transcript JSON at " ++ X.sourcePath ++ ":" ++ toString lineNumber ++ ": " ++ e⟩
        | .ok event => acceptEvent X result lineNumber event

/-! ## The loop -/

/-- What is said of a scan that stops at a limit. -/
def stoppedAt (limit : String) (n : ℕ) : String := "scan stopped at " ++ limit ++ "=" ++ toString n

/-- The bytes of the buffer up to a newline, and whether there is one. -/
def untilNewline : List UInt8 → List UInt8 × Bool
  | [] => ([], false)
  | b :: rest => if b = 10 then ([b], true) else (b :: (untilNewline rest).1, (untilNewline rest).2)

/-- A line that grows: what is kept of it, and whether it has become too long. -/
def extendLine (line : List UInt8) (oversized : Bool) (chunk : List UInt8) : List UInt8 × Bool :=
  if oversized then (line, true)
  else if maxLineBytes < line.length + chunk.length then ([], true)
  else (line ++ chunk, false)

theorem untilNewline_ne_nil {bytes : List UInt8} (h : bytes ≠ []) : (untilNewline bytes).1 ≠ [] := by
  cases bytes with
  | nil => exact absurd rfl h
  | cons b rest =>
    rw [untilNewline]
    split_ifs <;> exact List.cons_ne_nil _ _

/-- At the end of the file a line without a newline is accepted, if anything was read of it. -/
def acceptLast (X : Platform) (result : ScanResult) (lineNumber : ℕ) (line : List UInt8) (oversized : Bool) :
    Except ReadError ScanResult :=
  (if line ≠ [] ∨ oversized then acceptLine X result (lineNumber + 1) line oversized else .ok result).map
    ScanResult.finished

/-- The loop of `scan_jsonl`; `room` is how many bytes may still be read. -/
def scanLoop (X : Platform) (limits : ScanLimits) (result : ScanResult) (line : List UInt8) (oversized : Bool)
    (lineNumber : ℕ) (reader : Reader) (room : ℕ) : Except ReadError ScanResult :=
  if result.recordsScanned = limits.maxRecords then
    if reader.fillBuf = [] then .ok result.finished else .ok (result.stopped (stoppedAt "max_records" limits.maxRecords))
  else if _hroom : room = 0 then
    if reader.fillBuf = [] then acceptLast X result lineNumber line oversized
    else .ok (result.stopped (stoppedAt "max_bytes" limits.maxBytes))
  else if _hbuf : reader.fillBuf = [] then acceptLast X result lineNumber line oversized
  else
    let chunk := (untilNewline (reader.fillBuf.take room)).1
    let grown := extendLine line oversized chunk
    let result := result.read chunk
    if (untilNewline (reader.fillBuf.take room)).2 then do
      let result ← acceptLine X result (lineNumber + 1) grown.1 grown.2
      scanLoop X limits result [] false (lineNumber + 1) (reader.consume chunk.length) (room - chunk.length)
    else scanLoop X limits result grown.1 grown.2 lineNumber (reader.consume chunk.length) (room - chunk.length)
termination_by room
decreasing_by
  all_goals
    have hne : (untilNewline (reader.fillBuf.take room)).1 ≠ [] :=
      untilNewline_ne_nil fun h => (List.take_eq_nil_iff.mp h).elim _hroom _hbuf
    have hpos := List.length_pos_iff.mpr hne
    omega

/-- `scan_jsonl`. -/
def scanJsonl (X : Platform) (limits : ScanLimits) (reader : Reader) : Except ReadError ScanResult :=
  scanLoop X limits .empty [] false 0 reader limits.maxBytes

/-! ## What a prefix gives -/

/-- Whether a line is too long. -/
def tooLong (line : List UInt8) : Bool := decide (maxLineBytes < line.length)

/-- What a line gives: nothing when it is too long, blank or not shown. -/
def projectLine (X : Platform) (lineNumber : ℕ) (line : List UInt8) : Except ReadError (Option Record) :=
  if tooLong line then .ok none
  else
    match String.fromUTF8? ⟨(stripByte 13 (stripByte 10 line)).toArray⟩ with
    | none => .error ⟨"invalid UTF-8 in transcript at " ++ X.sourcePath ++ ":" ++ toString lineNumber⟩
    | some text =>
      if blank text then .ok none
      else
        match X.parse text with
        | .error e =>
          .error ⟨"invalid transcript JSON at " ++ X.sourcePath ++ ":" ++ toString lineNumber ++ ": " ++ e⟩
        | .ok event =>
          if event.asObject? = none then
            .error ⟨"unsupported transcript event at " ++ X.sourcePath ++ ":" ++ toString lineNumber ++ ": expected object"⟩
          else (X.dialogue event).map (Option.map (Record.mk lineNumber))

/-- The result with one more line. -/
def ScanResult.took (result : ScanResult) (lineNumber : ℕ) (line : List UInt8) (row : Option Record) : ScanResult where
  records := result.records ++ row.toList
  bytesRead := result.bytesRead + line.length
  recordsScanned := result.recordsScanned + 1
  complete := result.complete
  projectionIncomplete := result.projectionIncomplete || tooLong line
  warnings := result.warnings ++ if tooLong line then [oversizedWarning lineNumber] else []
  hashed := result.hashed ++ line

/-- Take lines in, one after the other, from a line number on. -/
def takeLines (X : Platform) (result : ScanResult) (lineNumber : ℕ) : List (List UInt8) → Except ReadError ScanResult
  | [] => .ok result
  | line :: rest => do
    let row ← projectLine X (lineNumber + 1) line
    takeLines X (result.took (lineNumber + 1) line row) (lineNumber + 1) rest

/-- The lines of a prefix of a file that are complete: those that end, and the last one when the prefix is the file. -/
def completeLines (content consumed : List UInt8) : List (List UInt8) :=
  if consumed = content then splitBytes consumed else (splitBytes consumed).filter fun line => line.getLast? = some 10

/-- What is left of a prefix behind its complete lines. -/
def begun (content consumed : List UInt8) : List UInt8 :=
  consumed.drop (completeLines content consumed).flatten.length

/-- The end of a scan that consumed a prefix: nothing more when it is the file, else the limit that is met. -/
def ScanResult.ended (limits : ScanLimits) (content consumed : List UInt8) (result : ScanResult) : ScanResult :=
  if consumed = content then result.finished
  else if result.recordsScanned = limits.maxRecords then result.stopped (stoppedAt "max_records" limits.maxRecords)
  else result.stopped (stoppedAt "max_bytes" limits.maxBytes)

/-- The result of a file of which a prefix is consumed: its complete lines are taken in, and the bytes of a line that is only
begun counted and hashed. -/
def resultOf (X : Platform) (limits : ScanLimits) (result : ScanResult) (lineNumber : ℕ) (content consumed : List UInt8) :
    Except ReadError ScanResult :=
  (takeLines X result lineNumber (completeLines content consumed)).map fun taken =>
    (taken.read (begun content consumed)).ended limits content consumed

/-- The bytes of so many lines, up to so many bytes. -/
def within (records room : ℕ) (content : List UInt8) : List UInt8 := ((splitBytes content).take records).flatten.take room

/-! ## Lines and their ends -/

/-- A line with its end. -/
def Ended (line : List UInt8) : Prop := ∃ front, line = front ++ [10] ∧ 10 ∉ front

theorem splitBytes_ended {line : List UInt8} (h : Ended line) (rest : List UInt8) :
    splitBytes (line ++ rest) = line :: splitBytes rest := by
  obtain ⟨front, rfl, hfront⟩ := h
  induction front with
  | nil => rfl
  | cons b front ih =>
    obtain ⟨hb, hfront⟩ := not_or.mp (List.mem_cons.not.mp hfront)
    rw [List.cons_append, List.cons_append, splitBytes, if_neg (fun heq => hb heq.symm), ih hfront]

/-- The bytes up to a newline are a line with its end, or all of them. -/
theorem untilNewline_spec (bytes : List UInt8) : ∃ rest, bytes = (untilNewline bytes).1 ++ rest ∧
    (((untilNewline bytes).2 = true ∧ Ended (untilNewline bytes).1) ∨
      ((untilNewline bytes).2 = false ∧ rest = [] ∧ 10 ∉ (untilNewline bytes).1)) := by
  induction bytes with
  | nil => exact ⟨[], rfl, .inr ⟨rfl, rfl, List.not_mem_nil⟩⟩
  | cons b bytes ih =>
    rw [untilNewline]
    split_ifs with hb
    · exact ⟨bytes, rfl, .inl ⟨rfl, [], by rw [hb]; rfl, List.not_mem_nil⟩⟩
    · obtain ⟨rest, hbytes, hcase⟩ := ih
      refine ⟨rest, congrArg (b :: ·) hbytes, hcase.imp ?_ ?_⟩
      · rintro ⟨htrue, front, hfront, hnone⟩
        refine ⟨htrue, b :: front, ?_, fun hmem => ?_⟩
        · rw [hfront]
          rfl
        · exact (List.mem_cons.mp hmem).elim (fun heq => hb heq.symm) hnone
      · rintro ⟨hfalse, hrest, hnone⟩
        exact ⟨hfalse, hrest, fun hmem => (List.mem_cons.mp hmem).elim (fun heq => hb heq.symm) hnone⟩

/-- What a step of the loop takes off the buffer. -/
theorem Reader.consume_chunk (reader : Reader) {room : ℕ} (hbuf : reader.fillBuf ≠ []) (hroom : room ≠ 0) :
    reader.content = (untilNewline (reader.fillBuf.take room)).1 ++
        (reader.consume (untilNewline (reader.fillBuf.take room)).1.length).content ∧
      (0 < (untilNewline (reader.fillBuf.take room)).1.length ∧
        (untilNewline (reader.fillBuf.take room)).1.length ≤ room) ∧
      (((untilNewline (reader.fillBuf.take room)).2 = true ∧ Ended (untilNewline (reader.fillBuf.take room)).1) ∨
        ((untilNewline (reader.fillBuf.take room)).2 = false ∧ 10 ∉ (untilNewline (reader.fillBuf.take room)).1)) := by
  have hne : (untilNewline (reader.fillBuf.take room)).1 ≠ [] :=
    untilNewline_ne_nil fun h => (List.take_eq_nil_iff.mp h).elim hroom hbuf
  obtain ⟨rest, htake, hcase⟩ := untilNewline_spec (reader.fillBuf.take room)
  generalize untilNewline (reader.fillBuf.take room) = taken at hne htake hcase ⊢
  obtain ⟨chunk, newline⟩ := taken
  dsimp only at hne htake hcase ⊢
  have hlength : chunk.length ≤ (reader.fillBuf.take room).length := by
    rw [htake, List.length_append]
    exact Nat.le_add_right _ _
  rw [List.length_take] at hlength
  have hchunk : reader.fillBuf.take chunk.length = chunk := by
    have hboth := congrArg (List.take chunk.length) htake
    rwa [List.take_take, min_eq_left (by omega), List.take_left] at hboth
  refine ⟨?_, ⟨List.length_pos_iff.mpr hne, by omega⟩, hcase.imp_right fun h => ⟨h.1, h.2.2⟩⟩
  have hcontent := reader.content_consume (n := chunk.length) (by omega)
  rwa [hchunk] at hcontent

theorem filter_ended_of_not_mem {part : List UInt8} (h : 10 ∉ part) :
    (splitBytes part).filter (fun line => line.getLast? = some 10) = [] := by
  by_cases hnil : part = []
  · rw [hnil]
    rfl
  · rw [splitBytes_eq_singleton h hnil]
    refine List.filter_eq_nil_iff.mpr fun line hline hlast => ?_
    rw [List.mem_singleton.mp hline] at hlast
    exact h (List.mem_of_getLast? (of_decide_eq_true hlast))

theorem filter_ended_cons {line : List UInt8} (h : Ended line) (rest : List UInt8) :
    (splitBytes (line ++ rest)).filter (fun line => line.getLast? = some 10) =
      line :: (splitBytes rest).filter fun line => line.getLast? = some 10 := by
  rw [splitBytes_ended h, List.filter_cons_of_pos]
  obtain ⟨front, rfl, -⟩ := h
  simp

/-- A line that ends and what follows it. -/
theorem completeLines_cons {line : List UInt8} (h : Ended line) (rest consumed : List UInt8) :
    completeLines (line ++ rest) (line ++ consumed) = line :: completeLines rest consumed := by
  unfold completeLines
  by_cases hall : consumed = rest
  · rw [if_pos hall, if_pos (by rw [hall]), splitBytes_ended h]
  · rw [if_neg hall, if_neg fun heq => hall (List.append_cancel_left heq), filter_ended_cons h]

theorem within_cons {line : List UInt8} (h : Ended line) {records room : ℕ} (hrecords : 1 ≤ records)
    (hroom : line.length ≤ room) (rest : List UInt8) :
    within records room (line ++ rest) = line ++ within (records - 1) (room - line.length) rest := by
  obtain ⟨k, rfl⟩ := Nat.exists_eq_add_of_le' hrecords
  rw [within, splitBytes_ended h, List.take_succ_cons, List.flatten_cons, List.take_append, List.take_of_length_le hroom,
    within, Nat.add_sub_cancel]

/-- A line that has begun is within every limit that lets it begin. -/
theorem within_begun {part : List UInt8} (h : 10 ∉ part) {records : ℕ} (hrecords : 1 ≤ records) (rest : List UInt8) :
    within records part.length (part ++ rest) = part := by
  obtain ⟨k, rfl⟩ := Nat.exists_eq_add_of_le' hrecords
  by_cases hnil : part = []
  · rw [hnil, List.length_nil, within, List.take_zero]
  · rw [within, splitBytes_append h hnil]
    cases splitBytes rest with
    | nil => simp
    | cons piece pieces => simp

theorem within_last {part : List UInt8} (h : 10 ∉ part) {records : ℕ} (hrecords : 1 ≤ records) (room : ℕ) :
    within records (part.length + room) part = part := by
  obtain ⟨k, rfl⟩ := Nat.exists_eq_add_of_le' hrecords
  by_cases hnil : part = []
  · rw [hnil]
    simp [within, splitBytes]
  · rw [within, splitBytes_eq_singleton h hnil]
    simp

/-! ## The result line by line -/

section

variable (X : Platform) (limits : ScanLimits) (acc : ScanResult) (n : ℕ)

theorem resultOf_cons {line : List UInt8} (h : Ended line) (rest consumed : List UInt8) :
    resultOf X limits acc n (line ++ rest) (line ++ consumed) = (do
      let row ← projectLine X (n + 1) line
      resultOf X limits (acc.took (n + 1) line row) (n + 1) rest consumed) := by
  have hbegun : begun (line ++ rest) (line ++ consumed) = begun rest consumed := by
    rw [begun, completeLines_cons h, List.flatten_cons, List.length_append, begun, List.drop_append,
      List.drop_of_length_le (Nat.le_add_right _ _), List.nil_append, Nat.add_sub_cancel_left]
  have hsame : (line ++ consumed = line ++ rest) = (consumed = rest) := by
    rw [List.append_cancel_left_eq]
  unfold resultOf ScanResult.ended
  simp only [hbegun, hsame, completeLines_cons h, takeLines]
  cases projectLine X (n + 1) line <;> rfl

/-- At the end of the file the last line is complete without a newline. -/
theorem resultOf_last {part : List UInt8} (h : 10 ∉ part) :
    resultOf X limits acc n part part =
      (if part = [] then .ok acc else (projectLine X (n + 1) part).map (acc.took (n + 1) part)).map
        ScanResult.finished := by
  have hlines : completeLines part part = splitBytes part := if_pos rfl
  have hbegun : begun part part = [] := by
    rw [begun, hlines, flatten_splitBytes, List.drop_length]
  have hended : ∀ result : ScanResult, (result.read []).ended limits part part = result.finished := by
    intro result
    rw [ScanResult.ended, if_pos rfl, ScanResult.read, ScanResult.finished, List.length_nil, Nat.add_zero, List.append_nil]
    rfl
  unfold resultOf
  rw [hbegun, hlines]
  simp only [hended]
  by_cases hnil : part = []
  · rw [if_pos hnil, hnil]
    rfl
  · rw [if_neg hnil, splitBytes_eq_singleton h hnil]
    simp only [takeLines]
    cases projectLine X (n + 1) part <;> rfl

/-- A scan that stops in a line takes nothing more in. -/
theorem resultOf_begun {part content : List UInt8} (h : 10 ∉ part) (hne : part ≠ content) :
    resultOf X limits acc n content part = .ok (if acc.recordsScanned = limits.maxRecords then
      (acc.read part).stopped (stoppedAt "max_records" limits.maxRecords)
      else (acc.read part).stopped (stoppedAt "max_bytes" limits.maxBytes)) := by
  have hlines : completeLines content part = [] := by
    rw [completeLines, if_neg hne, filter_ended_of_not_mem h]
  have hbegun : begun content part = part := by
    rw [begun, hlines, List.flatten_nil, List.length_nil, List.drop_zero]
  rw [resultOf, hlines, hbegun, takeLines, Except.map, ScanResult.ended, if_neg hne]
  rfl

end

/-- What is kept of a line. -/
def kept (line : List UInt8) : List UInt8 := if tooLong line then [] else line

theorem tooLong_append {line : List UInt8} (h : tooLong line = true) (chunk : List UInt8) : tooLong (line ++ chunk) = true := by
  unfold tooLong at *
  rw [decide_eq_true_eq] at *
  rw [List.length_append]
  omega

/-- However a line grows, it is kept or dropped as a whole. -/
theorem extendLine_kept (line chunk : List UInt8) :
    extendLine (kept line) (tooLong line) chunk = (kept (line ++ chunk), tooLong (line ++ chunk)) := by
  unfold extendLine kept
  cases hlong : tooLong line with
  | true =>
    rw [tooLong_append hlong]
    rfl
  | false =>
    have hsame : tooLong (line ++ chunk) = decide (maxLineBytes < line.length + chunk.length) := by
      rw [tooLong, List.length_append]
    rw [hsame]
    simp only [Bool.false_eq_true, if_false, decide_eq_true_eq]
    split_ifs with hmore
    · rw [decide_eq_true hmore]
    · rw [decide_eq_false hmore]

/-- Something was read of the line that is not finished exactly when there is a rest or it is too long. -/
theorem kept_ne_nil_iff {line : List UInt8} : (kept line ≠ [] ∨ tooLong line = true) ↔ line ≠ [] := by
  unfold kept
  cases hlong : tooLong line with
  | true =>
    refine iff_of_true (.inr rfl) ?_
    rintro rfl
    exact absurd hlong (by decide)
  | false => simp

/-- A line is accepted as it is projected. -/
theorem acceptLine_eq (X : Platform) (acc : ScanResult) (n : ℕ) (line : List UInt8) :
    acceptLine X (acc.read line) n (kept line) (tooLong line) = (projectLine X n line).map (acc.took n line) := by
  unfold acceptLine projectLine kept ScanResult.took ScanResult.read
  cases hlong : tooLong line with
  | true => simp [Except.map]
  | false =>
    simp only [Bool.false_eq_true, if_false]
    cases String.fromUTF8? ⟨(stripByte 13 (stripByte 10 line)).toArray⟩ with
    | none => rfl
    | some text =>
      dsimp only
      split_ifs with hblank
      · simp [Except.map]
      · cases X.parse text with
        | error e => rfl
        | ok event =>
          dsimp only
          unfold acceptEvent
          split_ifs with hobject
          · rfl
          · cases X.dialogue event with
            | error e => rfl
            | ok shown => cases shown <;> simp [Except.map, bind, Except.bind]

/-! ## The loop and the prefix -/

theorem ScanResult.read_nil (acc : ScanResult) : acc.read [] = acc := by
  rw [ScanResult.read, List.length_nil, Nat.add_zero, List.append_nil]

theorem ScanResult.read_read (acc : ScanResult) (part chunk : List UInt8) :
    (acc.read part).read chunk = acc.read (part ++ chunk) := by
  unfold read
  simp only [List.length_append, List.append_assoc, Nat.add_assoc]

theorem acceptLast_eq (X : Platform) (limits : ScanLimits) (acc : ScanResult) {part : List UInt8} (h : 10 ∉ part) (n : ℕ) :
    acceptLast X (acc.read part) n (kept part) (tooLong part) = resultOf X limits acc n part part := by
  rw [acceptLast, resultOf_last X limits acc n h, acceptLine_eq]
  by_cases hnil : part = []
  · rw [if_neg (kept_ne_nil_iff.not.mpr (not_not.mpr hnil)), if_pos hnil, hnil, ScanResult.read_nil]
  · rw [if_pos (kept_ne_nil_iff.mpr hnil), if_neg hnil]

/-- In the middle of a line the loop gives what the rest of the file gives. -/
theorem scanLoop_eq (X : Platform) (limits : ScanLimits) (acc : ScanResult) {part : List UInt8} (hpart : 10 ∉ part) (n : ℕ)
    (reader : Reader) (room : ℕ) (hrecords : acc.recordsScanned ≤ limits.maxRecords)
    (hbegun : part ≠ [] → acc.recordsScanned < limits.maxRecords) :
    scanLoop X limits (acc.read part) (kept part) (tooLong part) n reader room =
      resultOf X limits acc n (part ++ reader.content)
        (within (limits.maxRecords - acc.recordsScanned) (part.length + room) (part ++ reader.content)) := by
  induction room using Nat.strong_induction_on generalizing acc part n reader with
  | _ room ih =>
    have hcount : (acc.read part).recordsScanned = acc.recordsScanned := rfl
    rw [scanLoop, hcount]
    by_cases hfull : acc.recordsScanned = limits.maxRecords
    · obtain rfl : part = [] := by
        by_contra hne
        exact absurd hfull (hbegun hne).ne
      have hnothing : ∀ room content, within 0 room content = [] := fun room content => List.take_nil
      rw [if_pos hfull, hfull, Nat.sub_self, hnothing, List.nil_append]
      split_ifs with hbuf
      · rw [Reader.fillBuf_eq_nil_iff.mp hbuf, resultOf_last X limits acc n List.not_mem_nil, if_pos rfl,
          ScanResult.read_nil]
        rfl
      · rw [resultOf_begun X limits acc n List.not_mem_nil (fun h => hbuf (Reader.fillBuf_eq_nil_iff.mpr h.symm)),
          if_pos hfull]
    · have hroomy : 1 ≤ limits.maxRecords - acc.recordsScanned := by omega
      rw [if_neg hfull]
      by_cases hroom : room = 0
      · rw [dif_pos hroom, hroom, Nat.add_zero, within_begun hpart hroomy]
        split_ifs with hbuf
        · rw [Reader.fillBuf_eq_nil_iff.mp hbuf, List.append_nil, acceptLast_eq X limits acc hpart]
        · have hne : part ≠ part ++ reader.content := fun h =>
            hbuf (Reader.fillBuf_eq_nil_iff.mpr (List.append_cancel_left ((List.append_nil part).trans h)).symm)
          rw [resultOf_begun X limits acc n hpart hne, if_neg hfull]
      · rw [dif_neg hroom]
        by_cases hbuf : reader.fillBuf = []
        · rw [dif_pos hbuf, Reader.fillBuf_eq_nil_iff.mp hbuf, List.append_nil, within_last hpart hroomy,
            acceptLast_eq X limits acc hpart]
        · rw [dif_neg hbuf]
          obtain ⟨hsplit, hlength, hchunk⟩ := reader.consume_chunk hbuf hroom
          dsimp only
          rw [ScanResult.read_read, extendLine_kept]
          generalize untilNewline (reader.fillBuf.take room) = taken at hsplit hlength hchunk ⊢
          obtain ⟨chunk, newline⟩ := taken
          dsimp only at hsplit hlength hchunk ⊢
          obtain ⟨hpos, hle⟩ := hlength
          rw [hsplit, ← List.append_assoc]
          rcases hchunk with ⟨rfl, front, rfl, hfront⟩ | ⟨rfl, hnone⟩
          · -- The line ends: it is accepted, and the next one begins.
            have hended : Ended (part ++ (front ++ [10])) :=
              ⟨part ++ front, (List.append_assoc _ _ _).symm, fun h => (List.mem_append.mp h).elim hpart hfront⟩
            have hfits : (part ++ (front ++ [10])).length ≤ part.length + room := by
              rw [List.length_append]
              omega
            have hleft : part.length + room - (part ++ (front ++ [10])).length =
                ([] : List UInt8).length + (room - (front ++ [10]).length) := by
              rw [List.length_append, List.length_nil]
              omega
            rw [if_pos rfl, acceptLine_eq, within_cons hended hroomy hfits, resultOf_cons X limits acc n hended, hleft]
            cases projectLine X (n + 1) (part ++ (front ++ [10])) with
            | error e => rfl
            | ok row =>
              have hnext := ih (room - (front ++ [10]).length) (by omega) (acc.took (n + 1) (part ++ (front ++ [10])) row)
                List.not_mem_nil (n + 1) (reader.consume (front ++ [10]).length)
                (show acc.recordsScanned + 1 ≤ _ by omega) (fun h => absurd rfl h)
              rw [ScanResult.read_nil, List.nil_append] at hnext
              exact hnext
          · -- The buffer ends first: the line grows.
            have hgrown : 10 ∉ part ++ chunk := fun h => (List.mem_append.mp h).elim hpart hnone
            have hleft : part.length + room = (part ++ chunk).length + (room - chunk.length) := by
              rw [List.length_append]
              omega
            rw [if_neg Bool.false_ne_true, hleft]
            exact ih (room - chunk.length) (by omega) acc hgrown n (reader.consume chunk.length) hrecords
              (fun _ => by omega)

/-- The scan is what the bytes within both limits give. -/
theorem scanJsonl_eq (X : Platform) (limits : ScanLimits) (reader : Reader) :
    scanJsonl X limits reader =
      resultOf X limits .empty 0 reader.content (within limits.maxRecords limits.maxBytes reader.content) := by
  have hloop := scanLoop_eq X limits .empty (show 10 ∉ ([] : List UInt8) from List.not_mem_nil) 0 reader limits.maxBytes
    (Nat.zero_le _) (fun h => absurd rfl h)
  rw [ScanResult.read_nil, List.nil_append, List.length_nil, Nat.zero_add] at hloop
  exact hloop

/-! ## The longest prefix -/

/-- The longest beginning of a file within both limits. A line that has begun counts against the limit on the records. -/
structure Longest (limits : ScanLimits) (content consumed : List UInt8) : Prop where
  isBeginning : consumed <+: content
  length_le : consumed.length ≤ limits.maxBytes
  lines_le : (splitBytes consumed).length ≤ limits.maxRecords
  longest : ∀ other, other <+: content → other.length ≤ limits.maxBytes →
    (splitBytes other).length ≤ limits.maxRecords → other.length ≤ consumed.length

theorem length_splitBytes_of_not_mem {bytes : List UInt8} (h : 10 ∉ bytes) : (splitBytes bytes).length ≤ 1 := by
  by_cases hnil : bytes = []
  · rw [hnil]
    exact Nat.zero_le 1
  · rw [splitBytes_eq_singleton h hnil, List.length_singleton]

theorem length_splitBytes_of_start {bytes line : List UInt8} (hline : Ended line) (h : bytes <+: line) :
    (splitBytes bytes).length ≤ 1 := by
  obtain ⟨front, hfront, hnone⟩ := hline
  rw [hfront] at h
  rcases List.prefix_concat_iff.mp h with hall | hpart
  · have hsplit := splitBytes_ended (show Ended bytes from ⟨front, hall, hnone⟩) []
    rw [List.append_nil] at hsplit
    rw [hsplit]
    exact Nat.le_refl 1
  · exact length_splitBytes_of_not_mem fun hmem => hnone (hpart.subset hmem)

/-- A beginning has at most so many lines exactly when it ends within so many lines of the file. -/
theorem length_splitBytes_le_iff {bytes content : List UInt8} (h : bytes <+: content) (k : ℕ) :
    (splitBytes bytes).length ≤ k ↔ bytes <+: ((splitBytes content).take k).flatten := by
  induction k generalizing bytes content with
  | zero =>
    rw [List.take_zero, List.flatten_nil, List.prefix_nil, Nat.le_zero, List.length_eq_zero_iff]
    refine ⟨fun hnone => ?_, fun hnil => by rw [hnil]; rfl⟩
    rw [← flatten_splitBytes bytes, hnone]
    rfl
  | succ k ih =>
    obtain ⟨rest, hcontent, ⟨-, hended⟩ | ⟨-, rfl, hnone⟩⟩ := untilNewline_spec content
    · generalize (untilNewline content).1 = line at hcontent hended
      rw [hcontent] at h ⊢
      rw [splitBytes_ended hended, List.take_succ_cons, List.flatten_cons]
      rcases List.prefix_or_prefix_of_prefix h (List.prefix_append line rest) with hshort | ⟨more, rfl⟩
      · refine iff_of_true ((length_splitBytes_of_start hended hshort).trans (Nat.le_add_left 1 k)) ?_
        exact hshort.trans (List.prefix_append line _)
      · have hmore := (List.prefix_append_right_inj line).mp h
        rw [splitBytes_ended hended, List.length_cons, Nat.add_le_add_iff_right, ih hmore, List.prefix_append_right_inj]
    · rw [List.append_nil] at hcontent
      rw [← hcontent] at hnone
      have hbytes : 10 ∉ bytes := fun hmem => hnone (h.subset hmem)
      refine iff_of_true ((length_splitBytes_of_not_mem hbytes).trans (Nat.le_add_left 1 k)) ?_
      rw [List.take_of_length_le ((length_splitBytes_of_not_mem hnone).trans (Nat.le_add_left 1 k)), flatten_splitBytes]
      exact h

theorem take_lines_prefix (content : List UInt8) (k : ℕ) : ((splitBytes content).take k).flatten <+: content := by
  refine ⟨((splitBytes content).drop k).flatten, ?_⟩
  rw [← List.flatten_append, List.take_append_drop, flatten_splitBytes]

theorem within_longest (limits : ScanLimits) (content : List UInt8) :
    Longest limits content (within limits.maxRecords limits.maxBytes content) := by
  have hlines := take_lines_prefix content limits.maxRecords
  have hstart := List.take_prefix limits.maxBytes ((splitBytes content).take limits.maxRecords).flatten
  refine ⟨hstart.trans hlines, List.length_take_le _ _, ?_, fun other hother hlength hcount => ?_⟩
  · exact (length_splitBytes_le_iff (hstart.trans hlines) _).mpr hstart
  · rw [length_splitBytes_le_iff hother] at hcount
    rw [within, List.length_take]
    exact le_min hlength hcount.length_le

/-! ## What is scanned -/

/-- The lines that end are the beginning of the bytes. -/
theorem filter_ended_prefix (bytes : List UInt8) :
    ((splitBytes bytes).filter fun line => line.getLast? = some 10).flatten <+: bytes := by
  induction hlength : bytes.length using Nat.strong_induction_on generalizing bytes with
  | _ length ih =>
    obtain ⟨rest, hbytes, ⟨-, hended⟩ | ⟨-, rfl, hnone⟩⟩ := untilNewline_spec bytes
    · generalize (untilNewline bytes).1 = line at hbytes hended
      subst hbytes
      rw [filter_ended_cons hended, List.flatten_cons, List.prefix_append_right_inj]
      obtain ⟨front, rfl, -⟩ := hended
      refine ih rest.length ?_ rest rfl
      rw [← hlength, List.length_append, List.length_append, List.length_singleton]
      omega
    · rw [List.append_nil] at hbytes
      rw [← hbytes] at hnone
      rw [filter_ended_of_not_mem hnone]
      exact List.nil_prefix

/-- The complete lines are the beginning of what is consumed. -/
theorem completeLines_begun (content consumed : List UInt8) :
    (completeLines content consumed).flatten ++ begun content consumed = consumed := by
  have hstart : (completeLines content consumed).flatten <+: consumed := by
    unfold completeLines
    split_ifs
    · rw [flatten_splitBytes]
    · exact filter_ended_prefix consumed
  exact (List.prefix_append_drop hstart).symm

theorem length_completeLines_le (content consumed : List UInt8) :
    (completeLines content consumed).length ≤ (splitBytes consumed).length := by
  unfold completeLines
  split_ifs
  · exact Nat.le_refl _
  · exact List.length_filter_le _ _

/-- The projections of lines, numbered from a number on; the first error is the result. -/
def projections (X : Platform) (lineNumber : ℕ) (lines : List (List UInt8)) : Except ReadError (List (Option Record)) :=
  (lines.zipIdx lineNumber).mapM fun entry => projectLine X entry.2 entry.1

theorem takeLines_records (X : Platform) (acc : ScanResult) (n : ℕ) (lines : List (List UInt8)) :
    (takeLines X acc n lines).map ScanResult.records =
      (projections X (n + 1) lines).map fun rows => acc.records ++ rows.filterMap id := by
  unfold projections
  induction lines generalizing acc n with
  | nil => simp [takeLines, Except.map, pure, Except.pure]
  | cons line lines ih =>
    rw [takeLines, List.zipIdx_cons, List.mapM_cons]
    cases projectLine X (n + 1) line with
    | error e => rfl
    | ok row =>
      refine (ih (acc.took (n + 1) line row) (n + 1)).trans ?_
      cases (lines.zipIdx (n + 1 + 1)).mapM fun entry => projectLine X entry.2 entry.1 with
      | error e => rfl
      | ok rows => cases row <;> simp [Except.map, bind, Except.bind, pure, Except.pure, ScanResult.took]

theorem takeLines_counts {X : Platform} {acc result : ScanResult} {n : ℕ} {lines : List (List UInt8)}
    (h : takeLines X acc n lines = .ok result) :
    result.bytesRead = acc.bytesRead + lines.flatten.length ∧ result.hashed = acc.hashed ++ lines.flatten ∧
      result.recordsScanned = acc.recordsScanned + lines.length ∧ result.complete = acc.complete := by
  induction lines generalizing acc n with
  | nil =>
    obtain rfl := Except.ok.inj h
    simp
  | cons line lines ih =>
    rw [takeLines] at h
    obtain ⟨row, -, hrest⟩ := bind_eq_ok.mp h
    obtain ⟨hbytes, hhashed, hcount, hcomplete⟩ := ih hrest
    refine ⟨?_, ?_, ?_, hcomplete⟩
    · rw [hbytes, ScanResult.took, List.flatten_cons, List.length_append, Nat.add_assoc]
    · rw [hhashed, ScanResult.took, List.flatten_cons, List.append_assoc]
    · have htook : (acc.took (n + 1) line row).recordsScanned = acc.recordsScanned + 1 := rfl
      rw [hcount, htook, List.length_cons]
      omega

/-- How a scan ends changes neither what was read nor what was taken in. -/
theorem ScanResult.ended_same (limits : ScanLimits) (content consumed : List UInt8) (result : ScanResult) :
    (result.ended limits content consumed).records = result.records ∧
      (result.ended limits content consumed).bytesRead = result.bytesRead ∧
      (result.ended limits content consumed).hashed = result.hashed ∧
      (result.ended limits content consumed).recordsScanned = result.recordsScanned := by
  unfold ended
  split_ifs <;> exact ⟨rfl, rfl, rfl, rfl⟩

theorem ScanResult.ended_complete (limits : ScanLimits) (content consumed : List UInt8) (result : ScanResult) :
    (result.ended limits content consumed).complete = true ↔ consumed = content := by
  unfold ended
  split_ifs with hall hfull
  · exact iff_of_true rfl hall
  · exact iff_of_false Bool.false_ne_true hall
  · exact iff_of_false Bool.false_ne_true hall

theorem resultOf_records (X : Platform) (limits : ScanLimits) (acc : ScanResult) (n : ℕ) (content consumed : List UInt8) :
    (resultOf X limits acc n content consumed).map ScanResult.records =
      (projections X (n + 1) (completeLines content consumed)).map fun rows => acc.records ++ rows.filterMap id := by
  rw [← takeLines_records, resultOf]
  cases takeLines X acc n (completeLines content consumed) with
  | error e => rfl
  | ok taken => exact congrArg Except.ok (ScanResult.ended_same limits content consumed _).1

/-- What is said of a result whose prefix is consumed. -/
theorem resultOf_counts {X : Platform} {limits : ScanLimits} {content consumed : List UInt8} {result : ScanResult}
    (h : resultOf X limits .empty 0 content consumed = .ok result) :
    result.bytesRead = consumed.length ∧ result.hashed = consumed ∧
      result.recordsScanned = (completeLines content consumed).length ∧
      (result.complete = true ↔ consumed = content) := by
  rw [resultOf] at h
  rcases htaken : takeLines X .empty 0 (completeLines content consumed) with e | taken
  · rw [htaken] at h
    exact absurd h (by simp [Except.map])
  · rw [htaken] at h
    obtain rfl := Except.ok.inj h
    obtain ⟨hbytes, hhashed, hcount, -⟩ := takeLines_counts htaken
    obtain ⟨-, hbytes', hhashed', hcount'⟩ :=
      ScanResult.ended_same limits content consumed (taken.read (begun content consumed))
    have hall := completeLines_begun content consumed
    refine ⟨?_, ?_, ?_, ScanResult.ended_complete limits content consumed _⟩
    · rw [hbytes', ScanResult.read, hbytes]
      refine Eq.trans ?_ (congrArg List.length hall)
      rw [List.length_append]
      exact congrArg (· + _) (Nat.zero_add _)
    · rw [hhashed', ScanResult.read, hhashed]
      exact hall
    · rw [hcount', ScanResult.read, hcount]
      exact Nat.zero_add _

/-- What the scan returns is what the longest prefix of the file within both limits gives, however the file comes into the
buffer: its bytes are counted and hashed, its complete lines projected, and the scan is complete when it is the file. -/
theorem scanJsonl_longest (X : Platform) (limits : ScanLimits) (reader : Reader) :
    (∀ other : Reader, other.content = reader.content → scanJsonl X limits other = scanJsonl X limits reader) ∧
      ∃ consumed, Longest limits reader.content consumed ∧
        scanJsonl X limits reader = resultOf X limits .empty 0 reader.content consumed ∧
        (scanJsonl X limits reader).map ScanResult.records =
          (projections X 1 (completeLines reader.content consumed)).map (List.filterMap id) ∧
        ∀ result, scanJsonl X limits reader = .ok result →
          result.bytesRead = consumed.length ∧ result.bytesRead ≤ limits.maxBytes ∧ result.hashed = consumed ∧
          result.recordsScanned = (completeLines reader.content consumed).length ∧
          result.recordsScanned ≤ limits.maxRecords ∧
          (result.complete = true ↔ consumed = reader.content) := by
  refine ⟨fun other hother => ?_, _, within_longest limits reader.content, scanJsonl_eq X limits reader, ?_, ?_⟩
  · rw [scanJsonl_eq, scanJsonl_eq, hother]
  · rw [scanJsonl_eq]
    exact resultOf_records X limits .empty 0 reader.content _
  · intro result hresult
    rw [scanJsonl_eq] at hresult
    obtain ⟨hbytes, hhashed, hcount, hcomplete⟩ := resultOf_counts hresult
    have hlongest := within_longest limits reader.content
    refine ⟨hbytes, hbytes ▸ hlongest.length_le, hhashed, hcount, ?_, hcomplete⟩
    rw [hcount]
    exact (length_completeLines_le _ _).trans hlongest.lines_le

end Innen.Conversation.Scan
