import Innen.Conversation.Scan

/-!
# Lines within a budget

A line is read out of a buffer that is filled again and again; one that is longer than a budget is read to
its end and reported without its content. Neither what is reported nor where the next line starts depends on how the
file comes into the buffer (`readCappedLine_lines`).
-/

namespace Innen.Conversation

open Innen.Common Scan

/-- `CappedLine`. -/
structure CappedLine where
  bytes : List UInt8
  oversized : Bool
deriving DecidableEq

/-- The loop of `read_capped_line`, with what has been read of the line. -/
def readCapped (budget : ℕ) (reader : Scan.Reader) (bytes : List UInt8) (oversized : Bool) :
    Option CappedLine × Scan.Reader :=
  if _hbuf : reader.fillBuf = [] then
    (if bytes = [] ∧ oversized = false then none else some ⟨bytes, oversized⟩, reader)
  else
    match reader.fillBuf.idxOf? 10 with
    | some pos =>
      let line : CappedLine :=
        if oversized = false ∧ bytes.length + pos ≤ budget then ⟨bytes ++ reader.fillBuf.take pos, oversized⟩
        else ⟨bytes, true⟩
      (some line, reader.consume (pos + 1))
    | none =>
      let take := reader.fillBuf.length
      if oversized then readCapped budget (reader.consume take) bytes true
      else if bytes.length + take ≤ budget then readCapped budget (reader.consume take) (bytes ++ reader.fillBuf) false
      else readCapped budget (reader.consume take) [] true
termination_by reader.content.length
decreasing_by
  all_goals
    have hcontent := reader.content_consume (n := reader.fillBuf.length) le_rfl
    have hlength := congrArg List.length hcontent
    have hpos := List.length_pos_iff.mpr _hbuf
    rw [List.length_append, List.take_length] at hlength
    omega

/-- `read_capped_line`. -/
def readCappedLine (budget : ℕ) (reader : Scan.Reader) : Option CappedLine × Scan.Reader :=
  readCapped budget reader [] false

/-! ## One call -/

/-- What is known of a line when some bytes of it are read: whether they are too many, and if not, what they are. -/
structure Kept (budget : ℕ) (front : List UInt8) (line : CappedLine) : Prop where
  oversized : line.oversized = decide (budget < front.length)
  bytes : line.oversized = false → line.bytes = front

/-- A line that is too long stays so. -/
theorem Kept.grow {budget : ℕ} {front more : List UInt8} {line : CappedLine} (h : Kept budget front line)
    (hover : line.oversized = true) : Kept budget (front ++ more) line := by
  have hlong : budget < front.length := of_decide_eq_true (h.oversized ▸ hover)
  refine ⟨?_, fun hfalse => ?_⟩
  · rw [hover, List.length_append, decide_eq_true (by omega)]
  · rw [hover] at hfalse
    cases hfalse

/-- A line that is not too long becomes so, or its bytes are kept. -/
theorem Kept.extend {budget : ℕ} {front : List UInt8} {line : CappedLine} (h : Kept budget front line)
    (hfits : line.oversized = false) (more bytes : List UInt8) :
    Kept budget (front ++ more)
      (if line.bytes.length + more.length ≤ budget then ⟨line.bytes ++ more, false⟩ else ⟨bytes, true⟩) := by
  have hbytes := h.bytes hfits
  split_ifs with hle
  · refine ⟨?_, fun _ => congrArg (· ++ more) hbytes⟩
    rw [hbytes] at hle
    rw [List.length_append, decide_eq_false (by omega)]
  · refine ⟨?_, fun hfalse => by cases hfalse⟩
    rw [hbytes] at hle
    rw [List.length_append, decide_eq_true (by omega)]

/-- What a call reads: a whole line, unless nothing is left. -/
inductive Called (budget : ℕ) (content : List UInt8) : Option CappedLine × Scan.Reader → Prop
  | ended {reader : Scan.Reader} (hcontent : content = []) (hrest : reader.content = []) :
    Called budget content (none, reader)
  | line {line : CappedLine} {reader : Scan.Reader} {source : List UInt8} (hcontent : content = source ++ reader.content)
      (hsource : splitBytes content = source :: splitBytes reader.content)
      (hkept : Kept budget (stripByte 10 source) line) : Called budget content (some line, reader)

theorem stripByte_ended (front : List UInt8) : stripByte 10 (front ++ [10]) = front := by
  rw [stripByte, if_pos List.getLast?_concat, List.dropLast_concat]

theorem stripByte_of_not_mem {front : List UInt8} (h : 10 ∉ front) : stripByte 10 front = front := by
  rw [stripByte, if_neg fun hlast => h (List.mem_of_getLast? hlast)]

/-- The position of a newline in the buffer cuts it behind bytes without a newline. -/
theorem take_idxOf {bytes : List UInt8} {pos : ℕ} (h : bytes.idxOf? 10 = some pos) :
    bytes.take (pos + 1) = bytes.take pos ++ [10] ∧ 10 ∉ bytes.take pos ∧ pos + 1 ≤ bytes.length ∧
      (bytes.take pos).length = pos := by
  obtain ⟨hlt, hat, hbefore⟩ := List.idxOf?_eq_some_iff.mp h
  refine ⟨?_, ?_, hlt, List.length_take_of_le (Nat.le_of_lt hlt)⟩
  · rw [List.take_succ_eq_append_getElem hlt, hat]
  · intro hmem
    obtain ⟨j, hj, heq⟩ := List.mem_take_iff_getElem.mp hmem
    exact hbefore j (by omega) heq

/-- The loop reads what is left of a line of which some bytes are read. -/
theorem called_readCapped {budget : ℕ} {reader : Scan.Reader} {bytes : List UInt8} {oversized : Bool} {front : List UInt8}
    (hfront : 10 ∉ front) (hkept : Kept budget front ⟨bytes, oversized⟩) :
    Called budget (front ++ reader.content) (readCapped budget reader bytes oversized) := by
  induction hsize : reader.content.length using Nat.strong_induction_on generalizing reader bytes oversized front with
  | _ size ih =>
  rw [readCapped]
  by_cases hbuf : reader.fillBuf = []
  · rw [dif_pos hbuf]
    have hcontent := Scan.Reader.fillBuf_eq_nil_iff.mp hbuf
    split_ifs with hnone
    · obtain ⟨hbytes, hover⟩ := hnone
      obtain rfl : front = [] := (hkept.bytes hover).symm.trans hbytes
      exact .ended (by rw [hcontent]; rfl) hcontent
    · have hne : front ≠ [] := by
        rintro rfl
        have hover : oversized = false := hkept.oversized
        exact hnone ⟨hkept.bytes hover, hover⟩
      refine .line rfl ?_ ?_
      · rw [hcontent, List.append_nil, splitBytes_eq_singleton hfront hne]
        rfl
      · rwa [stripByte_of_not_mem hfront]
  · rw [dif_neg hbuf]
    rcases hpos : reader.fillBuf.idxOf? 10 with _ | pos
    · have hcontent := reader.content_consume (n := reader.fillBuf.length) le_rfl
      rw [List.take_length] at hcontent
      have hmore : 10 ∉ front ++ reader.fillBuf := by
        rw [List.mem_append, not_or]
        exact ⟨hfront, List.idxOf?_eq_none_iff.mp hpos⟩
      have hless : (reader.consume reader.fillBuf.length).content.length < size := by
        have hlength := congrArg List.length hcontent
        have := List.length_pos_iff.mpr hbuf
        rw [List.length_append] at hlength
        omega
      rw [hcontent, ← List.append_assoc]
      dsimp only
      cases oversized with
      | true =>
        rw [if_pos rfl]
        exact ih _ hless hmore (hkept.grow rfl) rfl
      | false =>
        have hextend := hkept.extend rfl reader.fillBuf []
        rw [if_neg Bool.false_ne_true]
        split_ifs at hextend ⊢
        · exact ih _ hless hmore hextend rfl
        · exact ih _ hless hmore hextend rfl
    · obtain ⟨htake, hnone, hle, hlen⟩ := take_idxOf hpos
      have hcontent := reader.content_consume hle
      rw [htake] at hcontent
      have hended : Ended (front ++ reader.fillBuf.take pos ++ [10]) := by
        refine ⟨_, rfl, ?_⟩
        rw [List.mem_append, not_or]
        exact ⟨hfront, hnone⟩
      have hwhole : front ++ reader.content =
          front ++ reader.fillBuf.take pos ++ [10] ++ (reader.consume (pos + 1)).content := by
        rw [hcontent]
        simp only [List.append_assoc]
      refine .line hwhole (hwhole ▸ splitBytes_ended hended _) ?_
      rw [stripByte_ended]
      cases oversized with
      | true =>
        rw [if_neg (by simp)]
        exact hkept.grow rfl
      | false =>
        have hextend := hkept.extend rfl (reader.fillBuf.take pos) bytes
        rw [hlen] at hextend
        simpa only [true_and] using hextend

/-! ## Call after call -/

/-- A line that is read takes bytes. -/
theorem readCappedLine_progress {budget : ℕ} {reader rest : Scan.Reader} {line : CappedLine}
    (h : readCappedLine budget reader = (some line, rest)) : rest.content.length < reader.content.length := by
  have hcalled : Called budget reader.content (some line, rest) :=
    h ▸ called_readCapped List.not_mem_nil ⟨rfl, fun _ => rfl⟩
  cases hcalled with
  | line hcontent hsource hkept =>
    have hlines := congrArg List.length hcontent
    rename_i source
    have hne : source ≠ [] := by
      rintro rfl
      rw [List.nil_append] at hcontent
      rw [hcontent] at hsource
      exact absurd (congrArg List.length hsource) (by simp)
    have := List.length_pos_iff.mpr hne
    rw [List.length_append] at hlines
    omega

/-- The lines that one call after the other reads, until there is none. -/
def cappedLines (budget : ℕ) (reader : Scan.Reader) : List CappedLine :=
  match _h : readCappedLine budget reader with
  | (none, _) => []
  | (some line, rest) => line :: cappedLines budget rest
termination_by reader.content.length
decreasing_by exact readCappedLine_progress _h

/-- What a reader may rely on: the content of a line, unless it is reported as too long. -/
def CappedLine.reported (line : CappedLine) : Option (List UInt8) := if line.oversized then none else some line.bytes

/-- What is to be reported of a line of the file: its content without the newline, if that is within the budget. -/
def withinBudget (budget : ℕ) (source : List UInt8) : Option (List UInt8) :=
  if budget < (stripByte 10 source).length then none else some (stripByte 10 source)

theorem Kept.reported {budget : ℕ} {source : List UInt8} {line : CappedLine} (h : Kept budget (stripByte 10 source) line) :
    line.reported = withinBudget budget source := by
  rw [CappedLine.reported, withinBudget, h.oversized]
  by_cases hlong : budget < (stripByte 10 source).length
  · rw [if_pos (decide_eq_true hlong), if_pos hlong]
  · rw [if_neg (by simpa using hlong), if_neg hlong, h.bytes (h.oversized.trans (decide_eq_false hlong))]

/-- Whatever fills the buffer, the calls give the lines of the file in order, each of them or the report that it is
longer than the budget; and a call takes exactly one line off the file, however long it is. -/
theorem readCappedLine_lines (budget : ℕ) (reader : Scan.Reader) :
    (cappedLines budget reader).map CappedLine.reported = (splitBytes reader.content).map (withinBudget budget) ∧
    Called budget reader.content (readCappedLine budget reader) := by
  refine ⟨?_, called_readCapped List.not_mem_nil ⟨rfl, fun _ => rfl⟩⟩
  induction hsize : reader.content.length using Nat.strong_induction_on generalizing reader with
  | _ size ih =>
  have hcalled : Called budget reader.content (readCappedLine budget reader) :=
    called_readCapped List.not_mem_nil ⟨rfl, fun _ => rfl⟩
  rw [cappedLines]
  split
  · rename_i rest hread
    rw [hread] at hcalled
    cases hcalled with
    | ended hcontent => rw [hcontent]; rfl
  · rename_i line rest hread
    have hless := readCappedLine_progress hread
    rw [hread] at hcalled
    cases hcalled with
    | line hcontent hsource hkept =>
      rw [hsource, List.map_cons, List.map_cons, hkept.reported, ih _ (hsize ▸ hless) rest rfl]

end Innen.Conversation
