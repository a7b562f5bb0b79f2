import Innen.Common.Lossy

/-!
# The bounded tail of a transcript

The last mebibyte of a file is read, the line that it begins with is dropped unless it is all of the file, and the last
two hundred lines are kept. These are the last lines of the file, each of them whole (`tailLines_suffix`).
-/

namespace Innen.Conversation.Unfinished

open Common

/-- `WINDOW`. -/
def window : ℕ := 1024 * 1024

/-- The number of lines that are kept. -/
def maxLines : ℕ := 200

/-- Keep a line, and drop the oldest if there are too many. -/
def pushLine (lines : List String) (line : String) : List String :=
  (if lines.length = maxLines then lines.tail else lines) ++ [line]

/-- `bounded_tail_lines`: the lines, and whether the file is longer than the window. -/
def boundedTailLines (content : ByteArray) : List String × Bool :=
  let start := content.size - window
  let found := lines (fromUtf8Lossy (content.extract start content.size))
  ((if 0 < start then found.tail else found).foldl pushLine [], decide (0 < start))

/-- All lines of a file. -/
def fileLines (content : ByteArray) : List String := lines (fromUtf8Lossy content)

theorem foldl_pushLine (more : List String) {kept : List String} (h : kept.length ≤ maxLines) :
    more.foldl pushLine kept = (kept ++ more).drop ((kept ++ more).length - maxLines) := by
  induction more generalizing kept with
  | nil => rw [List.append_nil, Nat.sub_eq_zero_of_le h, List.drop_zero, List.foldl_nil]
  | cons line more ih =>
    rw [List.foldl_cons, pushLine]
    split_ifs with hfull
    · rcases kept with _ | ⟨first, kept⟩
      · exact absurd hfull (by decide)
      · rw [List.length_cons] at hfull
        rw [List.tail_cons, ih (by rw [List.length_append, List.length_singleton]; omega), List.append_assoc,
          List.singleton_append, List.cons_append, List.length_cons,
          Nat.succ_sub (by rw [List.length_append, List.length_cons]; omega), List.drop_succ_cons]
    · rw [ih (by rw [List.length_append, List.length_singleton]; omega), List.append_assoc, List.singleton_append]

/-- Lines around a newline are those of each side. -/
theorem lines_lossy_newline (bytes more : List UInt8) :
    lines (String.ofList (lossyOf (bytes ++ 10 :: more))) =
      lines (String.ofList (lossyOf bytes ++ ['\n'])) ++ lines (String.ofList (lossyOf more)) := by
  have hsplit : String.ofList (lossyOf (bytes ++ 10 :: more)) =
      String.ofList (lossyOf bytes ++ ['\n']) ++ String.ofList (lossyOf more) := by
    rw [lossyOf_newline, ← String.ofList_append, List.append_assoc, List.singleton_append]
  rw [hsplit, lines_append]
  rw [String.toList_ofList]
  exact terminated_append_sep '\n' _

/-- Without the line that they begin with, the lines of the last bytes of a file are its last lines. -/
theorem tail_lines_suffix (before bytes : List UInt8) :
    (lines (String.ofList (lossyOf bytes))).tail <:+ lines (String.ofList (lossyOf (before ++ bytes))) := by
  by_cases hnewline : 10 ∈ bytes
  · obtain ⟨front, rest, rfl, hfront⟩ := List.eq_append_cons_of_mem hnewline
    have hone : lines (String.ofList (lossyOf front ++ ['\n'])) = [stripCr (String.ofList (lossyOf front))] := by
      rw [String.ofList_append]
      refine lines_newline ?_
      rw [String.toList_ofList]
      exact newline_not_mem_lossyOf hfront
    rw [← List.append_assoc, lines_lossy_newline, lines_lossy_newline, hone, List.singleton_append, List.tail_cons]
    exact List.suffix_append _ _
  · have hshort : (lines (String.ofList (lossyOf bytes))).tail = [] := by
      by_cases hempty : String.ofList (lossyOf bytes) = ""
      · rw [hempty, lines_empty, List.tail_nil]
      · rw [lines_of_not_mem (by rw [String.toList_ofList]; exact newline_not_mem_lossyOf hnewline) hempty,
          List.tail_cons]
    rw [hshort]
    exact List.nil_suffix

theorem fromUtf8Lossy_eq (b : ByteArray) : fromUtf8Lossy b = String.ofList (lossyOf b.data.toList) := by
  rw [← toList_fromUtf8Lossy, String.ofList_toList]

/-- What is read of a file from a place on, without the first line if that is not all. -/
theorem read_suffix (content : ByteArray) (start : ℕ) :
    (if 0 < start then (lines (fromUtf8Lossy (content.extract start content.size))).tail
      else lines (fromUtf8Lossy (content.extract start content.size))) <:+ fileLines content := by
  have hdrop : (content.extract start content.size).data.toList = content.data.toList.drop start := by
    rw [ByteArray.data_extract, Array.toList_extract, List.extract_eq_take_drop, List.take_of_length_le]
    rw [List.length_drop, Array.length_toList]
    exact le_rfl
  split_ifs with hstart
  · rw [fileLines, fromUtf8Lossy_eq, fromUtf8Lossy_eq, hdrop]
    have h := tail_lines_suffix (content.data.toList.take start) (content.data.toList.drop start)
    rwa [List.take_append_drop] at h
  · obtain rfl : start = 0 := by omega
    rw [ByteArray.extract_zero_size]
    exact List.suffix_rfl

/-- The tail is the last lines of the file. -/
theorem tailLines_suffix (content : ByteArray) : (boundedTailLines content).1 <:+ fileLines content := by
  have hroom : ([] : List String).length ≤ maxLines := Nat.zero_le _
  unfold boundedTailLines
  dsimp only
  rw [foldl_pushLine _ hroom, List.nil_append]
  exact (List.drop_suffix _ _).trans (read_suffix content _)

end Innen.Conversation.Unfinished
