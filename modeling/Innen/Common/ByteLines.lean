import Innen.Common.Text
import Innen.Common.Utf8

/-!
# Lines of bytes

Reading a file line by line cuts its bytes behind every newline and decodes each piece by itself, so one
line that is no text does not hide the others. On the bytes of a text this gives the lines of the
text (`bufLines_toByteArray`).
-/

namespace Innen.Common

/-- Cut bytes behind every newline. -/
def splitBytes : List UInt8 → List (List UInt8)
  | [] => []
  | b :: rest =>
    if b = 10 then [b] :: splitBytes rest
    else match splitBytes rest with
      | [] => [[b]]
      | piece :: pieces => (b :: piece) :: pieces

/-- The text of a line without its terminator, if it is text. -/
def decodeLine (piece : List UInt8) : Option String :=
  (String.fromUTF8? ⟨piece.toArray⟩).map fun s => String.ofList (stripEol s.toList)

/-- The lines of a file (`BufRead::lines`); a line that is no text is `none`. -/
def bufLines (bytes : ByteArray) : List (Option String) := (splitBytes bytes.data.toList).map decodeLine

/-- Bytes without a newline go to the first piece. -/
theorem splitBytes_append {bs : List UInt8} (hbs : 10 ∉ bs) (hne : bs ≠ []) (rest : List UInt8) :
    splitBytes (bs ++ rest) = match splitBytes rest with
      | [] => [bs]
      | piece :: pieces => (bs ++ piece) :: pieces := by
  induction bs with
  | nil => exact absurd rfl hne
  | cons b bs ih =>
    have hb : b ≠ 10 := fun heq => hbs (heq ▸ List.mem_cons_self)
    rw [List.cons_append, splitBytes, if_neg hb]
    rcases List.eq_nil_or_concat bs with rfl | ⟨init, last, hconcat⟩
    · rfl
    · have htail : bs ≠ [] := by rw [hconcat]; simp
      rw [ih (fun hmem => hbs (List.mem_cons_of_mem b hmem)) htail]
      rcases splitBytes rest with _ | ⟨piece, pieces⟩ <;> rfl

theorem splitBytes_eq_singleton {bytes : List UInt8} (h : 10 ∉ bytes) (hne : bytes ≠ []) : splitBytes bytes = [bytes] := by
  have hsplit := splitBytes_append h hne []
  rw [List.append_nil] at hsplit
  rw [hsplit]
  rfl

theorem flatten_splitBytes (bytes : List UInt8) : (splitBytes bytes).flatten = bytes := by
  induction bytes with
  | nil => rfl
  | cons b rest ih =>
    rw [splitBytes]
    split_ifs with hb
    · rw [List.flatten_cons, ih, List.singleton_append]
    · rcases hsplit : splitBytes rest with _ | ⟨piece, pieces⟩
      · rw [hsplit] at ih
        rw [← ih]
        rfl
      · rw [hsplit] at ih
        rw [← ih]
        rfl

/-- The bytes of some characters. -/
def utf8Bytes (cs : List Char) : List UInt8 := cs.flatMap String.utf8EncodeChar

theorem utf8EncodeChar_ne_nil (c : Char) : String.utf8EncodeChar c ≠ [] := by
  intro h
  have hsize := String.length_utf8EncodeChar c
  rw [h, List.length_nil] at hsize
  have := c.utf8Size_pos
  omega

/-- Newlines in bytes are newlines in the text. -/
theorem splitBytes_utf8Bytes (cs : List Char) :
    splitBytes (utf8Bytes cs) = (splitInclusive '\n' cs).map utf8Bytes := by
  induction cs with
  | nil => rfl
  | cons c cs ih =>
    have hcons : utf8Bytes (c :: cs) = String.utf8EncodeChar c ++ utf8Bytes cs := List.flatMap_cons
    rw [hcons, splitInclusive]
    split_ifs with hc
    · have hnewline : String.utf8EncodeChar '\n' = [10] := by decide
      rw [hc, hnewline, List.singleton_append, splitBytes, if_pos rfl, ih, List.map_cons]
      congr 1
    · rw [splitBytes_append (newline_not_mem_utf8EncodeChar hc) (utf8EncodeChar_ne_nil c), ih]
      rcases splitInclusive '\n' cs with _ | ⟨piece, pieces⟩
      · simp [utf8Bytes]
      · simp [utf8Bytes]

theorem toByteArray_data_toList (s : String) : s.toByteArray.data.toList = utf8Bytes s.toList := by
  rw [← String.utf8Encode_toList, List.utf8Encode]
  simp [utf8Bytes]

/-- The lines of a text, read as bytes. -/
theorem bufLines_toByteArray (s : String) : bufLines s.toByteArray = (lines s).map some := by
  have hdecode : ∀ piece : List Char, decodeLine (utf8Bytes piece) = some (String.ofList (stripEol piece)) := by
    intro piece
    have hbytes : (⟨(utf8Bytes piece).toArray⟩ : ByteArray) = (String.ofList piece).toByteArray := by
      refine ByteArray.ext (Array.toList_inj.mp ?_)
      rw [toByteArray_data_toList, String.toList_ofList]
    rw [decodeLine, hbytes, fromUTF8?_toByteArray, Option.map_some, String.toList_ofList]
  rw [bufLines, toByteArray_data_toList, splitBytes_utf8Bytes, lines, linesOf, List.map_map, List.map_map,
    List.map_map]
  exact List.map_congr_left fun piece _ => hdecode piece

end Innen.Common
