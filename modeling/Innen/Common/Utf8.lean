import Mathlib.Data.String.Basic

/-!
# Bytes that are text

Reading bytes as UTF-8 undoes writing a text. Behind a text the bytes are text iff they are text by
themselves (`fromUTF8?_append`), so cutting the bytes of a text gives text only where a character ends
(`fromUTF8?_cut`).
-/

namespace Innen.Common

/-- One equality test for bytes, whichever others are in scope. -/
instance (priority := 2000) decidableEqByteArray : DecidableEq ByteArray := ByteArray.instDecidableEq

/-- The bytes of a text are read as that text. -/
@[simp] theorem fromUTF8?_toByteArray (s : String) : String.fromUTF8? s.toByteArray = some s := by
  rw [String.fromUTF8?, dif_pos s.isValidUTF8]
  rfl

/-- Only the bytes of a text are read as that text. -/
theorem eq_toByteArray_of_fromUTF8? {b : ByteArray} {s : String} (h : String.fromUTF8? b = some s) :
    b = s.toByteArray := by
  unfold String.fromUTF8? at h
  split at h
  · obtain rfl := Option.some.inj h
    rfl
  · cases h

theorem isValidUTF8_append_iff (s : String) (b : ByteArray) :
    (s.toByteArray ++ b).IsValidUTF8 ↔ b.IsValidUTF8 := by
  rw [← String.utf8Encode_toList]
  induction s.toList with
  | nil => simp
  | cons c cs ih =>
    rw [List.utf8Encode_cons, ByteArray.append_assoc, ByteArray.isValidUTF8_utf8Encode_singleton_append_iff]
    exact ih

/-- Behind a text, bytes are read as what they are read as alone. -/
theorem fromUTF8?_append (s : String) (b : ByteArray) :
    String.fromUTF8? (s.toByteArray ++ b) = (String.fromUTF8? b).map (s ++ ·) := by
  rcases hb : String.fromUTF8? b with _ | t
  · have hinvalid : ¬b.IsValidUTF8 := by
      intro hvalid
      rw [String.fromUTF8?, dif_pos hvalid] at hb
      cases hb
    rw [String.fromUTF8?, dif_neg (mt (isValidUTF8_append_iff s b).mp hinvalid)]
    rfl
  · rw [eq_toByteArray_of_fromUTF8? hb, ← String.toByteArray_append, fromUTF8?_toByteArray]
    rfl

/-- A part of the bytes of a text that is itself text is where the text starts. -/
theorem fromUTF8?_cut {s t : String} {b rest : ByteArray} (hs : s.toByteArray = b ++ rest)
    (hb : String.fromUTF8? b = some t) : ∃ r, s = t ++ r ∧ rest = r.toByteArray := by
  rw [eq_toByteArray_of_fromUTF8? hb] at hs
  have hread := fromUTF8?_append t rest
  rw [← hs, fromUTF8?_toByteArray] at hread
  obtain ⟨r, hr, hsr⟩ := Option.map_eq_some_iff.mp hread.symm
  exact ⟨r, hsr.symm, eq_toByteArray_of_fromUTF8? hr⟩

/-- Cutting behind a first part cuts the second. -/
theorem extract_append_size (a b : ByteArray) (n : ℕ) :
    (a ++ b).extract 0 (a.size + n) = a ++ b.extract 0 n := by
  have hsecond : (a ++ b).extract a.size (a.size + n) = b.extract 0 n := by
    have h := ByteArray.extract_append_size_add (a := a) (b := b) (i := 0) (j := n)
    rwa [Nat.add_zero] at h
  rw [ByteArray.extract_eq_extract_append_extract a.size (Nat.zero_le _) (Nat.le_add_right _ _),
    ByteArray.extract_append_eq_left rfl, hsecond]

/-! ## The last byte -/

/-- The byte of an ASCII character stands for that character only. -/
theorem ascii_not_mem_utf8EncodeChar {n : ℕ} (hn : n < 128) {c : Char} (h : c.val.toNat ≠ n) :
    UInt8.ofNat n ∉ String.utf8EncodeChar c := by
  have hbyte : ∀ m : ℕ, m % 256 ≠ n → UInt8.ofNat n ≠ UInt8.ofNat m := by
    intro m hm heq
    have hnat := congrArg UInt8.toNat heq
    simp only [UInt8.toNat_ofNat'] at hnat
    omega
  unfold String.utf8EncodeChar
  dsimp only
  split_ifs <;> simp only [List.mem_cons, List.not_mem_nil, or_false, not_or]
  · exact hbyte _ (by omega)
  · exact ⟨hbyte _ (by omega), hbyte _ (by omega)⟩
  · exact ⟨hbyte _ (by omega), hbyte _ (by omega), hbyte _ (by omega)⟩
  · exact ⟨hbyte _ (by omega), hbyte _ (by omega), hbyte _ (by omega), hbyte _ (by omega)⟩

theorem newline_not_mem_utf8EncodeChar {c : Char} (h : c ≠ '\n') : (10 : UInt8) ∉ String.utf8EncodeChar c :=
  ascii_not_mem_utf8EncodeChar (by decide) fun heq => h (Char.ext (UInt32.toNat_inj.mp heq))

/-- The byte of a newline stands for a newline only. -/
theorem newline_not_mem_toByteArray {s : String} (h : '\n' ∉ s.toList) :
    (10 : UInt8) ∉ s.toByteArray.data.toList := by
  rw [← String.utf8Encode_toList, List.utf8Encode]
  simp only [List.data_toByteArray, List.mem_flatMap, not_exists, not_and]
  intro c hc
  exact newline_not_mem_utf8EncodeChar fun heq => h (heq ▸ hc)

theorem back?_append (a b : ByteArray) : (a ++ b).data.back? = b.data.back?.or a.data.back? := by
  rw [ByteArray.data_append, Array.back?_append]

/-- A part of bytes without `x`, put behind other bytes, ends in `x` only if it is empty. -/
theorem back?_append_extract_ne {a b : ByteArray} {x : UInt8} (hx : x ∉ b.data.toList) (cut : ℕ)
    (ha : a.data.back? ≠ some x ∨ b.extract 0 cut ≠ .empty) :
    (a ++ b.extract 0 cut).data.back? ≠ some x := by
  rw [back?_append]
  rcases hlast : (b.extract 0 cut).data.back? with _ | y
  · have hempty : b.extract 0 cut = .empty := ByteArray.ext (Array.back?_eq_none_iff.mp hlast)
    exact ha.resolve_right fun hne => hne hempty
  · rintro heq
    obtain rfl := Option.some.inj heq
    have hmem : y ∈ (b.extract 0 cut).data := Array.mem_of_back? hlast
    rw [ByteArray.data_extract] at hmem
    obtain ⟨k, hk, heq⟩ := Array.mem_extract_iff_getElem.mp hmem
    exact hx (Array.mem_toList_iff.mpr (heq ▸ Array.getElem_mem _))

/-! ## Bytes that are no text -/

/-- Whether a byte continues a character. -/
def continues (b : Option UInt8) : Bool := b.any fun b => 0x80 ≤ b && b < 0xC0

/-- Whether a byte may be the second one of a character of three or four bytes. -/
def secondByte (first : UInt8) (b : Option UInt8) : Bool :=
  b.any fun b =>
    if first = 0xE0 then 0xA0 ≤ b && b ≤ 0xBF
    else if first = 0xED then 0x80 ≤ b && b ≤ 0x9F
    else if first = 0xF0 then 0x90 ≤ b && b ≤ 0xBF
    else if first = 0xF4 then 0x80 ≤ b && b ≤ 0x8F
    else continues (some b)

/-- How many of the bytes in front are one piece, and whether the piece is a character. What is none is as long as
the start of a character that it could be. -/
def utf8Piece : List UInt8 → ℕ × Bool
  | [] => (0, false)
  | first :: rest =>
    if first < 0x80 then (1, true)
    else if 0xC2 ≤ first ∧ first ≤ 0xDF then if continues rest[0]? then (2, true) else (1, false)
    else if 0xE0 ≤ first ∧ first ≤ 0xEF then
      if secondByte first rest[0]? then if continues rest[1]? then (3, true) else (2, false) else (1, false)
    else if 0xF0 ≤ first ∧ first ≤ 0xF4 then
      if secondByte first rest[0]? then
        if continues rest[1]? then if continues rest[2]? then (4, true) else (3, false) else (2, false)
      else (1, false)
    else (1, false)

/-- The characters of bytes, with a replacement character for each piece that is none. -/
def lossyChars : ℕ → List UInt8 → List Char
  | 0, _ => []
  | fuel + 1, bytes =>
    if bytes = [] then []
    else
      let piece := utf8Piece bytes
      (if piece.2 then ((String.fromUTF8? ⟨(bytes.take piece.1).toArray⟩).getD "").toList else ['\uFFFD']) ++
        lossyChars fuel (bytes.drop piece.1)

/-- `String::from_utf8_lossy`: bytes that are text are that text. -/
def fromUtf8Lossy (b : ByteArray) : String :=
  match String.fromUTF8? b with
  | some s => s
  | none => String.ofList (lossyChars b.size b.data.toList)

theorem fromUtf8Lossy_of_text {b : ByteArray} {s : String} (h : String.fromUTF8? b = some s) : fromUtf8Lossy b = s := by
  rw [fromUtf8Lossy, h]

end Innen.Common
