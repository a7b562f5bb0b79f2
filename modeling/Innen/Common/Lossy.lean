import Innen.Common.Boundaries

/-!
# Lossy decoding by lines

Decoding with replacement characters does not look past a newline: the text of bytes around a newline is the text of each
side around a newline (`lossyOf_newline`). Bytes that are text give that text (`lossyOf_utf8Bytes`), so the same holds of
`fromUtf8Lossy` (`toList_fromUtf8Lossy`).
-/

namespace Innen.Common

/-- The characters of bytes, with replacement characters. -/
def lossyOf (bytes : List UInt8) : List Char := lossyChars bytes.length bytes

/-- The characters of a piece. -/
def pieceChars (bytes : List UInt8) : List Char :=
  if (utf8Piece bytes).2 then ((String.fromUTF8? ⟨(bytes.take (utf8Piece bytes).1).toArray⟩).getD "").toList
  else ['\uFFFD']

theorem secondByte_none (first : UInt8) : secondByte first none = false := rfl

theorem continues_none : continues none = false := rfl

/-- A piece has a byte at least, and not more than there are. -/
theorem utf8Piece_bounds {bytes : List UInt8} (h : bytes ≠ []) :
    0 < (utf8Piece bytes).1 ∧ (utf8Piece bytes).1 ≤ bytes.length := by
  obtain ⟨first, rest, rfl⟩ := List.exists_cons_of_ne_nil h
  rw [List.length_cons]
  rcases rest with _ | ⟨b, _ | ⟨c, _ | ⟨d, rest⟩⟩⟩ <;>
    simp only [utf8Piece, List.getElem?_nil, List.getElem?_cons_zero, List.getElem?_cons_succ, secondByte_none,
      continues_none, List.length_nil, List.length_cons, Bool.false_eq_true, if_false] <;>
    split_ifs <;> dsimp only <;> omega

theorem lossyChars_succ {fuel : ℕ} {bytes : List UInt8} (h : bytes ≠ []) :
    lossyChars (fuel + 1) bytes = pieceChars bytes ++ lossyChars fuel (bytes.drop (utf8Piece bytes).1) := by
  rw [lossyChars, if_neg h]
  rfl

theorem lossyChars_of_le {fuel : ℕ} {bytes : List UInt8} (h : bytes.length ≤ fuel) :
    lossyChars fuel bytes = lossyOf bytes := by
  induction hsize : bytes.length using Nat.strong_induction_on generalizing fuel bytes with
  | _ size ih =>
  by_cases hnil : bytes = []
  · rw [hnil, lossyOf, List.length_nil, lossyChars]
    cases fuel with
    | zero => rfl
    | succ fuel => rw [lossyChars, if_pos rfl]
  · obtain ⟨hpos, hle⟩ := utf8Piece_bounds hnil
    have hlen := List.length_pos_iff.mpr hnil
    obtain ⟨fuel, rfl⟩ := Nat.exists_eq_succ_of_ne_zero (show fuel ≠ 0 by omega)
    obtain ⟨n, hn⟩ := Nat.exists_eq_succ_of_ne_zero (show bytes.length ≠ 0 by omega)
    have hdrop : (bytes.drop (utf8Piece bytes).1).length = bytes.length - (utf8Piece bytes).1 := List.length_drop
    rw [lossyOf, hn, lossyChars_succ hnil, lossyChars_succ hnil,
      ih _ (by omega) (show (bytes.drop (utf8Piece bytes).1).length ≤ fuel by omega) rfl,
      ih _ (by omega) (show (bytes.drop (utf8Piece bytes).1).length ≤ n by omega) rfl]

theorem lossyOf_nil : lossyOf [] = [] := rfl

/-- The first piece, and the rest. -/
theorem lossyOf_eq {bytes : List UInt8} (h : bytes ≠ []) :
    lossyOf bytes = pieceChars bytes ++ lossyOf (bytes.drop (utf8Piece bytes).1) := by
  obtain ⟨hpos, hle⟩ := utf8Piece_bounds h
  obtain ⟨n, hn⟩ := Nat.exists_eq_succ_of_ne_zero (show bytes.length ≠ 0 by omega)
  have hdrop : (bytes.drop (utf8Piece bytes).1).length = bytes.length - (utf8Piece bytes).1 := List.length_drop
  rw [lossyOf, hn, lossyChars_succ h, lossyChars_of_le (by omega)]

/-! ## Text -/

theorem continues_iff {b : UInt8} : continues (some b) = true ↔ 0x80 ≤ b.toNat ∧ b.toNat < 0xC0 := by
  simp only [continues, Option.any_some, Bool.and_eq_true, decide_eq_true_eq, UInt8.le_iff_toNat_le,
    UInt8.lt_iff_toNat_lt, UInt8.reduceToNat]

theorem secondByte_iff {a b : UInt8} : secondByte a (some b) = true ↔ 0x80 ≤ b.toNat ∧ b.toNat < 0xC0 ∧
    (a.toNat = 0xE0 → 0xA0 ≤ b.toNat) ∧ (a.toNat = 0xED → b.toNat ≤ 0x9F) ∧
    (a.toNat = 0xF0 → 0x90 ≤ b.toNat) ∧ (a.toNat = 0xF4 → b.toNat ≤ 0x8F) := by
  simp only [secondByte, Option.any_some, ← UInt8.toNat_inj, UInt8.reduceToNat]
  split_ifs <;>
    simp only [continues_iff, Bool.and_eq_true, decide_eq_true_eq, UInt8.le_iff_toNat_le, UInt8.reduceToNat] <;> omega

theorem utf8Piece_one {a : UInt8} (ha : a.toNat < 0x80) (rest : List UInt8) : utf8Piece (a :: rest) = (1, true) := by
  rw [utf8Piece, if_pos (UInt8.lt_iff_toNat_lt.mpr ha)]

theorem utf8Piece_two {a b : UInt8} (ha : 0xC2 ≤ a.toNat ∧ a.toNat ≤ 0xDF) (hb : continues (some b) = true)
    (rest : List UInt8) : utf8Piece (a :: b :: rest) = (2, true) := by
  simp only [utf8Piece, UInt8.lt_iff_toNat_lt, UInt8.le_iff_toNat_le, UInt8.reduceToNat, List.getElem?_cons_zero, hb]
  rw [if_neg (by omega), if_pos (by omega), if_pos trivial]

theorem utf8Piece_three {a b c : UInt8} (ha : 0xE0 ≤ a.toNat ∧ a.toNat ≤ 0xEF) (hb : secondByte a (some b) = true)
    (hc : continues (some c) = true) (rest : List UInt8) : utf8Piece (a :: b :: c :: rest) = (3, true) := by
  simp only [utf8Piece, UInt8.lt_iff_toNat_lt, UInt8.le_iff_toNat_le, UInt8.reduceToNat, List.getElem?_cons_zero,
    List.getElem?_cons_succ, hb, hc]
  rw [if_neg (by omega), if_neg (by omega), if_pos (by omega), if_pos trivial, if_pos trivial]

theorem utf8Piece_four {a b c d : UInt8} (ha : 0xF0 ≤ a.toNat ∧ a.toNat ≤ 0xF4) (hb : secondByte a (some b) = true)
    (hc : continues (some c) = true) (hd : continues (some d) = true) (rest : List UInt8) :
    utf8Piece (a :: b :: c :: d :: rest) = (4, true) := by
  simp only [utf8Piece, UInt8.lt_iff_toNat_lt, UInt8.le_iff_toNat_le, UInt8.reduceToNat, List.getElem?_cons_zero,
    List.getElem?_cons_succ, hb, hc, hd]
  rw [if_neg (by omega), if_neg (by omega), if_neg (by omega), if_pos (by omega), if_pos trivial, if_pos trivial,
    if_pos trivial]

theorem toNat_ofNat_of_lt {n : ℕ} (h : n < 256) : (UInt8.ofNat n).toNat = n := by
  rw [UInt8.toNat_ofNat', Nat.mod_eq_of_lt h]

/-- The bytes of a character are one piece. -/
theorem utf8Piece_encode (c : Char) (rest : List UInt8) :
    utf8Piece (String.utf8EncodeChar c ++ rest) = ((String.utf8EncodeChar c).length, true) := by
  have hvalid : c.val.toNat < 0xD800 ∨ 0xDFFF < c.val.toNat ∧ c.val.toNat < 0x110000 := c.valid
  have hlater : ∀ n, continues (some (UInt8.ofNat (n % 64 + 128))) = true := fun n => by
    rw [continues_iff, toNat_ofNat_of_lt (by omega)]
    omega
  unfold String.utf8EncodeChar
  dsimp only
  generalize c.val.toNat = v at hvalid
  split_ifs with h1 h2 h3
  · exact utf8Piece_one (by rw [toNat_ofNat_of_lt (by omega)]; omega) rest
  · refine utf8Piece_two ?_ (hlater _) rest
    rw [toNat_ofNat_of_lt (by omega)]
    omega
  · refine utf8Piece_three ?_ ?_ (hlater _) rest
    · rw [toNat_ofNat_of_lt (by omega)]
      omega
    · rw [secondByte_iff, toNat_ofNat_of_lt (by omega), toNat_ofNat_of_lt (by omega)]
      omega
  · refine utf8Piece_four ?_ ?_ (hlater _) (hlater _) rest
    · rw [toNat_ofNat_of_lt (by omega)]
      omega
    · rw [secondByte_iff, toNat_ofNat_of_lt (by omega), toNat_ofNat_of_lt (by omega)]
      omega

theorem fromUTF8?_encode (c : Char) : String.fromUTF8? ⟨(String.utf8EncodeChar c).toArray⟩ = some (String.ofList [c]) := by
  have hbytes : (⟨(String.utf8EncodeChar c).toArray⟩ : ByteArray) = (String.ofList [c]).toByteArray := by
    refine ByteArray.ext (Array.toList_inj.mp ?_)
    rw [toByteArray_data_toList, String.toList_ofList]
    simp [utf8Bytes]
  rw [hbytes, fromUTF8?_toByteArray]

/-- Bytes that are text give that text. -/
theorem lossyOf_utf8Bytes (cs : List Char) : lossyOf (utf8Bytes cs) = cs := by
  induction cs with
  | nil => rfl
  | cons c cs ih =>
    have hcons : utf8Bytes (c :: cs) = String.utf8EncodeChar c ++ utf8Bytes cs := List.flatMap_cons
    have hne : utf8Bytes (c :: cs) ≠ [] := fun h =>
      utf8EncodeChar_ne_nil c (List.append_eq_nil_iff.mp (hcons.symm.trans h)).1
    rw [lossyOf_eq hne, pieceChars, hcons, utf8Piece_encode]
    dsimp only
    rw [if_pos rfl, List.take_left, List.drop_left, fromUTF8?_encode, ih, Option.getD_some, String.toList_ofList]
    rfl

/-- The text of bytes is their lossy decoding. -/
theorem toList_fromUtf8Lossy (b : ByteArray) : (fromUtf8Lossy b).toList = lossyOf b.data.toList := by
  rw [fromUtf8Lossy]
  rcases hb : String.fromUTF8? b with _ | s
  · dsimp only
    rw [String.toList_ofList, lossyOf, Array.length_toList]
    rfl
  · dsimp only
    rw [eq_toByteArray_of_fromUTF8? hb, toByteArray_data_toList, lossyOf_utf8Bytes]

/-! ## Newlines -/

theorem continues_newline : continues (some 10) = false := by decide

theorem secondByte_newline (first : UInt8) : secondByte first (some 10) = false := by
  rw [Bool.eq_false_iff]
  intro h
  exact absurd (secondByte_iff.mp h).1 (by decide)

/-- A piece ends in front of a newline. -/
theorem utf8Piece_newline {bytes : List UInt8} (h : bytes ≠ []) (more : List UInt8) :
    utf8Piece (bytes ++ 10 :: more) = utf8Piece bytes := by
  obtain ⟨first, rest, rfl⟩ := List.exists_cons_of_ne_nil h
  rcases rest with _ | ⟨b, _ | ⟨c, _ | ⟨d, rest⟩⟩⟩ <;>
    simp only [List.cons_append, List.nil_append, utf8Piece, List.getElem?_nil, List.getElem?_cons_zero,
      List.getElem?_cons_succ, secondByte_none, continues_none, secondByte_newline, continues_newline,
      Bool.false_eq_true, if_false]

theorem pieceChars_newline {bytes : List UInt8} (h : bytes ≠ []) (more : List UInt8) :
    pieceChars (bytes ++ 10 :: more) = pieceChars bytes := by
  rw [pieceChars, utf8Piece_newline h, List.take_append_of_le_length (utf8Piece_bounds h).2, pieceChars]

/-- Around a newline each side is decoded by itself. -/
theorem lossyOf_newline (bytes more : List UInt8) :
    lossyOf (bytes ++ 10 :: more) = lossyOf bytes ++ '\n' :: lossyOf more := by
  induction hsize : bytes.length using Nat.strong_induction_on generalizing bytes with
  | _ size ih =>
  by_cases hnil : bytes = []
  · rw [hnil, List.nil_append, lossyOf_eq (List.cons_ne_nil 10 more), pieceChars, utf8Piece_one (by decide)]
    dsimp only
    rw [if_pos rfl, List.take_succ_cons, List.take_zero, List.drop_succ_cons, List.drop_zero]
    exact congrArg (fun s : Option String => (s.getD "").toList ++ lossyOf more) (fromUTF8?_encode '\n')
  · obtain ⟨hpos, hle⟩ := utf8Piece_bounds hnil
    have hlen : (bytes.drop (utf8Piece bytes).1).length = bytes.length - (utf8Piece bytes).1 := List.length_drop
    rw [lossyOf_eq (by simp), pieceChars_newline hnil, utf8Piece_newline hnil, List.drop_append_of_le_length hle,
      ih _ (by omega) _ rfl, lossyOf_eq hnil, List.append_assoc]

/-- There is a newline in the text only if there is one in the bytes. -/
theorem newline_not_mem_lossyOf {bytes : List UInt8} (h : 10 ∉ bytes) : '\n' ∉ lossyOf bytes := by
  induction hsize : bytes.length using Nat.strong_induction_on generalizing bytes with
  | _ size ih =>
  by_cases hnil : bytes = []
  · rw [hnil]
    exact List.not_mem_nil
  · obtain ⟨hpos, hle⟩ := utf8Piece_bounds hnil
    have hlen : (bytes.drop (utf8Piece bytes).1).length = bytes.length - (utf8Piece bytes).1 := List.length_drop
    rw [lossyOf_eq hnil, List.mem_append]
    rintro (hmem | hmem)
    · rw [pieceChars] at hmem
      split_ifs at hmem
      · rcases hread : String.fromUTF8? ⟨(bytes.take (utf8Piece bytes).1).toArray⟩ with _ | s
        · rw [hread] at hmem
          exact absurd hmem List.not_mem_nil
        · rw [hread] at hmem
          have hbytes := congrArg (fun b => b.data.toList) (eq_toByteArray_of_fromUTF8? hread)
          dsimp only at hbytes
          rw [toByteArray_data_toList] at hbytes
          have hnewline : (10 : UInt8) ∈ utf8Bytes s.toList :=
            List.mem_flatMap.mpr ⟨'\n', hmem, by decide⟩
          rw [← hbytes] at hnewline
          exact h (List.mem_of_mem_take hnewline)
      · exact absurd (List.mem_singleton.mp hmem) (by decide)
    · exact ih _ (by omega) (fun hten => h (List.mem_of_mem_drop hten)) rfl hmem

end Innen.Common
