import Innen.Common.ByteLines

/-!
# Character boundaries

A byte position of a text is at a character boundary iff the text can be cut there into two texts
(`isCharBoundary_iff`). Between two boundaries a text has a slice, and elsewhere it has none
(`slice_eq_some`). Stepping down from a position ends at the last boundary up to it (`retreat_eq_some`).
-/

namespace Innen.Common

@[simp] theorem utf8Bytes_append (cs ds : List Char) : utf8Bytes (cs ++ ds) = utf8Bytes cs ++ utf8Bytes ds :=
  List.flatMap_append

@[simp] theorem length_utf8Bytes (s : String) : (utf8Bytes s.toList).length = s.utf8ByteSize := by
  rw [← toByteArray_data_toList, Array.length_toList]
  rfl

theorem utf8Bytes_inj {s t : String} (h : utf8Bytes s.toList = utf8Bytes t.toList) : s = t := by
  rw [← toByteArray_data_toList, ← toByteArray_data_toList] at h
  exact String.toByteArray_inj.mp (ByteArray.ext (Array.toList_inj.mp h))

/-! ## Boundaries -/

/-- Whether a byte position of a text is between two characters (`str::is_char_boundary`). -/
def isCharBoundary (s : String) (i : ℕ) : Bool :=
  match (utf8Bytes s.toList)[i]? with
  | some b => !continues (some b)
  | none => decide (i = s.utf8ByteSize)

theorem continues_ofNat {n : ℕ} (hn : n < 256) :
    continues (some (UInt8.ofNat n)) = (decide (0x80 ≤ n) && decide (n < 0xC0)) := by
  have hnat : (UInt8.ofNat n).toNat = n := by rw [UInt8.toNat_ofNat', Nat.mod_eq_of_lt hn]
  simp only [continues, Option.any_some, UInt8.le_iff_toNat_le, UInt8.lt_iff_toNat_lt, hnat]
  rfl

theorem continues_first {n : ℕ} (hn : n < 256) (hfirst : n < 0x80 ∨ 0xC0 ≤ n) :
    continues (some (UInt8.ofNat n)) = decide (0 < 0) := by
  rw [continues_ofNat hn]
  rcases hfirst with h | h
  · simp [Nat.not_le.mpr h]
  · simp [Nat.not_lt.mpr h]

theorem continues_later (n i : ℕ) : continues (some (UInt8.ofNat (n % 0x40 + 0x80))) = decide (0 < i + 1) := by
  rw [continues_ofNat (by omega), decide_eq_true (by omega), decide_eq_true (by omega), decide_eq_true (by omega)]
  rfl

/-- The bytes of a character behind its first one continue it. -/
theorem continues_utf8EncodeChar {c : Char} {i : ℕ} (hi : i < (String.utf8EncodeChar c).length) :
    continues (String.utf8EncodeChar c)[i]? = decide (0 < i) := by
  have hmax : c.val.toNat < 0x110000 := by
    rcases c.valid with h | h <;> omega
  unfold String.utf8EncodeChar at hi ⊢
  dsimp only at hi ⊢
  split_ifs at hi ⊢ <;> simp only [List.length_cons, List.length_nil] at hi
  · obtain rfl : i = 0 := by omega
    exact continues_first (by omega) (by omega)
  · obtain rfl | rfl : i = 0 ∨ i = 1 := by omega
    · exact continues_first (by omega) (by omega)
    · exact continues_later _ 0
  · obtain rfl | rfl | rfl : i = 0 ∨ i = 1 ∨ i = 2 := by omega
    · exact continues_first (by omega) (by omega)
    · exact continues_later _ 0
    · exact continues_later _ 1
  · obtain rfl | rfl | rfl | rfl : i = 0 ∨ i = 1 ∨ i = 2 ∨ i = 3 := by omega
    · exact continues_first (by omega) (by omega)
    · exact continues_later _ 0
    · exact continues_later _ 1
    · exact continues_later _ 2

/-- A byte of some characters that continues none is the first one of a character. -/
theorem exists_cut_of_not_continues (cs : List Char) {i : ℕ} {b : UInt8} (hb : (utf8Bytes cs)[i]? = some b)
    (hfirst : continues (some b) = false) : ∃ before later, cs = before ++ later ∧ (utf8Bytes before).length = i := by
  induction cs generalizing i with
  | nil => cases hb
  | cons c cs ih =>
    have hcons : utf8Bytes (c :: cs) = String.utf8EncodeChar c ++ utf8Bytes cs := List.flatMap_cons
    rw [hcons] at hb
    by_cases hi : i < (String.utf8EncodeChar c).length
    · rw [List.getElem?_append_left hi] at hb
      rw [← hb, continues_utf8EncodeChar hi, decide_eq_false_iff_not, Nat.not_lt, Nat.le_zero] at hfirst
      exact ⟨[], c :: cs, rfl, hfirst.symm⟩
    · rw [List.getElem?_append_right (Nat.not_lt.mp hi)] at hb
      obtain ⟨before, later, hcs, hlen⟩ := ih hb
      refine ⟨c :: before, later, by rw [hcs, List.cons_append], ?_⟩
      have hbefore : utf8Bytes (c :: before) = String.utf8EncodeChar c ++ utf8Bytes before := List.flatMap_cons
      rw [hbefore, List.length_append, hlen]
      omega

theorem isCharBoundary_append (t u : String) : isCharBoundary (t ++ u) t.utf8ByteSize = true := by
  have hbytes : (utf8Bytes (t ++ u).toList)[t.utf8ByteSize]? = (utf8Bytes u.toList)[0]? := by
    rw [String.toList_append, utf8Bytes_append, List.getElem?_append_right (by simp)]
    simp
  rw [isCharBoundary, hbytes]
  rcases hu : u.toList with _ | ⟨c, cs⟩
  · obtain rfl : u = "" := String.toList_eq_nil_iff.mp hu
    simp [utf8Bytes]
  · have hpos : 0 < (String.utf8EncodeChar c).length := by
      rw [String.length_utf8EncodeChar]
      exact c.utf8Size_pos
    have hcons : utf8Bytes (c :: cs) = String.utf8EncodeChar c ++ utf8Bytes cs := List.flatMap_cons
    have hfirst := continues_utf8EncodeChar hpos
    rw [hcons, List.getElem?_append_left hpos]
    rw [List.getElem?_eq_getElem hpos] at hfirst ⊢
    simp [hfirst]

/-- At a boundary, and nowhere else, a text can be cut into two texts. -/
theorem isCharBoundary_iff {s : String} {i : ℕ} :
    isCharBoundary s i = true ↔ ∃ t u, s = t ++ u ∧ t.utf8ByteSize = i := by
  constructor
  · intro h
    rw [isCharBoundary] at h
    rcases hb : (utf8Bytes s.toList)[i]? with _ | b
    · rw [hb] at h
      exact ⟨s, "", by simp, (of_decide_eq_true h).symm⟩
    · rw [hb, Bool.not_eq_true'] at h
      obtain ⟨before, later, hs, hlen⟩ := exists_cut_of_not_continues s.toList hb h
      refine ⟨String.ofList before, String.ofList later, ?_, ?_⟩
      · rw [← String.ofList_append, ← hs, String.ofList_toList]
      · rw [← length_utf8Bytes, String.toList_ofList, hlen]
  · rintro ⟨t, u, rfl, rfl⟩
    exact isCharBoundary_append t u

@[simp] theorem isCharBoundary_zero (s : String) : isCharBoundary s 0 = true :=
  isCharBoundary_iff.mpr ⟨"", s, by simp, rfl⟩

@[simp] theorem isCharBoundary_utf8ByteSize (s : String) : isCharBoundary s s.utf8ByteSize = true :=
  isCharBoundary_iff.mpr ⟨s, "", by simp, rfl⟩

/-- Behind a first part, the boundaries of a text are those of its second part. -/
theorem isCharBoundary_append_add (t u : String) (i : ℕ) :
    isCharBoundary (t ++ u) (t.utf8ByteSize + i) = isCharBoundary u i := by
  have hbytes : (utf8Bytes (t ++ u).toList)[t.utf8ByteSize + i]? = (utf8Bytes u.toList)[i]? := by
    rw [String.toList_append, utf8Bytes_append, List.getElem?_append_right (by simp)]
    simp
  rw [isCharBoundary, isCharBoundary, hbytes, String.utf8ByteSize_append]
  simp only [Nat.add_left_cancel_iff]

/-! ## Slices -/

/-- The part of a text between two byte positions (`&s[i..j]`), which panics unless both are boundaries in order. -/
def slice (s : String) (i j : ℕ) : Option String :=
  if i ≤ j ∧ isCharBoundary s i = true ∧ isCharBoundary s j = true then
    String.fromUTF8? ⟨(((utf8Bytes s.toList).drop i).take (j - i)).toArray⟩
  else none

/-- What is behind a first part and in front of a last one is a slice. -/
theorem slice_append (t u v : String) :
    slice (t ++ u ++ v) t.utf8ByteSize (t.utf8ByteSize + u.utf8ByteSize) = some u := by
  have hstart : isCharBoundary (t ++ u ++ v) t.utf8ByteSize = true := by
    rw [String.append_assoc]
    exact isCharBoundary_append t (u ++ v)
  have hend : isCharBoundary (t ++ u ++ v) (t.utf8ByteSize + u.utf8ByteSize) = true := by
    rw [← String.utf8ByteSize_append]
    exact isCharBoundary_append (t ++ u) v
  have hbytes : ((utf8Bytes (t ++ u ++ v).toList).drop t.utf8ByteSize).take
      (t.utf8ByteSize + u.utf8ByteSize - t.utf8ByteSize) = utf8Bytes u.toList := by
    rw [String.append_assoc, String.toList_append, utf8Bytes_append, List.drop_left' (length_utf8Bytes t),
      String.toList_append, utf8Bytes_append, List.take_left' (by simp)]
  have hread : (⟨(utf8Bytes u.toList).toArray⟩ : ByteArray) = u.toByteArray :=
    ByteArray.ext (Array.toList_inj.mp (by rw [toByteArray_data_toList]))
  rw [slice, if_pos ⟨Nat.le_add_right _ _, hstart, hend⟩, hbytes, hread, fromUTF8?_toByteArray]

/-- A text has a slice exactly where it is a first part, the slice and a last part. -/
theorem slice_eq_some {s u : String} {i j : ℕ} :
    slice s i j = some u ↔ ∃ t v, s = t ++ u ++ v ∧ t.utf8ByteSize = i ∧ i + u.utf8ByteSize = j := by
  constructor
  · intro h
    have hrange : i ≤ j ∧ isCharBoundary s i = true ∧ isCharBoundary s j = true := by
      by_contra hnot
      rw [slice, if_neg hnot] at h
      cases h
    obtain ⟨hle, hi, hj⟩ := hrange
    obtain ⟨t, rest, rfl, rfl⟩ := isCharBoundary_iff.mp hi
    rw [← Nat.add_sub_of_le hle, isCharBoundary_append_add] at hj
    obtain ⟨u', v, rfl, hu'⟩ := isCharBoundary_iff.mp hj
    have hslice := slice_append t u' v
    rw [String.append_assoc, hu', Nat.add_sub_of_le hle, h] at hslice
    obtain rfl := Option.some.inj hslice
    exact ⟨t, v, (String.append_assoc).symm, rfl, by omega⟩
  · rintro ⟨t, v, rfl, rfl, rfl⟩
    exact slice_append t u v

/-! ## Stepping down -/

/-- Step down to a number that will do (`while !ok(n) { n -= 1 }`). There is no step below 0. -/
def retreat (ok : ℕ → Bool) : ℕ → Option ℕ
  | 0 => if ok 0 then some 0 else none
  | n + 1 => if ok (n + 1) then some (n + 1) else retreat ok n

/-- The largest number up to the given one that will do. -/
theorem retreat_eq_some {ok : ℕ → Bool} {m n : ℕ} (hmn : m ≤ n) (hm : ok m = true)
    (hmax : ∀ k, k ≤ n → ok k = true → k ≤ m) : retreat ok n = some m := by
  induction n with
  | zero =>
    obtain rfl : m = 0 := Nat.le_zero.mp hmn
    rw [retreat, if_pos hm]
  | succ n ih =>
    rw [retreat]
    split_ifs with hok
    · rw [Nat.le_antisymm (hmax _ le_rfl hok) hmn]
    · have hne : m ≠ n + 1 := fun heq => hok (heq ▸ hm)
      exact ih (by omega) fun k hk => hmax k (by omega)

end Innen.Common
