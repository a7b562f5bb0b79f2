import Innen.Common.Boundaries
import Innen.Conversation.Deltas

/-!
# Edges by bytes

The edges of two texts are counted in bytes, and then cut back to where both texts have a character
boundary. What comes out are the longest common start and end in whole characters (`edgeCuts_eq`), so all
the slices exist and the two edges do not overlap (`edgeCuts_valid`).
-/

namespace Innen.Conversation

open Innen.Common

/-! ## Counting bytes -/

/-- How many bytes two lists have in common at their start. -/
def commonBytes (as bs : List UInt8) : ℕ := ((as.zip bs).takeWhile fun p => p.1 == p.2).length

/-- `edges`: how many bytes two texts have in common at their start, and of what is left at their end. -/
def edgeCuts (a b : String) : Option (ℕ × ℕ) := do
  let prefixLen ← retreat (fun i => isCharBoundary a i && isCharBoundary b i)
    (commonBytes (utf8Bytes a.toList) (utf8Bytes b.toList))
  let aRest ← slice a prefixLen a.utf8ByteSize
  let bRest ← slice b prefixLen b.utf8ByteSize
  let suffixLen ← retreat (fun i => isCharBoundary a (a.utf8ByteSize - i) && isCharBoundary b (b.utf8ByteSize - i))
    (commonBytes (utf8Bytes aRest.toList).reverse (utf8Bytes bRest.toList).reverse)
  return (prefixLen, suffixLen)

theorem le_commonBytes {as bs : List UInt8} {k : ℕ} :
    k ≤ commonBytes as bs ↔ k ≤ as.length ∧ k ≤ bs.length ∧ as.take k = bs.take k := by
  induction as generalizing bs k with
  | nil =>
    simp only [commonBytes, List.zip_nil_left, List.takeWhile_nil, List.length_nil, Nat.le_zero]
    refine ⟨fun h => ⟨h, by omega, by rw [h]; rfl⟩, And.left⟩
  | cons a as ih =>
    cases bs with
    | nil =>
      simp only [commonBytes, List.zip_nil_right, List.takeWhile_nil, List.length_nil, Nat.le_zero]
      refine ⟨fun h => ⟨by omega, h, by rw [h]; rfl⟩, fun h => h.2.1⟩
    | cons b bs =>
      cases k with
      | zero => simp
      | succ k =>
        by_cases hab : a = b
        · have hstep : commonBytes (a :: as) (b :: bs) = commonBytes as bs + 1 := by
            simp [commonBytes, hab]
          rw [hstep, Nat.add_le_add_iff_right, ih]
          simp [hab]
        · have hstep : commonBytes (a :: as) (b :: bs) = 0 := by
            simp [commonBytes, hab]
          simp [hstep, hab]

/-! ## Whole characters -/

theorem prefix_commonStart {cs as bs : List Char} (ha : cs <+: as) (hb : cs <+: bs) : cs <+: commonStart as bs := by
  induction cs generalizing as bs with
  | nil => exact List.nil_prefix
  | cons c cs ih =>
    obtain ⟨a, as, rfl⟩ := List.exists_cons_of_ne_nil (List.IsPrefix.ne_nil ha (List.cons_ne_nil c cs))
    obtain ⟨b, bs, rfl⟩ := List.exists_cons_of_ne_nil (List.IsPrefix.ne_nil hb (List.cons_ne_nil c cs))
    obtain ⟨rfl, hcs⟩ := List.cons_prefix_cons.mp ha
    obtain ⟨rfl, hds⟩ := List.cons_prefix_cons.mp hb
    rw [commonStart, if_pos rfl]
    exact List.cons_prefix_cons.mpr ⟨rfl, ih hcs hds⟩

/-- Texts that start with the same bytes up to a boundary of both start with the same text. -/
theorem eq_of_take_eq {t t' u u' : String} (hsize : t.utf8ByteSize = t'.utf8ByteSize)
    (htake : (utf8Bytes (t ++ u).toList).take t.utf8ByteSize = (utf8Bytes (t' ++ u').toList).take t.utf8ByteSize) :
    t = t' := by
  rw [String.toList_append, utf8Bytes_append, List.take_left' (length_utf8Bytes t), String.toList_append,
    utf8Bytes_append, hsize, List.take_left' (length_utf8Bytes t')] at htake
  exact utf8Bytes_inj htake

/-! ## The two loops -/

/-- The loop for the start of two texts ends at their longest common start in whole characters. -/
theorem retreat_start {a b start aRest bRest : String} (ha : a = start ++ aRest) (hb : b = start ++ bRest)
    (hmax : ∀ t u u', a = t ++ u → b = t ++ u' → t.utf8ByteSize ≤ start.utf8ByteSize) :
    retreat (fun i => isCharBoundary a i && isCharBoundary b i)
      (commonBytes (utf8Bytes a.toList) (utf8Bytes b.toList)) = some start.utf8ByteSize := by
  refine retreat_eq_some (le_commonBytes.mpr ?_) ?_ ?_
  · rw [ha, hb, length_utf8Bytes, length_utf8Bytes, String.toList_append, String.toList_append, utf8Bytes_append,
      utf8Bytes_append, List.take_left' (length_utf8Bytes start), List.take_left' (length_utf8Bytes start),
      String.utf8ByteSize_append, String.utf8ByteSize_append]
    exact ⟨Nat.le_add_right _ _, Nat.le_add_right _ _, rfl⟩
  · rw [ha, hb, isCharBoundary_append, isCharBoundary_append, Bool.and_self]
  · intro k hk hok
    obtain ⟨hka, hkb⟩ := Bool.and_eq_true_iff.mp hok
    obtain ⟨t, u, htu, rfl⟩ := isCharBoundary_iff.mp hka
    obtain ⟨t', u', htu', hsize⟩ := isCharBoundary_iff.mp hkb
    have htake := (le_commonBytes.mp hk).2.2
    rw [htu, htu'] at htake
    obtain rfl := eq_of_take_eq hsize.symm htake
    exact hmax t u u' htu htu'

/-- The bytes at the end of a text, counted from behind. -/
theorem take_reverse_utf8Bytes (t u : String) :
    (utf8Bytes (t ++ u).toList).reverse.take u.utf8ByteSize = (utf8Bytes u.toList).reverse := by
  rw [String.toList_append, utf8Bytes_append, List.reverse_append, List.take_left' (by simp)]

/-- The loop for the end of two texts stays behind their common start, and ends at the longest common end in whole
characters of what is left. -/
theorem retreat_end (start : String) {aRest bRest aMiddle bMiddle ending : String} (ha : aRest = aMiddle ++ ending)
    (hb : bRest = bMiddle ++ ending)
    (hmax : ∀ t u u', aRest = u ++ t → bRest = u' ++ t → t.utf8ByteSize ≤ ending.utf8ByteSize) :
    retreat (fun i => isCharBoundary (start ++ aRest) ((start ++ aRest).utf8ByteSize - i) &&
        isCharBoundary (start ++ bRest) ((start ++ bRest).utf8ByteSize - i))
      (commonBytes (utf8Bytes aRest.toList).reverse (utf8Bytes bRest.toList).reverse) = some ending.utf8ByteSize := by
  -- Seen from behind, a boundary of the whole text is one of its rest.
  have hbehind : ∀ {rest : String} {k : ℕ}, k ≤ rest.utf8ByteSize →
      isCharBoundary (start ++ rest) ((start ++ rest).utf8ByteSize - k) =
        isCharBoundary rest (rest.utf8ByteSize - k) := by
    intro rest k hk
    rw [String.utf8ByteSize_append, Nat.add_sub_assoc hk, isCharBoundary_append_add]
  have hat : ∀ middle : String, isCharBoundary (middle ++ ending)
      ((middle ++ ending).utf8ByteSize - ending.utf8ByteSize) = true := by
    intro middle
    rw [String.utf8ByteSize_append, Nat.add_sub_cancel, isCharBoundary_append]
  have hle : ∀ middle : String, ending.utf8ByteSize ≤ (middle ++ ending).utf8ByteSize := by
    intro middle
    rw [String.utf8ByteSize_append]
    exact Nat.le_add_left _ _
  refine retreat_eq_some (le_commonBytes.mpr ?_) ?_ ?_
  · rw [ha, hb, take_reverse_utf8Bytes, take_reverse_utf8Bytes, List.length_reverse, List.length_reverse,
      length_utf8Bytes, length_utf8Bytes]
    exact ⟨hle aMiddle, hle bMiddle, rfl⟩
  · rw [hbehind (ha ▸ hle aMiddle), hbehind (hb ▸ hle bMiddle), ha, hb, hat, hat, Bool.and_self]
  · intro k hk hok
    obtain ⟨hka, hkb, htake⟩ := le_commonBytes.mp hk
    rw [List.length_reverse, length_utf8Bytes] at hka hkb
    obtain ⟨hoka, hokb⟩ := Bool.and_eq_true_iff.mp hok
    rw [hbehind hka] at hoka
    rw [hbehind hkb] at hokb
    obtain ⟨u, t, htu, hu⟩ := isCharBoundary_iff.mp hoka
    obtain ⟨u', t', htu', hu'⟩ := isCharBoundary_iff.mp hokb
    rw [htu, String.utf8ByteSize_append] at hka hu
    rw [htu', String.utf8ByteSize_append] at hkb hu'
    obtain rfl : t.utf8ByteSize = k := by omega
    have hsize : t'.utf8ByteSize = t.utf8ByteSize := by omega
    have hright := take_reverse_utf8Bytes u' t'
    rw [hsize] at hright
    rw [htu, htu', take_reverse_utf8Bytes, hright] at htake
    obtain rfl := utf8Bytes_inj (List.reverse_injective htake)
    exact hmax t u u' htu htu'

/-! ## The longest edges -/

/-- The common start of two texts is a start of both, and none is longer. -/
theorem commonStart_spec (a b : String) : ∃ aRest bRest,
    a = String.ofList (commonStart a.toList b.toList) ++ aRest ∧
    b = String.ofList (commonStart a.toList b.toList) ++ bRest ∧
    ∀ t u u', a = t ++ u → b = t ++ u' →
      t.utf8ByteSize ≤ (String.ofList (commonStart a.toList b.toList)).utf8ByteSize := by
  obtain ⟨⟨as, ha⟩, ⟨bs, hb⟩⟩ := commonStart_prefix a.toList b.toList
  refine ⟨String.ofList as, String.ofList bs, ?_, ?_, ?_⟩
  · rw [← String.ofList_append, ha, String.ofList_toList]
  · rw [← String.ofList_append, hb, String.ofList_toList]
  · intro t u u' hta htb
    obtain ⟨more, hmore⟩ : t.toList <+: commonStart a.toList b.toList :=
      prefix_commonStart ⟨u.toList, by rw [hta, String.toList_append]⟩ ⟨u'.toList, by rw [htb, String.toList_append]⟩
    rw [← hmore, String.ofList_append, String.ofList_toList, String.utf8ByteSize_append]
    exact Nat.le_add_right _ _

/-- What two texts have in common at their end, in whole characters. -/
def commonEnd (a b : String) : String := String.ofList (commonStart a.toList.reverse b.toList.reverse).reverse

/-- The common end of two texts is an end of both, and none is longer. -/
theorem commonEnd_spec (a b : String) : ∃ aMiddle bMiddle,
    a = aMiddle ++ commonEnd a b ∧ b = bMiddle ++ commonEnd a b ∧
    ∀ t u u', a = u ++ t → b = u' ++ t → t.utf8ByteSize ≤ (commonEnd a b).utf8ByteSize := by
  obtain ⟨ha, hb⟩ := commonStart_prefix a.toList.reverse b.toList.reverse
  rw [← List.reverse_suffix, List.reverse_reverse] at ha hb
  obtain ⟨as, ha⟩ := ha
  obtain ⟨bs, hb⟩ := hb
  refine ⟨String.ofList as, String.ofList bs, ?_, ?_, ?_⟩
  · rw [commonEnd, ← String.ofList_append, ha, String.ofList_toList]
  · rw [commonEnd, ← String.ofList_append, hb, String.ofList_toList]
  · intro t u u' hta htb
    obtain ⟨more, hmore⟩ : t.toList.reverse <+: commonStart a.toList.reverse b.toList.reverse :=
      prefix_commonStart (List.reverse_prefix.mpr ⟨u.toList, by rw [hta, String.toList_append]⟩)
        (List.reverse_prefix.mpr ⟨u'.toList, by rw [htb, String.toList_append]⟩)
    rw [commonEnd, ← hmore, List.reverse_append, List.reverse_reverse, String.ofList_append, String.ofList_toList,
      String.utf8ByteSize_append]
    exact Nat.le_add_left _ _

/-- Two texts are their edges and what is between them, and the edges are counted in bytes. -/
theorem edgeCuts_spec (a b : String) : ∃ aMiddle bMiddle,
    a = String.ofList (edges a b).1 ++ aMiddle ++ String.ofList (edges a b).2 ∧
    b = String.ofList (edges a b).1 ++ bMiddle ++ String.ofList (edges a b).2 ∧
    edgeCuts a b = some (byteLen (edges a b).1, byteLen (edges a b).2) := by
  obtain ⟨aRest, bRest, ha, hb, hstart⟩ := commonStart_spec a b
  obtain ⟨aMiddle, bMiddle, hamid, hbmid, hend⟩ := commonEnd_spec aRest bRest
  have hrest : ∀ {s rest : String}, s = String.ofList (commonStart a.toList b.toList) ++ rest →
      s.toList.drop (commonStart a.toList b.toList).length = rest.toList := by
    intro s rest h
    rw [h, String.toList_append, String.toList_ofList, List.drop_left]
  have hedges : edges a b = (commonStart a.toList b.toList, (commonEnd aRest bRest).toList) := by
    rw [edges, hrest ha, hrest hb, commonEnd, String.toList_ofList]
  have hslice : ∀ {s rest : String}, s = String.ofList (commonStart a.toList b.toList) ++ rest →
      slice s (byteLen (commonStart a.toList b.toList)) s.utf8ByteSize = some rest := by
    intro s rest h
    refine slice_eq_some.mpr ⟨_, "", h.trans (String.append_empty).symm, rfl, ?_⟩
    rw [h, String.utf8ByteSize_append, byteLen]
  have hcut := retreat_end (String.ofList (commonStart a.toList b.toList)) hamid hbmid hend
  rw [← ha, ← hb] at hcut
  rw [hedges, String.ofList_toList]
  refine ⟨aMiddle, bMiddle, ?_, ?_, ?_⟩
  · rw [String.append_assoc, ← hamid, ← ha]
  · rw [String.append_assoc, ← hbmid, ← hb]
  · have hprefix := retreat_start ha hb hstart
    simp only [edgeCuts, hprefix, Option.bind_eq_bind, Option.bind_some]
    rw [← byteLen, hslice ha, Option.bind_some, hslice hb, Option.bind_some, hcut, Option.bind_some, byteLen,
      byteLen, String.ofList_toList]
    rfl

/-- The edges of two texts are cut at character boundaries of both, do not overlap, and are the same text in both. All
the slices exist, and the edges of the one text make up the other one around its own middle. -/
theorem edgeCuts_valid (a b : String) : ∃ prefixLen suffixLen, edgeCuts a b = some (prefixLen, suffixLen) ∧
    (∀ s ∈ [a, b], isCharBoundary s prefixLen = true ∧ isCharBoundary s (s.utf8ByteSize - suffixLen) = true ∧
      prefixLen + suffixLen ≤ s.utf8ByteSize) ∧
    ∃ start ending aMiddle bMiddle,
      slice a 0 prefixLen = some start ∧ slice b 0 prefixLen = some start ∧
      slice a (a.utf8ByteSize - suffixLen) a.utf8ByteSize = some ending ∧
      slice b (b.utf8ByteSize - suffixLen) b.utf8ByteSize = some ending ∧
      slice a prefixLen (a.utf8ByteSize - suffixLen) = some aMiddle ∧
      slice b prefixLen (b.utf8ByteSize - suffixLen) = some bMiddle ∧
      a = start ++ aMiddle ++ ending ∧ b = start ++ bMiddle ++ ending := by
  obtain ⟨aMiddle, bMiddle, ha, hb, hcuts⟩ := edgeCuts_spec a b
  rw [byteLen, byteLen] at hcuts
  generalize String.ofList (edges a b).1 = start at ha hb hcuts
  generalize String.ofList (edges a b).2 = ending at ha hb hcuts
  have hsize : ∀ middle : String, (start ++ middle ++ ending).utf8ByteSize - ending.utf8ByteSize =
      start.utf8ByteSize + middle.utf8ByteSize := by
    intro middle
    rw [String.utf8ByteSize_append, String.utf8ByteSize_append, Nat.add_sub_cancel]
  have hfirst : ∀ middle : String, slice (start ++ middle ++ ending) 0 start.utf8ByteSize = some start := fun middle =>
    slice_eq_some.mpr ⟨"", middle ++ ending, by simp [String.append_assoc], rfl, by simp⟩
  have hlast : ∀ middle : String, slice (start ++ middle ++ ending) (start.utf8ByteSize + middle.utf8ByteSize)
      (start ++ middle ++ ending).utf8ByteSize = some ending := fun middle =>
    slice_eq_some.mpr ⟨start ++ middle, "", by simp, by simp, by simp⟩
  have hvalid : ∀ middle : String, isCharBoundary (start ++ middle ++ ending) start.utf8ByteSize = true ∧
      isCharBoundary (start ++ middle ++ ending) (start.utf8ByteSize + middle.utf8ByteSize) = true ∧
      start.utf8ByteSize + ending.utf8ByteSize ≤ (start ++ middle ++ ending).utf8ByteSize := by
    intro middle
    refine ⟨?_, ?_, ?_⟩
    · rw [String.append_assoc]
      exact isCharBoundary_append _ _
    · rw [← String.utf8ByteSize_append]
      exact isCharBoundary_append _ _
    · rw [String.utf8ByteSize_append, String.utf8ByteSize_append]
      omega
  refine ⟨start.utf8ByteSize, ending.utf8ByteSize, hcuts, ?_, start, ending, aMiddle, bMiddle, ?_⟩
  · intro s hs
    rcases List.mem_cons.mp hs with rfl | hs
    · rw [ha, hsize]
      exact hvalid aMiddle
    · rw [List.mem_singleton.mp hs, hb, hsize]
      exact hvalid bMiddle
  · rw [ha, hb, hsize, hsize]
    exact ⟨hfirst _, hfirst _, hlast _, hlast _, slice_append _ _ _, slice_append _ _ _, rfl, rfl⟩

end Innen.Conversation
