import Innen.Time.Since

/-!
# Reading what is written

A text that begins with a date and a time of day in fields of fixed width is read as the fields it was written from
(`rfc3339ToSecs_written`), so the seconds come back that a format was given, and the texts are ordered as the seconds.
-/

namespace Innen.Time

open Common

/-! ## Fields -/

/-- A padded number is read back. -/
theorem parseUnsigned_padded {bits width n : ℕ} (h : n < 2 ^ bits) : parseUnsigned bits (padded width n) = some n := by
  have hne : padded width n ≠ [] := fun hnil => Nat.toDigits_ne_nil (List.append_eq_nil_iff.mp hnil).2
  have hdigit : ∀ c ∈ padded width n, c.isDigit := fun _ => isDigit_of_mem_padded
  have hplus : (padded width n).head? ≠ some '+' := by
    intro hhead
    exact absurd (hdigit '+' (List.mem_of_head? hhead)) (by decide)
  unfold parseUnsigned
  rw [if_neg hplus]
  dsimp only
  rw [ofDigitChars_padded, if_pos ⟨hne, List.all_eq_true.mpr hdigit, h⟩]

theorem sep_not_mem_padded {sep : Char} (hsep : sep.isDigit = false) (width n : ℕ) : sep ∉ padded width n := by
  intro hmem
  rw [isDigit_of_mem_padded hmem] at hsep
  exact Bool.noConfusion hsep

/-- Three padded numbers between separators. -/
def threeChars (sep : Char) (width a b c : ℕ) : List Char := padded width a ++ sep :: (padded 2 b ++ sep :: padded 2 c)

/-- Three padded numbers are read back. -/
theorem threeNumbers_threeChars {sep : Char} {bits a b c : ℕ} (hsep : sep.isDigit = false) (width : ℕ) (ha : a < 2 ^ bits)
    (hb : b < 2 ^ bits) (hc : c < 2 ^ bits) : threeNumbers sep bits (threeChars sep width a b c) = some (a, b, c) := by
  have hsplit : (threeChars sep width a b c).splitOn sep = [padded width a, padded 2 b, padded 2 c] := by
    rw [threeChars, List.splitOn_append_cons_self_of_not_mem (sep_not_mem_padded hsep width a),
      List.splitOn_append_cons_self_of_not_mem (sep_not_mem_padded hsep 2 b),
      List.splitOn_eq_singleton (sep_not_mem_padded hsep 2 c)]
  unfold threeNumbers
  rw [hsplit]
  dsimp only
  rw [parseUnsigned_padded ha, parseUnsigned_padded hb, parseUnsigned_padded hc]
  rfl

/-- A character of ASCII is one byte. -/
theorem utf8Size_of_lt {c : Char} (h : c.toNat < 128) : c.utf8Size = 1 := by
  rw [Char.utf8Size_eq_one_iff]
  exact Nat.le_of_lt_succ h

theorem length_utf8Bytes_of_ascii {cs : List Char} (h : ∀ c ∈ cs, c.toNat < 128) : (utf8Bytes cs).length = cs.length := by
  induction cs with
  | nil => rfl
  | cons c cs ih =>
    rw [length_utf8Bytes_cons, utf8Size_of_lt (h c List.mem_cons_self), ih fun d hd => h d (List.mem_cons_of_mem c hd),
      List.length_cons, Nat.add_comm]

theorem ascii_of_mem_padded {width n : ℕ} {c : Char} (h : c ∈ padded width n) : c.toNat < 128 :=
  (toNat_of_isDigit (isDigit_of_mem_padded h)).2.trans_lt (by decide)

/-- The bytes of three numbers that keep to their widths. -/
theorem length_threeChars {sep : Char} {width a b c : ℕ} (hsep : sep.toNat < 128) (hwidth : 0 < width) (ha : a < 10 ^ width)
    (hb : b < 10 ^ 2) (hc : c < 10 ^ 2) : (utf8Bytes (threeChars sep width a b c)).length = width + 6 := by
  rw [length_utf8Bytes_of_ascii]
  · simp only [threeChars, List.length_append, List.length_cons, length_padded hwidth ha, length_padded (by decide) hb,
      length_padded (by decide) hc]
  · intro e he
    simp only [threeChars, List.mem_append, List.mem_cons] at he
    rcases he with he | rfl | he | rfl | he
    · exact ascii_of_mem_padded he
    · exact hsep
    · exact ascii_of_mem_padded he
    · exact hsep
    · exact ascii_of_mem_padded he

/-! ## Dates with a time of day -/

/-- `YYYY-MM-DD`. -/
def dateChars (y m d : ℕ) : List Char := threeChars '-' 4 y m d

/-- `HH:MM:SS`. -/
def timeChars (hr mn sc : ℕ) : List Char := threeChars ':' 2 hr mn sc

/-- What is read of a text are the fields it begins with, whatever stands between date and time and behind them. -/
theorem rfc3339ToSecs_written {y m d hr mn sc : ℕ} {sep : Char} (hy : y < 10 ^ 4) (hm : m < 10 ^ 2) (hd : d < 10 ^ 2)
    (hhr : hr < 10 ^ 2) (hmn : mn < 10 ^ 2) (hsc : sc < 10 ^ 2) (hsep : sep.toNat < 128) (rest : List Char) :
    (Countable y m d ∧ rfc3339ToSecs (String.ofList (dateChars y m d ++ sep :: (timeChars hr mn sc ++ rest))) =
        .ok (some (((MarchDate.ofYmd y m d).count - 719468) * 86400 + hr * 3600 + mn * 60 + sc))) ∨
      (¬Countable y m d ∧ rfc3339ToSecs (String.ofList (dateChars y m d ++ sep :: (timeChars hr mn sc ++ rest))) =
        .error .overflow) := by
  have hdate : (utf8Bytes (dateChars y m d)).length = 10 := length_threeChars (by decide) (by decide) hy hm hd
  have htime : (utf8Bytes (timeChars hr mn sc)).length = 8 := length_threeChars (by decide) (by decide) hhr hmn hsc
  have hplaces : AtPlaces (String.ofList (dateChars y m d ++ sep :: (timeChars hr mn sc ++ rest))) (dateChars y m d)
      (timeChars hr mn sc) := ⟨sep, rest, String.toList_ofList, hdate, utf8Size_of_lt hsep, htime⟩
  obtain ⟨hdateLength, htimeLength, hlen⟩ := hplaces.lengths
  rw [rfc3339ToSecs, if_pos hlen, secsAtPlaces_eq hplaces]
  exact dateTimeSecs_cases hdateLength htimeLength
    (threeNumbers_threeChars (by decide) 4 (by omega) (by omega) (by omega))
    (threeNumbers_threeChars (by decide) 2 (by omega) (by omega) (by omega))

/-! ## Seconds as text and back -/

/-- The date at the place of a second. -/
def dateAt (secs : ℕ) : ℕ × ℕ × ℕ := (marchDate (secs / 86400 + 719468)).ymd

theorem dateAt_bounds (secs : ℕ) : 1 ≤ (dateAt secs).2.1 ∧ (dateAt secs).2.1 ≤ 12 ∧ 1 ≤ (dateAt secs).2.2 ∧
    (dateAt secs).2.2 ≤ 31 ∧ ((dateAt secs).1 = 0 → 3 ≤ (dateAt secs).2.1) := by
  rw [dateAt]
  exact MarchDate.ymd_bounds (marchDate_spec _).1

/-- Later days have later dates. -/
theorem dateAt_lt {secs secs' : ℕ} (h : secs / 86400 < secs' / 86400) : (dateAt secs).1 < (dateAt secs').1 ∨
    (dateAt secs).1 = (dateAt secs').1 ∧ ((dateAt secs).2.1 < (dateAt secs').2.1 ∨
      (dateAt secs).2.1 = (dateAt secs').2.1 ∧ (dateAt secs).2.2 < (dateAt secs').2.2) := by
  obtain ⟨hexists, hcount⟩ := marchDate_spec (secs / 86400 + 719468)
  obtain ⟨hexists', hcount'⟩ := marchDate_spec (secs' / 86400 + 719468)
  rw [dateAt, dateAt]
  exact MarchDate.ymd_lt hexists hexists' (by omega)

/-- A text of a date and a time of day. -/
def writtenText (date : ℕ × ℕ × ℕ) (rem : ℕ) : String :=
  String.ofList (dateChars date.1 date.2.1 date.2.2 ++ 'T' :: (timeChars (rem / 3600) (rem % 3600 / 60) (rem % 60) ++ ['Z']))

/-- The years before the year 10000. -/
theorem year_of_lt {secs : ℕ} (h : (secs : ℤ) < 86400 * unixDay 10000 1 1) : (dateAt secs).1 < 10 ^ 4 := by
  obtain ⟨hexists, hcount⟩ := marchDate_spec (secs / 86400 + 719468)
  have hlast : (MarchDate.ofYmd 10000 1 1).Exists := ⟨by decide, by decide, by decide, by decide⟩
  have hlt : (marchDate (secs / 86400 + 719468)).count < (MarchDate.ofYmd 10000 1 1).count := by
    rw [unixDay_eq (by decide) (by decide) (by decide) (by decide)] at h
    rw [hcount]
    omega
  have hbounds := MarchDate.ymd_bounds hexists
  have hymd := MarchDate.ymd_lt hexists hlast hlt
  have hend : (MarchDate.ofYmd 10000 1 1).ymd = (10000, 1, 1) := by decide
  rw [hend] at hymd
  dsimp only at hymd
  unfold dateAt
  omega

theorem dateTimeChars_padded (y m d hr mn sc : ℕ) :
    dateTimeChars (padded 4 y) (padded 2 m) (padded 2 d) (padded 2 hr) (padded 2 mn) (padded 2 sc) =
      dateChars y m d ++ 'T' :: (timeChars hr mn sc ++ ['Z']) := by
  simp only [dateTimeChars, dateChars, timeChars, threeChars, List.append_assoc, List.cons_append]

/-- Both formats write the date and the time of day. -/
theorem systemTimeToRfc3339_eq {secs : ℕ} (h : (dateAt secs).1 < 10 ^ 4) :
    systemTimeToRfc3339 secs = writtenText (dateAt secs) (secs % 86400) ∧ formatUtc secs = systemTimeToRfc3339 secs := by
  have hyear : (marchDate (secs / 86400 + 719468)).year < 2 ^ 32 := by
    rw [dateAt] at h
    exact (MarchDate.year_le_ymd _).trans_lt (h.trans (by decide))
  have hdate : dateAt secs = daysToYmd (secs / 86400) := by rw [dateAt, daysToYmd_eq hyear]
  refine ⟨?_, formatUtc_eq hyear⟩
  rw [hdate]
  unfold systemTimeToRfc3339 writtenText
  rw [← dateTimeChars_padded]

/-- What is written is read as the same second. -/
theorem rfc3339ToSecs_writtenText {secs : ℕ} (h : (dateAt secs).1 < 10 ^ 4) :
    rfc3339ToSecs (writtenText (dateAt secs) (secs % 86400)) = .ok (some secs) := by
  obtain ⟨hexists, hcount⟩ := marchDate_spec (secs / 86400 + 719468)
  obtain ⟨hmonth, hmonth', hday, hday', hfirst⟩ := dateAt_bounds secs
  have hback : (MarchDate.ofYmd (dateAt secs).1 (dateAt secs).2.1 (dateAt secs).2.2).count = secs / 86400 + 719468 := by
    rw [dateAt, MarchDate.ofYmd_ymd hexists, hcount]
  have hcountable : Countable (dateAt secs).1 (dateAt secs).2.1 (dateAt secs).2.2 := ⟨by omega, fun _ => hday⟩
  rcases rfc3339ToSecs_written h (hmonth'.trans_lt (by decide)) (hday'.trans_lt (by decide))
    (show secs % 86400 / 3600 < 10 ^ 2 by omega) (show secs % 86400 % 3600 / 60 < 10 ^ 2 by omega)
    (show secs % 86400 % 60 < 10 ^ 2 by omega) (show 'T'.toNat < 128 by decide) ['Z'] with hread | hfail
  · have hsum : (secs / 86400 + 719468 - 719468) * 86400 + secs % 86400 / 3600 * 3600 + secs % 86400 % 3600 / 60 * 60 +
        secs % 86400 % 60 = secs := by omega
    rw [writtenText, hread.2, hback, hsum]
  · exact absurd hcountable hfail.1

/-! ## The order of the texts -/

/-- Three padded numbers come before three others when they are smaller in their order, whatever follows. -/
theorem threeChars_append_lt {sep : Char} {width a b c a' b' c' : ℕ} (hwidth : 0 < width) (ha : a < 10 ^ width)
    (hb : b < 10 ^ 2) (hc : c < 10 ^ 2) (ha' : a' < 10 ^ width) (hb' : b' < 10 ^ 2) (hc' : c' < 10 ^ 2) {xs ys : List Char}
    (h : a < a' ∨ a = a' ∧ (b < b' ∨ b = b' ∧ (c < c' ∨ c = c' ∧ xs < ys))) :
    threeChars sep width a b c ++ xs < threeChars sep width a' b' c' ++ ys := by
  have htwo : (0 : ℕ) < 2 := by decide
  simp only [threeChars, List.append_assoc, List.cons_append]
  refine padded_append_lt hwidth ha ha' (h.imp_right (And.imp_right fun h => ?_))
  refine List.cons_lt_cons_self.mpr (padded_append_lt htwo hb hb' (h.imp_right (And.imp_right fun h => ?_)))
  exact List.cons_lt_cons_self.mpr (padded_append_lt htwo hc hc' h)

/-- A later second has the greater text. -/
theorem writtenText_lt {secs secs' : ℕ} (h : (dateAt secs).1 < 10 ^ 4) (h' : (dateAt secs').1 < 10 ^ 4) (hlt : secs < secs') :
    writtenText (dateAt secs) (secs % 86400) < writtenText (dateAt secs') (secs' % 86400) := by
  obtain ⟨-, hmonth, -, hday, -⟩ := dateAt_bounds secs
  obtain ⟨-, hmonth', -, hday', -⟩ := dateAt_bounds secs'
  rw [String.lt_iff_toList_lt, writtenText, writtenText, String.toList_ofList, String.toList_ofList]
  refine threeChars_append_lt (by decide) h (hmonth.trans_lt (by decide)) (hday.trans_lt (by decide)) h'
    (hmonth'.trans_lt (by decide)) (hday'.trans_lt (by decide)) ?_
  have htime : secs / 86400 = secs' / 86400 →
      'T' :: (timeChars (secs % 86400 / 3600) (secs % 86400 % 3600 / 60) (secs % 86400 % 60) ++ ['Z']) <
        'T' :: (timeChars (secs' % 86400 / 3600) (secs' % 86400 % 3600 / 60) (secs' % 86400 % 60) ++ ['Z']) := by
    intro hdays
    rw [List.cons_lt_cons_self]
    exact threeChars_append_lt (by decide) (by omega) (by omega) (by omega) (by omega) (by omega) (by omega) (by omega)
  rcases (Nat.div_le_div_right hlt.le : secs / 86400 ≤ secs' / 86400).lt_or_eq with hdays | hdays
  · have hymd := dateAt_lt hdays
    exact hymd.imp_right (And.imp_right fun hymd => hymd.imp_right (And.imp_right Or.inl))
  · have hsame : dateAt secs = dateAt secs' := by unfold dateAt; rw [hdays]
    rw [hsame]
    exact .inr ⟨rfl, .inr ⟨rfl, .inr ⟨rfl, htime hdays⟩⟩⟩

/-- Up to the year 9999 both formats write the same text, it is read as the second it was written from, and the texts
are ordered as the seconds are. -/
theorem format_round_trip {secs : ℕ} (h : (secs : ℤ) < 86400 * unixDay 10000 1 1) :
    rfc3339ToSecs (formatUtc secs) = .ok (some secs) ∧ systemTimeToRfc3339 secs = formatUtc secs ∧
      ∀ secs' : ℕ, (secs' : ℤ) < 86400 * unixDay 10000 1 1 →
        ((formatUtc secs < formatUtc secs' ↔ secs < secs') ∧ (formatUtc secs = formatUtc secs' ↔ secs = secs')) := by
  have htext : ∀ t : ℕ, (t : ℤ) < 86400 * unixDay 10000 1 1 → formatUtc t = writtenText (dateAt t) (t % 86400) := by
    intro t ht
    obtain ⟨hsystem, hutc⟩ := systemTimeToRfc3339_eq (year_of_lt ht)
    rw [hutc, hsystem]
  have hread : ∀ t : ℕ, (t : ℤ) < 86400 * unixDay 10000 1 1 → rfc3339ToSecs (formatUtc t) = .ok (some t) := by
    intro t ht
    rw [htext t ht, rfc3339ToSecs_writtenText (year_of_lt ht)]
  have hlater : ∀ t t' : ℕ, (t : ℤ) < 86400 * unixDay 10000 1 1 → (t' : ℤ) < 86400 * unixDay 10000 1 1 → t < t' →
      formatUtc t < formatUtc t' := by
    intro t t' ht ht' hlt
    rw [htext t ht, htext t' ht']
    exact writtenText_lt (year_of_lt ht) (year_of_lt ht') hlt
  refine ⟨hread secs h, (systemTimeToRfc3339_eq (year_of_lt h)).2.symm, fun secs' h' => ⟨⟨fun htexts => ?_, hlater _ _ h h'⟩,
    fun htexts => ?_, fun hsecs => by rw [hsecs]⟩⟩
  · rcases lt_trichotomy secs secs' with hlt | heq | hgt
    · exact hlt
    · rw [heq] at htexts
      exact absurd htexts (lt_irrefl _)
    · exact absurd htexts (lt_asymm (hlater _ _ h' h hgt))
  · have hsame := (hread secs h).symm.trans ((congrArg rfc3339ToSecs htexts).trans (hread secs' h'))
    exact Option.some.inj (Except.ok.inj hsame)

theorem format_round_trip_leap :
    rfc3339ToSecs (formatUtc 951782400) = .ok (some 951782400) ∧ systemTimeToRfc3339 951782400 = formatUtc 951782400 ∧
      ∀ secs' : ℕ, (secs' : ℤ) < 86400 * unixDay 10000 1 1 →
        ((formatUtc 951782400 < formatUtc secs' ↔ 951782400 < secs') ∧
          (formatUtc 951782400 = formatUtc secs' ↔ 951782400 = secs')) :=
  format_round_trip (by
    rw [unixDay_eq (by decide) (by decide) (by decide) (by decide)]
    decide)

end Innen.Time
