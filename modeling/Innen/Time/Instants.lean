import Innen.Time.Written

/-!
# Which times are read as they are meant

A valid date-time names an instant by its calendar, its time of day and its offset from UTC. The text is read without the
offset and with no second before 1970, and some texts stop the program: the option with a count too large, a date in the
first two months of the year zero, and a text whose tenth, eleventh or nineteenth byte is inside a character.
-/

namespace Innen.Time

open Common

/-! ## Valid date-times -/

/-- The offset of a date-time: none, written in either case, or hours and minutes before or behind UTC. -/
inductive Zone
  | utc (mark : Char) (h : mark = 'Z' ∨ mark = 'z')
  | ahead (hours minutes : ℕ) (hh : hours ≤ 23) (hm : minutes ≤ 59)
  | behind (hours minutes : ℕ) (hh : hours ≤ 23) (hm : minutes ≤ 59)

/-- How the offset is written. -/
def Zone.chars : Zone → List Char
  | .utc mark _ => [mark]
  | .ahead hours minutes _ _ => '+' :: (padded 2 hours ++ ':' :: padded 2 minutes)
  | .behind hours minutes _ _ => '-' :: (padded 2 hours ++ ':' :: padded 2 minutes)

/-- The minutes by which the local time is ahead of UTC. -/
def Zone.minutes : Zone → ℤ
  | .utc _ _ => 0
  | .ahead hours minutes _ _ => 60 * hours + minutes
  | .behind hours minutes _ _ => -(60 * hours + minutes)

theorem Zone.minutes_bounds (zone : Zone) : -1440 < zone.minutes ∧ zone.minutes < 1440 := by
  cases zone <;>
  · simp only [minutes]
    omega

/-- A date-time of RFC 3339. A second of 60 is a leap second, which only the last minute of a day in UTC has. -/
structure DateTime where
  year : ℕ
  month : ℕ
  day : ℕ
  hour : ℕ
  minute : ℕ
  second : ℕ
  separator : Char
  fraction : List Char
  zone : Zone
  year_le : year ≤ 9999
  month_pos : 1 ≤ month
  month_le : month ≤ 12
  day_pos : 1 ≤ day
  day_le : day ≤ daysInMonth year month
  hour_le : hour ≤ 23
  minute_le : minute ≤ 59
  second_le : second ≤ 60
  leap : second = 60 → (60 * hour + minute - zone.minutes) % 1440 = 1439
  separator_mem : separator = 'T' ∨ separator = 't' ∨ separator = ' '
  fraction_digits : fraction = [] ∨ ∃ digits, fraction = '.' :: digits ∧ digits ≠ [] ∧ ∀ c ∈ digits, c.isDigit

/-- The text of a date-time. -/
def DateTime.text (t : DateTime) : String :=
  String.ofList (dateChars t.year t.month t.day ++ t.separator :: (timeChars t.hour t.minute t.second ++
    (t.fraction ++ t.zone.chars)))

/-- The Unix second of the instant of a date-time. -/
def DateTime.unixSecond (t : DateTime) : ℤ :=
  86400 * unixDay t.year t.month t.day + 3600 * t.hour + 60 * t.minute + t.second - 60 * t.zone.minutes

theorem daysInMonth_le (y m : ℕ) : daysInMonth y m ≤ 31 := by
  unfold daysInMonth
  split_ifs <;> omega

theorem daysUpToMonth_mono (y : ℕ) {m m' : ℕ} (h : m ≤ m') : daysUpToMonth y m ≤ daysUpToMonth y m' := by
  induction h with
  | refl => exact le_rfl
  | step _ ih => exact ih.trans (Nat.le_add_right _ _)

theorem daysBeforeYear_mono {y y' : ℕ} (h : y ≤ y') : daysBeforeYear y ≤ daysBeforeYear y' := by
  induction h with
  | refl => exact le_rfl
  | step _ ih => exact ih.trans (Nat.le_add_right _ _)

/-- The months of a year are the year. -/
theorem daysUpToMonth_twelve (y : ℕ) : daysUpToMonth y 12 = daysInYear y := by
  have hdecember : daysUpToMonth y 12 = daysUpToMonth y 11 + 31 := congrArg (daysUpToMonth y 11 + ·) (if_pos (by decide))
  have heleven := daysUpToMonth_eq (y := y) (m := 12) (by decide) (by decide)
  have hstart : monthStart 9 = 275 := by decide
  rw [if_neg (by decide)] at heleven
  rw [hdecember]
  unfold daysInYear
  simp only [Nat.reduceSub, hstart] at heleven
  split_ifs at heleven ⊢ <;> omega

/-- The days from 1970 on are those of the years from 1970 on. -/
theorem unixDay_nonneg_iff {y m d : ℕ} (hm : 1 ≤ m) (hm' : m ≤ 12) (hd : 1 ≤ d) (hd' : d ≤ daysInMonth y m) :
    0 ≤ unixDay y m d ↔ 1970 ≤ y := by
  have hepoch : daysBeforeYear 1970 = 719528 := by
    rw [daysBeforeYear_succ]
    rfl
  have hmonth : daysUpToMonth y (m - 1) + d ≤ daysInYear y := by
    obtain ⟨k, rfl⟩ := Nat.exists_eq_add_of_le' hm
    have hle : daysUpToMonth y (k + 1) ≤ daysUpToMonth y 12 := daysUpToMonth_mono y hm'
    rw [daysUpToMonth_twelve, daysUpToMonth] at hle
    rw [Nat.add_sub_cancel]
    omega
  unfold unixDay
  constructor
  · intro h
    by_contra hlt
    have hnext : daysBeforeYear (y + 1) ≤ daysBeforeYear 1970 := daysBeforeYear_mono (by omega)
    rw [daysBeforeYear] at hnext
    omega
  · intro h
    have hyears := daysBeforeYear_mono h
    omega

/-- A date from 1970 on is counted. -/
theorem DateTime.countable {t : DateTime} (h : 1970 ≤ t.year) : Countable t.year t.month t.day :=
  ⟨fun _ => by omega, fun _ => t.day_pos⟩

/-- The text of a date-time is read as its instant exactly when it is given in UTC and lies in 1970 or later. -/
theorem DateTime.read_iff (t : DateTime) :
    (∃ n : ℕ, rfc3339ToSecs t.text = .ok (some n) ∧ (n : ℤ) = t.unixSecond) ↔ t.zone.minutes = 0 ∧ 1970 ≤ t.year := by
  have hmonth := t.month_le
  have hday := t.day_le.trans (daysInMonth_le t.year t.month)
  have hhour := t.hour_le
  have hminute := t.minute_le
  have hsecond := t.second_le
  have hyear := t.year_le
  have hseparator : t.separator.toNat < 128 := by
    rcases t.separator_mem with h | h | h <;>
    · rw [h]
      decide
  have hzone := t.zone.minutes_bounds
  have hnonneg := unixDay_nonneg_iff t.month_pos hmonth t.day_pos t.day_le
  rcases rfc3339ToSecs_written (show t.year < 10 ^ 4 by omega)
    (show t.month < 10 ^ 2 by omega) (show t.day < 10 ^ 2 by omega) (show t.hour < 10 ^ 2 by omega)
    (show t.minute < 10 ^ 2 by omega) (show t.second < 10 ^ 2 by omega) hseparator (t.fraction ++ t.zone.chars) with ⟨hcount, hread⟩ | ⟨hcount, hfail⟩
  · have hfirst : t.year = 0 → 3 ≤ t.month := by
      intro hzero
      by_contra hearly
      have hpos := hcount.1 (by omega)
      omega
    have hunix := unixDay_eq t.month_pos hmonth t.day_pos hfirst
    rw [DateTime.text, hread, DateTime.unixSecond]
    generalize (MarchDate.ofYmd t.year t.month t.day).count = count at *
    generalize unixDay t.year t.month t.day = day at *
    constructor
    · rintro ⟨n, hn, hsame⟩
      have hvalue := Option.some.inj (Except.ok.inj hn)
      rcases Nat.lt_or_ge count 719468 with hearly | hlate
      · omega
      · omega
    · rintro ⟨hutc, hlate⟩
      refine ⟨_, rfl, ?_⟩
      have hday' := hnonneg.mpr hlate
      push_cast
      omega
  · refine iff_of_false ?_ fun h => hcount (DateTime.countable h.2)
    rintro ⟨n, hn, -⟩
    rw [DateTime.text, hfail] at hn
    exact absurd hn (by simp)

/-! ## Texts that do not stop the program -/

/-- A text that is too short for a date with a time of day, or has both at their places and a date that can be counted. -/
def Readable (s : String) : Prop :=
  19 ≤ s.utf8ByteSize → ∃ date time, AtPlaces s date time ∧
    ∀ y m d, threeNumbers '-' 32 date = some (y, m, d) → threeNumbers ':' 64 time ≠ none → Countable y m d

/-- An option whose count of days or hours fits in 64 bits of seconds, and whose date can be counted. -/
def SinceFits (s : String) : Prop :=
  (∀ days, countBefore "d" "D" s = some days → days * 86400 < 2 ^ 64) ∧
    (∀ hours, countBefore "h" "H" s = some hours → hours * 3600 < 2 ^ 64) ∧
    (∀ y m d, dateOf s = some (y, m, d) → Countable y m d) ∧ ('T' ∈ s.toList ∨ ' ' ∈ s.toList → Readable s)

/-- The places of a text are read exactly when they are there and the date can be counted. -/
theorem secsAtPlaces_ok_iff {s : String} :
    (∃ r, secsAtPlaces s = .ok r) ↔ ∃ date time, AtPlaces s date time ∧
      ∀ y m d, threeNumbers '-' 32 date = some (y, m, d) → threeNumbers ':' 64 time ≠ none → Countable y m d := by
  constructor
  · rintro ⟨r, hr⟩
    obtain ⟨date, hdate, hrest⟩ := bind_eq_ok.mp hr
    obtain ⟨time, htime, hsecs⟩ := bind_eq_ok.mp hrest
    have hplaces := slices_iff.mp ⟨hdate, htime⟩
    refine ⟨date, time, hplaces, fun y m d hd ht => ?_⟩
    obtain ⟨⟨hr', mn, sc⟩, ht⟩ := Option.ne_none_iff_exists'.mp ht
    rcases dateTimeSecs_cases hplaces.lengths.1 hplaces.lengths.2.1 hd ht with ⟨hcount, -⟩ | ⟨-, hfail⟩
    · exact hcount
    · rw [hfail] at hsecs
      exact absurd hsecs (by simp)
  · rintro ⟨date, time, hplaces, hcount⟩
    rw [secsAtPlaces_eq hplaces]
    cases hd : threeNumbers '-' 32 date with
    | none => exact ⟨none, dateTimeSecs_eq_none (.inl hd)⟩
    | some ymd =>
      cases ht : threeNumbers ':' 64 time with
      | none => exact ⟨none, dateTimeSecs_eq_none (.inr ht)⟩
      | some hms =>
        obtain ⟨y, m, d⟩ := ymd
        obtain ⟨hr, mn, sc⟩ := hms
        rcases dateTimeSecs_cases hplaces.lengths.1 hplaces.lengths.2.1 hd ht with ⟨-, hread⟩ | ⟨hnot, -⟩
        · exact ⟨_, hread⟩
        · exact absurd (hcount y m d hd (by rw [ht]; simp)) hnot

theorem rfc3339ToSecs_ok_iff {s : String} : (∃ r, rfc3339ToSecs s = .ok r) ↔ Readable s := by
  unfold rfc3339ToSecs Readable
  by_cases hlen : 19 ≤ s.utf8ByteSize
  · rw [if_pos hlen, secsAtPlaces_ok_iff]
    exact ⟨fun h _ => h, fun h => h hlen⟩
  · rw [if_neg hlen]
    exact iff_of_true ⟨none, rfl⟩ fun h => absurd h hlen

/-! ## The forms of the option exclude each other -/

/-- A count is digits before its unit. -/
theorem countBefore_chars (small capital : Char) {s : String} {n : ℕ}
    (h : countBefore (String.singleton small) (String.singleton capital) s = some n) :
    ∃ digits unit, s.toList = digits ++ [unit] ∧ (unit = small ∨ unit = capital) ∧ ∀ c ∈ digits, c.isDigit ∨ c = '+' := by
  obtain ⟨num, hnum, hparse⟩ := Option.bind_eq_some_iff.mp h
  have hstrip : ∀ unit, stripEnd s (String.singleton unit) = some num → s.toList = num.toList ++ [unit] := by
    intro unit hunit
    unfold stripEnd at hunit
    split_ifs at hunit with hsuffix
    obtain ⟨xs, hxs⟩ := List.isSuffixOf_iff_suffix.mp hsuffix
    have htail : (String.singleton unit).toList = [unit] := String.toList_singleton unit
    rw [htail] at hxs
    have hlen : s.length - (String.singleton unit).length = xs.length := by
      rw [← String.length_toList, ← hxs, ← String.length_toList (s := String.singleton unit), htail, List.length_append,
        Nat.add_sub_cancel]
    rw [hlen, ← hxs, List.take_left] at hunit
    rw [← Option.some.inj hunit, String.toList_ofList, hxs]
  have hdigits : ∀ c ∈ num.toList, c.isDigit ∨ c = '+' := by
    intro c hc
    unfold parseUnsigned at hparse
    dsimp only at hparse
    split_ifs at hparse with hplus hall hall
    · obtain ⟨hne, hall, -⟩ := hall
      rw [List.eq_cons_of_mem_head? hplus] at hc
      rcases List.mem_cons.mp hc with rfl | hc
      · exact .inr rfl
      · exact .inl (List.all_eq_true.mp hall c hc)
    · exact .inl (List.all_eq_true.mp hall.2.1 c hc)
  rcases Option.or_eq_some_iff.mp hnum with hsmall | ⟨-, hcapital⟩
  · exact ⟨num.toList, small, hstrip small hsmall, .inl rfl, hdigits⟩
  · exact ⟨num.toList, capital, hstrip capital hcapital, .inr rfl, hdigits⟩

/-- A date has hyphens. -/
theorem dateOf_chars {s : String} {date : ℕ × ℕ × ℕ} (h : dateOf s = some date) : '-' ∈ s.toList ∧ s.utf8ByteSize = 10 := by
  unfold dateOf at h
  split_ifs at h with hshape
  refine ⟨?_, hshape.1⟩
  by_contra hnone
  obtain ⟨hthree, -⟩ := Option.filter_eq_some_iff.mp h
  unfold threeNumbers at hthree
  rw [List.splitOn_eq_singleton hnone] at hthree
  exact absurd hthree (by simp)

/-- A count is no date, and its characters are none of those that a date with a time of day needs. -/
theorem countBefore_excludes (small capital : Char) {s : String} {n : ℕ}
    (h : countBefore (String.singleton small) (String.singleton capital) s = some n)
    (hsmall : small ∉ ['-', 'T', ' ']) (hcapital : capital ∉ ['-', 'T', ' ']) :
    dateOf s = none ∧ ¬('T' ∈ s.toList ∨ ' ' ∈ s.toList) := by
  obtain ⟨digits, unit, hs, hunit, hdigits⟩ := countBefore_chars small capital h
  have hnone : ∀ c ∈ ['-', 'T', ' '], c ∉ s.toList := by
    intro c hc hmem
    rw [hs] at hmem
    rcases List.mem_append.mp hmem with hmem | hmem
    · have hplain : ∀ c ∈ ['-', 'T', ' '], c.isDigit = false ∧ c ≠ '+' := by
        intro c hc
        simp only [List.mem_cons, List.not_mem_nil, or_false] at hc
        rcases hc with rfl | rfl | rfl <;> decide
      rcases hdigits c hmem with hdigit | hplus
      · rw [(hplain c hc).1] at hdigit
        exact Bool.noConfusion hdigit
      · exact (hplain c hc).2 hplus
    · rw [List.mem_singleton.mp hmem] at hc
      rcases hunit with rfl | rfl
      · exact hsmall hc
      · exact hcapital hc
  refine ⟨?_, not_or.mpr ⟨hnone 'T' (by decide), hnone ' ' (by decide)⟩⟩
  rw [Option.eq_none_iff_forall_not_mem]
  intro date hdate
  exact hnone '-' (by decide) (dateOf_chars hdate).1

/-- A text has a count before one unit only. -/
theorem countBefore_days_hours {s : String} {days hours : ℕ} (hdays : countBefore "d" "D" s = some days) :
    countBefore "h" "H" s ≠ some hours := by
  intro hhours
  obtain ⟨digits, unit, hs, hunit, -⟩ := countBefore_chars 'd' 'D' hdays
  obtain ⟨digits', unit', hs', hunit', -⟩ := countBefore_chars 'h' 'H' hhours
  obtain ⟨-, rfl⟩ := List.append_singleton_inj.mp (hs.symm.trans hs')
  rcases hunit with rfl | rfl <;> exact absurd hunit' (by decide)

theorem utf8Size_toLower (c : Char) : c.toLower.utf8Size = c.utf8Size := by
  unfold Char.toLower
  split_ifs with hupper
  · have hle : c.val.toNat ≤ 90 := UInt32.le_iff_toNat_le.mp hupper.2
    have hadd : (c.val + 32).toNat = c.val.toNat + 32 := by
      rw [UInt32.toNat_add, Nat.mod_eq_of_lt]
      · rfl
      · exact (Nat.add_le_add_right hle _).trans_lt (by decide)
    have hlower : (c.val + 32).toNat < 128 := by omega
    have hself : c.val.toNat < 128 := by omega
    refine (utf8Size_of_lt ?_).trans (utf8Size_of_lt ?_).symm
    · exact hlower
    · exact hself
  · rfl

/-- The words that name a day are too short for a date, and no count. -/
theorem sinceFits_of_word {s word : String} (hword : word = "today" ∨ word = "yesterday") (h : asciiLower s = word) :
    SinceFits s := by
  have hchars : s.toList.map Char.toLower = word.toList := by
    rw [← h, asciiLower, String.toList_ofList]
  have hbytes : s.utf8ByteSize = word.utf8ByteSize := by
    rw [utf8ByteSize_eq, utf8ByteSize_eq, ← hchars]
    generalize s.toList = cs
    induction cs with
    | nil => rfl
    | cons c cs ih => rw [List.map_cons, length_utf8Bytes_cons, length_utf8Bytes_cons, utf8Size_toLower, ih]
  have hcount : ∀ small capital n, small.toLower ≠ 'y' → capital.toLower ≠ 'y' →
      countBefore (String.singleton small) (String.singleton capital) s ≠ some n := by
    intro small capital n hsmall hcapital hn
    obtain ⟨digits, unit, hs, hunit, -⟩ := countBefore_chars small capital hn
    have hlast : word.toList.getLast? = some unit.toLower := by
      rw [← hchars, hs, List.map_append, List.map_singleton, List.getLast?_concat]
    have hy : word.toList.getLast? = some 'y' := by
      rcases hword with rfl | rfl <;> rfl
    have hunit' := Option.some.inj (hlast.symm.trans hy)
    rcases hunit with rfl | rfl
    · exact hsmall hunit'
    · exact hcapital hunit'
  have hsize : s.utf8ByteSize < 10 := by
    rw [hbytes]
    rcases hword with rfl | rfl <;> decide
  refine ⟨fun n hn => absurd hn (hcount 'd' 'D' n (by decide) (by decide)),
    fun n hn => absurd hn (hcount 'h' 'H' n (by decide) (by decide)), fun y m d hdate => ?_, fun _ hlen => ?_⟩
  · have hten := (dateOf_chars hdate).2
    omega
  · omega

/-! ## Which options and texts are read -/

/-- A step that keeps a number in its range goes on exactly when it is there. -/
theorem fits_bind_ok_iff {bits n : ℕ} {β : Type} (f : ℕ → β) :
    (∃ r, (fits bits n >>= fun k => Except.ok (f k)) = .ok r) ↔ n < 2 ^ bits := by
  by_cases hn : n < 2 ^ bits
  · rw [fits_eq hn, ok_bind]
    exact iff_of_true ⟨f n, rfl⟩ hn
  · rw [fits, if_neg hn, error_bind]
    exact iff_of_false (by simp) hn

/-- The date of an option is counted as far as that goes nowhere below zero. -/
theorem dateOf_ok_iff {t : String} {y m d : ℕ} (h : dateOf t = some (y, m, d)) {β : Type} (f : ℕ → β) :
    (∃ r, (ymdToDays y m d >>= fun days => fits 64 (days * 86400) >>= fun secs => Except.ok (f secs)) = .ok r) ↔
      Countable y m d := by
  obtain ⟨hthree, hten⟩ : threeNumbers '-' 32 t.toList = some (y, m, d) ∧ t.utf8ByteSize = 10 := by
    refine ⟨?_, (dateOf_chars h).2⟩
    unfold dateOf at h
    split_ifs at h
    exact (Option.filter_eq_some_iff.mp h).1
  have hlen : t.toList.length ≤ 6 + 4 := (length_le_utf8Bytes _).trans (utf8ByteSize_eq t ▸ hten).le
  obtain ⟨hy, hm, hd⟩ := threeNumbers_lt hthree hlen
  rcases ymdToDays_cases hy hm hd with ⟨hcount, hdays⟩ | ⟨hcount, hfail⟩
  · have hlt : (MarchDate.ofYmd y m d).count - 719468 < 10 ^ 12 := (Nat.sub_le _ _).trans_lt (count_ofYmd_lt hy hm hd)
    generalize (MarchDate.ofYmd y m d).count - 719468 = days at hdays hlt
    rw [hdays, ok_bind, fits_bind_ok_iff]
    exact iff_of_true (by omega) hcount
  · rw [hfail, error_bind]
    exact iff_of_false (by simp) hcount

/-- The option is read, or refused with a message, exactly when its numbers fit. -/
theorem parseSince_ok_iff (now : ℕ) (s : String) : (∃ r, parseSince now (some s) = .ok r) ↔ SinceFits (trim s) := by
  unfold parseSince
  rw [Option.map_some]
  generalize trim s = t
  by_cases hempty : t = ""
  · subst hempty
    have hd : countBefore "d" "D" "" = none := by decide
    have hh : countBefore "h" "H" "" = none := by decide
    have hdate : dateOf "" = none := by decide
    refine iff_of_true ⟨_, rfl⟩ ⟨?_, ?_, ?_, fun _ hlen => absurd hlen (by decide)⟩
    · simp [hd]
    · simp [hh]
    · simp [hdate]
  · rw [Option.filter_some, if_pos (decide_eq_true hempty)]
    dsimp only
    by_cases htoday : asciiLower t = "today"
    · rw [if_pos htoday]
      exact iff_of_true ⟨_, rfl⟩ (sinceFits_of_word (.inl rfl) htoday)
    · by_cases hyesterday : asciiLower t = "yesterday"
      · rw [if_neg htoday, if_pos hyesterday]
        exact iff_of_true ⟨_, rfl⟩ (sinceFits_of_word (.inr rfl) hyesterday)
      · rw [if_neg htoday, if_neg hyesterday]
        unfold SinceFits
        cases hdays : countBefore "d" "D" t with
        | some days =>
          obtain ⟨hdate, hchars⟩ := countBefore_excludes 'd' 'D' hdays (by decide) (by decide)
          rw [fits_bind_ok_iff]
          refine ⟨fun hfits => ⟨?_, fun hours hhours => absurd hhours (countBefore_days_hours hdays), ?_,
            fun h => absurd h hchars⟩, fun h => h.1 days rfl⟩
          · rintro _ ⟨⟩
            exact hfits
          · simp [hdate]
        | none =>
          cases hhours : countBefore "h" "H" t with
          | some hours =>
            obtain ⟨hdate, hchars⟩ := countBefore_excludes 'h' 'H' hhours (by decide) (by decide)
            rw [fits_bind_ok_iff]
            refine ⟨fun hfits => ⟨by simp, ?_, ?_, fun h => absurd h hchars⟩, fun h => h.2.1 hours rfl⟩
            · rintro _ ⟨⟩
              exact hfits
            · simp [hdate]
          | none =>
            cases hdate : dateOf t with
            | some date =>
              obtain ⟨y, m, d⟩ := date
              have hten := (dateOf_chars hdate).2
              rw [dateOf_ok_iff hdate]
              refine ⟨fun hcount => ⟨by simp, by simp, ?_, fun _ hlen => by omega⟩, fun h => h.2.2.1 y m d rfl⟩
              rintro _ _ _ ⟨⟩
              exact hcount
            | none =>
              have hread : Readable t ↔ (19 ≤ t.utf8ByteSize → ∃ r, secsAtPlaces t = .ok r) := by
                rw [Readable, secsAtPlaces_ok_iff]
              dsimp only
              split_ifs with hlong
              · constructor
                · rintro ⟨r, hr⟩
                  obtain ⟨secs, hsecs, -⟩ := bind_eq_ok.mp hr
                  exact ⟨by simp, by simp, by simp, fun _ => hread.mpr fun _ => ⟨secs, hsecs⟩⟩
                · rintro ⟨-, -, -, hplaces⟩
                  obtain ⟨secs, hsecs⟩ := hread.mp (hplaces hlong.2) hlong.1
                  rw [hsecs, ok_bind]
                  exact ⟨_, rfl⟩
              · refine iff_of_true ⟨_, rfl⟩ ⟨by simp, by simp, by simp, fun hchars => hread.mpr fun hlen => ?_⟩
                exact absurd ⟨hlen, hchars⟩ hlong

/-- For every text the option and the time of a transcript are read without stopping the program, and a valid date-time
as its instant, exactly when the numbers of the option fit, the text can be cut at the places of a date and its date be
counted, and a valid date-time is given in UTC and lies in 1970 or later. -/
theorem times_exact_iff (now : ℕ) (s : String) :
    ((∃ r, parseSince now (some s) = .ok r) ∧ (∃ r, rfc3339ToSecs s = .ok r) ∧
        ∀ t : DateTime, t.text = s → ∃ n : ℕ, rfc3339ToSecs s = .ok (some n) ∧ (n : ℤ) = t.unixSecond) ↔
      SinceFits (trim s) ∧ Readable s ∧ ∀ t : DateTime, t.text = s → t.zone.minutes = 0 ∧ 1970 ≤ t.year := by
  rw [parseSince_ok_iff, rfc3339ToSecs_ok_iff]
  refine and_congr_right fun _ => and_congr_right fun _ => forall_congr' fun t => forall_congr' fun ht => ?_
  rw [← ht, t.read_iff]

/-- The new year of 2026 in Taipei. -/
def taipei : DateTime where
  year := 2026
  month := 1
  day := 1
  hour := 0
  minute := 0
  second := 0
  separator := 'T'
  fraction := []
  zone := .ahead 8 0 (by decide) (by decide)
  year_le := by decide
  month_pos := by decide
  month_le := by decide
  day_pos := by decide
  day_le := by decide
  hour_le := by decide
  minute_le := by decide
  second_le := by decide
  leap := by decide
  separator_mem := .inl rfl
  fraction_digits := .inl rfl

/-- A text with an offset is read eight hours late, and a count of days, a date of the year zero and a character of three
bytes at the place of the separator stop the program. -/
theorem times_refuted :
    (taipei.text = "2026-01-01T00:00:00+08:00" ∧ taipei.unixSecond = 1767196800 ∧
        rfc3339ToSecs "2026-01-01T00:00:00+08:00" = .ok (some 1767225600)) ∧
      parseSince 1767225600 (some "999999999999999999d") = .error .overflow ∧
      rfc3339ToSecs "0000-01-01T00:00:00Z" = .error .overflow ∧
      rfc3339ToSecs "2026-01-01午00:00:00" = .error .slice := by
  refine ⟨⟨by decide +kernel, ?_, by decide +kernel⟩, by decide +kernel, by decide +kernel, by decide +kernel⟩
  rw [DateTime.unixSecond, unixDay_eq taipei.month_pos taipei.month_le taipei.day_pos (by decide)]
  decide +kernel

end Innen.Time
