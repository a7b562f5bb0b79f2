import Innen.Common.Text
import Mathlib.Tactic.IntervalCases

/-!
# The civil calendar

Days are counted in years that start in March, so that the day of a leap year comes last. A day has one such year and one
month in it (`marchYear_unique`, `month_unique`), which makes the count of a date and the date of a count inverse to each
other. The calendar itself, with its years from January and its lengths of months, is defined without that trick
(`unixDay`), and the count agrees with it (`unixDay_eq`).
-/

namespace Innen.Time

open Common

/-! ## The calendar -/

/-- The days of a year. -/
def daysInYear (y : ℕ) : ℕ := if y % 4 = 0 ∧ (y % 100 ≠ 0 ∨ y % 400 = 0) then 366 else 365

/-- The days of the years from year zero on. -/
def daysBeforeYear : ℕ → ℕ
  | 0 => 0
  | y + 1 => daysBeforeYear y + daysInYear y

/-- The days of the months of a year up to one month. -/
def daysUpToMonth (y : ℕ) : ℕ → ℕ
  | 0 => 0
  | m + 1 => daysUpToMonth y m + daysInMonth y (m + 1)

/-- The days from the first of January 1970 to a date, negative before. -/
def unixDay (y m d : ℕ) : ℤ := daysBeforeYear y + daysUpToMonth y (m - 1) + d - 719529

/-! ## Years and months from March on -/

/-- The days of the years from March of year zero on. -/
def marchDays (y : ℕ) : ℕ := 365 * y + y / 4 - y / 100 + y / 400

/-- The days of a year before one of its months, counted from March. -/
def monthStart (mp : ℕ) : ℕ := (153 * mp + 2) / 5

theorem marchDays_lt_succ (y : ℕ) : marchDays y + 365 ≤ marchDays (y + 1) ∧ marchDays (y + 1) ≤ marchDays y + 366 := by
  unfold marchDays
  omega

theorem marchDays_mono {y y' : ℕ} (h : y ≤ y') : marchDays y ≤ marchDays y' := by
  induction h with
  | refl => exact le_rfl
  | step _ ih => exact ih.trans ((Nat.le_add_right _ 365).trans (marchDays_lt_succ _).1)

/-- Four centuries always have as many days. -/
theorem marchDays_era (era yoe : ℕ) : marchDays (yoe + era * 400) = marchDays yoe + era * 146097 := by
  unfold marchDays
  omega

/-- A day of a later count lies in no earlier year. -/
theorem marchYear_le {y y' z z' : ℕ} (hy : marchDays y ≤ z) (hy' : z' < marchDays (y' + 1)) (h : z ≤ z') : y ≤ y' := by
  by_contra hlt
  have hmono : marchDays (y' + 1) ≤ marchDays y := marchDays_mono (by omega)
  omega

theorem month_le {mp mp' n n' : ℕ} (hm : monthStart mp ≤ n) (hm' : n' < monthStart (mp' + 1)) (h : n ≤ n') : mp ≤ mp' := by
  unfold monthStart at *
  omega

/-! ## From days to dates -/

/-- The year of a day in its era of 400 years. -/
def yearOfEra (doe : ℕ) : ℕ := (doe - doe / 1460 + doe / 36524 - doe / 146096) / 365

/-- The days of an era as they are divided into years. -/
theorem yearOfEra_spec {doe : ℕ} (h : doe < 146097) :
    marchDays (yearOfEra doe) ≤ doe ∧ doe < marchDays (yearOfEra doe + 1) ∧ yearOfEra doe < 400 := by
  -- The dividend grows with the day, so its values at the ends of a year tell it in between.
  have hmono : ∀ {a b : ℕ}, a ≤ b → a - a / 1460 + a / 36524 - a / 146096 ≤ b - b / 1460 + b / 36524 - b / 146096 := by
    intro a b hab
    induction hab with
    | refl => exact le_rfl
    | step _ ih => omega
  have hends : ∀ y < 400, 365 * y ≤ marchDays y - marchDays y / 1460 + marchDays y / 36524 - marchDays y / 146096 ∧
      (marchDays (y + 1) - 1) - (marchDays (y + 1) - 1) / 1460 + (marchDays (y + 1) - 1) / 36524 -
        (marchDays (y + 1) - 1) / 146096 < 365 * (y + 1) := by decide +kernel
  have hle : marchDays (Nat.findGreatest (fun y => marchDays y ≤ doe) 399) ≤ doe :=
    Nat.findGreatest_spec (P := fun y => marchDays y ≤ doe) (Nat.zero_le 399) (Nat.zero_le doe)
  have hbound : Nat.findGreatest (fun y => marchDays y ≤ doe) 399 ≤ 399 := Nat.findGreatest_le 399
  have hlt : doe < marchDays (Nat.findGreatest (fun y => marchDays y ≤ doe) 399 + 1) := by
    by_contra hge
    rcases Nat.lt_or_ge (Nat.findGreatest (fun y => marchDays y ≤ doe) 399) 399 with hlast | hlast
    · exact Nat.findGreatest_is_greatest (P := fun y => marchDays y ≤ doe) (Nat.lt_succ_self _) hlast (not_lt.mp hge)
    · rw [le_antisymm hbound hlast] at hge
      exact hge (h.trans_le (by decide))
  generalize Nat.findGreatest (fun y => marchDays y ≤ doe) 399 = y at hle hbound hlt
  obtain ⟨hfirst, hlast⟩ := hends y (by omega)
  have hyear : yearOfEra doe = y := by
    have hlow := hfirst.trans (hmono hle)
    have hhigh := (hmono (show doe ≤ marchDays (y + 1) - 1 by omega)).trans_lt hlast
    unfold yearOfEra
    omega
  rw [hyear]
  exact ⟨hle, hlt, by omega⟩

/-- `days_to_ymd`: year, month and day. -/
def daysToYmd (days : ℕ) : ℕ × ℕ × ℕ :=
  let z := days + 719468
  let era := z / 146097
  let doe := z - era * 146097
  let yoe := yearOfEra doe
  let y := (yoe + era * 400) % 2 ^ 32
  let doy := doe - (365 * yoe + yoe / 4 - yoe / 100)
  let mp := (5 * doy + 2) / 153
  let d := doy - (153 * mp + 2) / 5 + 1
  let m := if mp < 10 then mp + 3 else mp - 9
  (if m ≤ 2 then y + 1 else y, m, d)

/-- A date by its year and month from March on. -/
structure MarchDate where
  year : ℕ
  month : ℕ
  day : ℕ
deriving DecidableEq

/-- The place of a date in the count of days. -/
def MarchDate.count (date : MarchDate) : ℕ := marchDays date.year + monthStart date.month + date.day - 1

/-- A date that exists: its day lies in its month and its year. -/
structure MarchDate.Exists (date : MarchDate) : Prop where
  month_le : date.month ≤ 11
  day_pos : 1 ≤ date.day
  in_month : monthStart date.month + date.day ≤ monthStart (date.month + 1)
  in_year : marchDays date.year + monthStart date.month + date.day ≤ marchDays (date.year + 1)

/-- The date at a place in the count of days. -/
def marchDate (z : ℕ) : MarchDate :=
  let doe := z % 146097
  let doy := doe - marchDays (yearOfEra doe)
  let mp := (5 * doy + 2) / 153
  ⟨yearOfEra doe + z / 146097 * 400, mp, doy - monthStart mp + 1⟩

/-- Every day has an existing date, which has its place in the count. -/
theorem marchDate_spec (z : ℕ) : (marchDate z).Exists ∧ (marchDate z).count = z := by
  obtain ⟨hle, hlt, hyear⟩ := yearOfEra_spec (Nat.mod_lt z (by decide : 0 < 146097))
  have hspan := (marchDays_lt_succ (yearOfEra (z % 146097))).2
  have hera := marchDays_era (z / 146097) (yearOfEra (z % 146097))
  have hera' := marchDays_era (z / 146097) (yearOfEra (z % 146097) + 1)
  have hz := Nat.div_add_mod z 146097
  have hnext : yearOfEra (z % 146097) + z / 146097 * 400 + 1 = yearOfEra (z % 146097) + 1 + z / 146097 * 400 := by omega
  unfold marchDate MarchDate.count
  simp only
  generalize hdoy : z % 146097 - marchDays (yearOfEra (z % 146097)) = doy at *
  have hstart : monthStart ((5 * doy + 2) / 153) ≤ doy ∧ doy < monthStart ((5 * doy + 2) / 153 + 1) ∧
      (5 * doy + 2) / 153 ≤ 11 := by
    unfold monthStart
    omega
  refine ⟨⟨hstart.2.2, ?_, ?_, ?_⟩, ?_⟩
  · exact Nat.le_add_left 1 _
  · dsimp only
    omega
  · dsimp only
    rw [hnext]
    omega
  · omega

/-- Dates follow each other as their places in the count do. -/
theorem MarchDate.lt_of_count_lt {a b : MarchDate} (ha : a.Exists) (hb : b.Exists) (h : a.count < b.count) :
    a.year < b.year ∨ a.year = b.year ∧ (a.month < b.month ∨ a.month = b.month ∧ a.day < b.day) := by
  obtain ⟨-, hday, hmonth, hyear⟩ := ha
  obtain ⟨-, hday', hmonth', hyear'⟩ := hb
  unfold MarchDate.count at h
  have hle : a.year ≤ b.year := @marchYear_le _ _ a.count b.count (by unfold count; omega) (by unfold count; omega)
    (by unfold count; omega)
  rcases hle.lt_or_eq with hlt | heq
  · exact .inl hlt
  · refine .inr ⟨heq, ?_⟩
    rw [heq] at h
    have hmle : a.month ≤ b.month := @month_le _ _ (monthStart a.month + a.day - 1) (monthStart b.month + b.day - 1)
      (by omega) (by omega) (by omega)
    rcases hmle.lt_or_eq with hlt | heq
    · exact .inl hlt
    · rw [heq] at h
      exact .inr ⟨heq, by omega⟩

/-! ## Years from January on -/

/-- Year, month and day of a date. -/
def MarchDate.ymd (date : MarchDate) : ℕ × ℕ × ℕ :=
  let m := if date.month < 10 then date.month + 3 else date.month - 9
  (if m ≤ 2 then date.year + 1 else date.year, m, date.day)

theorem MarchDate.year_le_ymd (date : MarchDate) : date.year ≤ date.ymd.1 := by
  unfold ymd
  dsimp only
  split_ifs <;> omega

/-- The date with this year, month and day. -/
def MarchDate.ofYmd (y m d : ℕ) : MarchDate := if m ≤ 2 then ⟨y - 1, m + 9, d⟩ else ⟨y, m - 3, d⟩

/-- The code computes the date at the place of a day, as long as its year fits 32 bits. -/
theorem daysToYmd_eq {days : ℕ} (h : (marchDate (days + 719468)).year < 2 ^ 32) :
    daysToYmd days = (marchDate (days + 719468)).ymd := by
  obtain ⟨-, -, hyear⟩ := yearOfEra_spec (Nat.mod_lt (days + 719468) (by decide : 0 < 146097))
  have hdoe : days + 719468 - (days + 719468) / 146097 * 146097 = (days + 719468) % 146097 := by omega
  have hmarch : ∀ y < 400, 365 * y + y / 4 - y / 100 = marchDays y := by
    intro y hy
    unfold marchDays
    omega
  have hmod := Nat.mod_eq_of_lt h
  unfold marchDate at hmod
  simp only at hmod
  unfold daysToYmd MarchDate.ymd marchDate
  simp only [hdoe, hmarch _ hyear, hmod, monthStart]

/-- The date of year, month and day is the one they are read from. -/
theorem MarchDate.ofYmd_ymd {date : MarchDate} (h : date.Exists) :
    MarchDate.ofYmd date.ymd.1 date.ymd.2.1 date.ymd.2.2 = date := by
  obtain ⟨year, month, day⟩ := date
  have hmonth : month ≤ 11 := h.month_le
  unfold ymd ofYmd
  simp only
  by_cases hlate : month < 10
  · rw [if_pos hlate, if_neg (by omega), if_neg (by omega)]
    simp
  · rw [if_neg hlate, if_pos (by omega), if_pos (by omega)]
    simp only [Nat.add_sub_cancel, MarchDate.mk.injEq, true_and, and_true]
    omega

/-- The fields of a date that exists. -/
theorem MarchDate.ymd_bounds {date : MarchDate} (h : date.Exists) :
    1 ≤ date.ymd.2.1 ∧ date.ymd.2.1 ≤ 12 ∧ 1 ≤ date.ymd.2.2 ∧ date.ymd.2.2 ≤ 31 ∧ (date.ymd.1 = 0 → 3 ≤ date.ymd.2.1) := by
  obtain ⟨hmonth, hday, hin, -⟩ := h
  unfold monthStart at hin
  unfold ymd
  simp only
  refine ⟨?_, ?_, hday, by omega, fun hyear => ?_⟩
  · split_ifs <;> omega
  · split_ifs <;> omega
  · split_ifs at hyear ⊢ <;> omega

/-- Years, months and days follow each other as the places in the count do. -/
theorem MarchDate.ymd_lt {a b : MarchDate} (ha : a.Exists) (hb : b.Exists) (h : a.count < b.count) :
    a.ymd.1 < b.ymd.1 ∨ a.ymd.1 = b.ymd.1 ∧ (a.ymd.2.1 < b.ymd.2.1 ∨ a.ymd.2.1 = b.ymd.2.1 ∧ a.ymd.2.2 < b.ymd.2.2) := by
  have hlt := MarchDate.lt_of_count_lt ha hb h
  have hmonth := ha.month_le
  have hmonth' := hb.month_le
  unfold ymd
  simp only
  split_ifs <;> omega

/-! ## The count and the calendar -/

theorem daysBeforeYear_succ (y : ℕ) : daysBeforeYear (y + 1) = marchDays y + 366 := by
  induction y with
  | zero => rfl
  | succ y ih =>
    have hstep : marchDays (y + 1) = marchDays y + daysInYear (y + 1) := by
      have hsmall : y / 100 ≤ 365 * y + y / 4 := (Nat.div_le_self y 100).trans (by omega)
      have h100 : 100 ∣ y + 1 → 4 ∣ y + 1 := dvd_trans (by decide)
      have h400 : 400 ∣ y + 1 → 100 ∣ y + 1 := dvd_trans (by decide)
      unfold marchDays daysInYear
      rw [Nat.succ_div, Nat.succ_div, Nat.succ_div]
      simp only [← Nat.dvd_iff_mod_eq_zero]
      generalize y / 4 = a, y / 100 = b, y / 400 = c at *
      split_ifs <;> omega
    rw [daysBeforeYear, ih, hstep]
    omega

/-- The days before a month, counted from March or from January. -/
theorem daysUpToMonth_eq {y m : ℕ} (hm : 1 ≤ m) (hm' : m ≤ 12) :
    daysUpToMonth y (m - 1) = if m ≤ 2 then monthStart (m + 9) - 306 else
      monthStart (m - 3) + if y % 4 = 0 ∧ (y % 100 ≠ 0 ∨ y % 400 = 0) then 60 else 59 := by
  have hlong : ∀ k ∈ [1, 3, 5, 7, 8, 10], daysInMonth y k = 31 := fun k hk => if_pos (by revert k; decide)
  have hshort : ∀ k ∈ [4, 6, 9, 11], daysInMonth y k = 30 := by
    intro k hk
    rw [daysInMonth, if_neg (by revert k; decide), if_pos hk]
  have hfebruary : daysInMonth y 2 = if y % 4 = 0 ∧ (y % 100 ≠ 0 ∨ y % 400 = 0) then 29 else 28 := by
    rw [daysInMonth, if_neg (by decide), if_neg (by decide), if_pos rfl]
  have h2 : daysUpToMonth y 2 = if y % 4 = 0 ∧ (y % 100 ≠ 0 ∨ y % 400 = 0) then 60 else 59 := by
    rw [daysUpToMonth, daysUpToMonth, daysUpToMonth, hlong 1 (by decide), hfebruary]
    split_ifs <;> rfl
  have hnext : ∀ k, daysUpToMonth y (k + 1) = daysUpToMonth y k + daysInMonth y (k + 1) := fun _ => rfl
  by_cases hearly : m ≤ 2
  · rw [if_pos hearly]
    rcases (by omega : m = 1 ∨ m = 2) with rfl | rfl
    · rfl
    · rw [hnext, hlong 1 (by decide)]
      rfl
  · rw [if_neg hearly, ← h2]
    -- From February on each month adds its days.
    have h3 : daysUpToMonth y 3 = daysUpToMonth y 2 + 31 := congrArg (daysUpToMonth y 2 + ·) (hlong 3 (by decide))
    have h4 : daysUpToMonth y 4 = daysUpToMonth y 3 + 30 := congrArg (daysUpToMonth y 3 + ·) (hshort 4 (by decide))
    have h5 : daysUpToMonth y 5 = daysUpToMonth y 4 + 31 := congrArg (daysUpToMonth y 4 + ·) (hlong 5 (by decide))
    have h6 : daysUpToMonth y 6 = daysUpToMonth y 5 + 30 := congrArg (daysUpToMonth y 5 + ·) (hshort 6 (by decide))
    have h7 : daysUpToMonth y 7 = daysUpToMonth y 6 + 31 := congrArg (daysUpToMonth y 6 + ·) (hlong 7 (by decide))
    have h8 : daysUpToMonth y 8 = daysUpToMonth y 7 + 31 := congrArg (daysUpToMonth y 7 + ·) (hlong 8 (by decide))
    have h9 : daysUpToMonth y 9 = daysUpToMonth y 8 + 30 := congrArg (daysUpToMonth y 8 + ·) (hshort 9 (by decide))
    have h10 : daysUpToMonth y 10 = daysUpToMonth y 9 + 31 := congrArg (daysUpToMonth y 9 + ·) (hlong 10 (by decide))
    have h11 : daysUpToMonth y 11 = daysUpToMonth y 10 + 30 := congrArg (daysUpToMonth y 10 + ·) (hshort 11 (by decide))
    rcases (by omega : m = 3 ∨ m = 4 ∨ m = 5 ∨ m = 6 ∨ m = 7 ∨ m = 8 ∨ m = 9 ∨ m = 10 ∨ m = 11 ∨ m = 12) with
      rfl | rfl | rfl | rfl | rfl | rfl | rfl | rfl | rfl | rfl <;>
    · unfold monthStart
      simp only [Nat.reduceSub]
      omega

/-- The count agrees with the calendar. -/
theorem unixDay_eq {y m d : ℕ} (hm : 1 ≤ m) (hm' : m ≤ 12) (hd : 1 ≤ d) (hy : y = 0 → 3 ≤ m) :
    unixDay y m d = (MarchDate.ofYmd y m d).count - 719468 := by
  unfold unixDay MarchDate.ofYmd MarchDate.count
  rw [daysUpToMonth_eq hm hm']
  by_cases hearly : m ≤ 2
  · obtain ⟨x, rfl⟩ : ∃ x, y = x + 1 := ⟨y - 1, by omega⟩
    have hstart : 306 ≤ monthStart (m + 9) := by
      unfold monthStart
      omega
    rw [if_pos hearly, if_pos hearly, daysBeforeYear_succ]
    dsimp only
    rw [Nat.add_sub_cancel]
    omega
  · rw [if_neg hearly, if_neg hearly]
    dsimp only
    cases y with
    | zero =>
      rw [daysBeforeYear, marchDays, if_pos (by decide)]
      omega
    | succ y =>
      have hstep := daysBeforeYear_succ (y + 1)
      rw [daysBeforeYear, daysInYear] at hstep
      split_ifs at hstep ⊢ <;> omega

end Innen.Time
