import Innen.Time.Calendar
import Mathlib.Data.String.Basic

/-!
# Times as text

A Unix second is printed as `YYYY-MM-DDTHH:MM:SSZ`, in one place with signed and in another with unsigned arithmetic
(`formatUtc_eq`). Every field has its fixed width as long as the year has four digits, and then texts are ordered as
the seconds are.
-/

namespace Innen.Time

open Common

/-! ## Digits of a fixed width -/

/-- A number with zeros in front up to a width. -/
def padded (width n : ℕ) : List Char :=
  List.replicate (width - (Nat.toDigits 10 n).length) '0' ++ Nat.toDigits 10 n

theorem isDigit_of_mem_padded {width n : ℕ} {c : Char} (h : c ∈ padded width n) : c.isDigit := by
  rcases List.mem_append.mp h with hzero | hdigit
  · rw [(List.mem_replicate.mp hzero).2]
    rfl
  · exact Nat.isDigit_of_mem_toDigits (by decide) (by decide) hdigit

theorem length_padded {width n : ℕ} (hwidth : 0 < width) (h : n < 10 ^ width) : (padded width n).length = width := by
  have hlen : (Nat.toDigits 10 n).length ≤ width := (Nat.length_toDigits_le_iff (by decide) hwidth).mpr h
  rw [padded, List.length_append, List.length_replicate]
  omega

@[simp] theorem ofDigitChars_padded (width n : ℕ) : Nat.ofDigitChars 10 (padded width n) 0 = n := by
  rw [padded, Nat.ofDigitChars_append, Nat.ofDigitChars_replicate_zero, Nat.mul_zero, Nat.ofDigitChars_ten_toDigits]

theorem toNat_of_isDigit {c : Char} (h : c.isDigit) : 48 ≤ c.toNat ∧ c.toNat ≤ 57 := by
  rw [Char.isDigit_iff_toNat] at h
  exact h

theorem ofDigitChars_lt {cs : List Char} (h : ∀ c ∈ cs, c.isDigit) : Nat.ofDigitChars 10 cs 0 < 10 ^ cs.length := by
  induction cs with
  | nil => exact Nat.one_pos
  | cons c cs ih =>
    have hc := toNat_of_isDigit (h c List.mem_cons_self)
    have hcs := ih fun d hd => h d (List.mem_cons_of_mem _ hd)
    rw [Nat.ofDigitChars_cons, Nat.ofDigitChars_eq_ofDigitChars_zero, List.length_cons, Nat.pow_succ]
    have hzero : '0'.toNat = 48 := rfl
    have hpow : 10 ^ cs.length * (10 * 0 + (c.toNat - '0'.toNat)) ≤ 10 ^ cs.length * 9 :=
      Nat.mul_le_mul_left _ (by omega)
    omega

/-- Of as many digits the smaller number comes first, whatever follows. -/
theorem append_lt_append {cs ds : List Char} (hcs : ∀ c ∈ cs, c.isDigit) (hds : ∀ d ∈ ds, d.isDigit)
    (hlen : cs.length = ds.length) (h : Nat.ofDigitChars 10 cs 0 < Nat.ofDigitChars 10 ds 0) (xs ys : List Char) :
    cs ++ xs < ds ++ ys := by
  induction cs generalizing ds with
  | nil =>
    rw [List.length_eq_zero_iff.mp hlen.symm] at h
    exact absurd h (Nat.lt_irrefl _)
  | cons c cs ih =>
    obtain ⟨d, ds, rfl⟩ := List.exists_cons_of_length_eq_add_one (hlen.symm.trans (List.length_cons ..))
    have hc := toNat_of_isDigit (hcs c List.mem_cons_self)
    have hd := toNat_of_isDigit (hds d List.mem_cons_self)
    have hcs' : ∀ c ∈ cs, c.isDigit := fun e he => hcs e (List.mem_cons_of_mem _ he)
    have hds' : ∀ d ∈ ds, d.isDigit := fun e he => hds e (List.mem_cons_of_mem _ he)
    have hlen' : cs.length = ds.length := Nat.succ.inj hlen
    rw [List.cons_append, List.cons_append, List.cons_lt_cons_iff]
    rw [Nat.ofDigitChars_cons, Nat.ofDigitChars_cons, Nat.ofDigitChars_eq_ofDigitChars_zero,
      Nat.ofDigitChars_eq_ofDigitChars_zero (l := ds)] at h
    have hzero : '0'.toNat = 48 := rfl
    rcases lt_trichotomy c d with hlt | rfl | hgt
    · exact .inl hlt
    · exact .inr ⟨rfl, ih hcs' hds' hlen' (by rw [hlen'] at h; omega)⟩
    · have hltd : d.toNat < c.toNat := hgt
      have hbound := ofDigitChars_lt hds'
      rw [hlen'] at h
      have hmul : 10 ^ ds.length * (10 * 0 + (d.toNat - '0'.toNat)) + 10 ^ ds.length ≤
          10 ^ ds.length * (10 * 0 + (c.toNat - '0'.toNat)) := by
        rw [← Nat.mul_succ]
        exact Nat.mul_le_mul_left _ (by omega)
      omega

/-- Two fields of one width, one behind the other with the rest of the text. -/
theorem padded_append_lt {width m n : ℕ} (hwidth : 0 < width) (hm : m < 10 ^ width) (hn : n < 10 ^ width) {xs ys : List Char}
    (h : m < n ∨ m = n ∧ xs < ys) : padded width m ++ xs < padded width n ++ ys := by
  rcases h with hlt | ⟨rfl, hrest⟩
  · refine append_lt_append (fun _ => isDigit_of_mem_padded) (fun _ => isDigit_of_mem_padded) ?_ ?_ xs ys
    · rw [length_padded hwidth hm, length_padded hwidth hn]
    · rwa [ofDigitChars_padded, ofDigitChars_padded]
  · exact List.append_left_lt hrest

/-! ## Date and time as text -/

/-- `YYYY-MM-DDTHH:MM:SSZ`: fields of four digits and of two. -/
def dateTimeChars (year month day hour minute second : List Char) : List Char :=
  year ++ '-' :: (month ++ '-' :: (day ++ 'T' :: (hour ++ ':' :: (minute ++ ':' :: (second ++ ['Z'])))))

/-- `system_time_to_rfc3339`, for the seconds since the epoch, zero for a time before it. -/
def systemTimeToRfc3339 (secs : ℕ) : String :=
  let days := secs / 86400
  let rem := secs % 86400
  let hours := rem / 3600
  let mins := rem % 3600 / 60
  let s := rem % 60
  let date := daysToYmd days
  String.ofList (dateTimeChars (padded 4 date.1) (padded 2 date.2.1) (padded 2 date.2.2) (padded 2 hours) (padded 2 mins)
    (padded 2 s))

/-- A signed number with zeros up to a width, which counts the sign. -/
def paddedInt (width : ℕ) : ℤ → List Char
  | .ofNat n => padded width n
  | .negSucc n => '-' :: padded (width - 1) (n + 1)

/-- Year, month and day as `format_utc` computes them, in signed arithmetic whose division rounds towards zero. -/
def signedYmd (days : ℤ) : ℤ × ℤ × ℤ :=
  let z := days + 719468
  let era := (if 0 ≤ z then z else z - 146096).tdiv 146097
  let doe := z - era * 146097
  let yoe := (doe - doe.tdiv 1460 + doe.tdiv 36524 - doe.tdiv 146096).tdiv 365
  let y := yoe + era * 400
  let doy := doe - (365 * yoe + yoe.tdiv 4 - yoe.tdiv 100)
  let mp := (5 * doy + 2).tdiv 153
  let d := doy - (153 * mp + 2).tdiv 5 + 1
  let m := if mp < 10 then mp + 3 else mp - 9
  (if m ≤ 2 then y + 1 else y, m, d)

/-- `format_utc`. -/
def formatUtc (secs : ℕ) : String :=
  let days : ℤ := (secs / 86400 : ℕ)
  let secsOfDay := secs % 86400
  let date := signedYmd days
  String.ofList (dateTimeChars (paddedInt 4 date.1) (paddedInt 2 date.2.1) (paddedInt 2 date.2.2)
    (padded 2 (secsOfDay / 3600)) (padded 2 (secsOfDay % 3600 / 60)) (padded 2 (secsOfDay % 60)))

example : formatUtc 951782400 = "2000-02-29T00:00:00Z" := by decide +kernel

/-- On numbers that are not negative the signed division is that of the naturals. -/
theorem natCast_tdiv (a b : ℕ) : (a : ℤ).tdiv b = (a / b : ℕ) := rfl

/-- The signed date is that of the day. -/
theorem signedYmd_eq (days : ℕ) :
    signedYmd days = (((marchDate (days + 719468)).ymd.1 : ℤ), ((marchDate (days + 719468)).ymd.2.1 : ℤ),
      ((marchDate (days + 719468)).ymd.2.2 : ℤ)) := by
  obtain ⟨hle, -, hyear⟩ := yearOfEra_spec (Nat.mod_lt (days + 719468) (by decide : 0 < 146097))
  have hz := Nat.div_add_mod (days + 719468) 146097
  have hjanuary : ∀ x m : ℕ, (if (m : ℤ) ≤ 2 then (x : ℤ) + 1 else x) = (if m ≤ 2 then x + 1 else x : ℕ) := by
    intro x m
    split_ifs <;> omega
  delta signedYmd
  extract_lets z era doe yoe y doy mp d m
  -- Step by step the signed values are the unsigned ones.
  have hera : era = ((days + 719468) / 146097 : ℕ) := by
    rw [← natCast_tdiv]
    exact congrArg (Int.tdiv · 146097) (if_pos (Int.natCast_nonneg (days + 719468)))
  have hdoe : doe = ((days + 719468) % 146097 : ℕ) := by
    show (days : ℤ) + 719468 - era * 146097 = _
    omega
  unfold MarchDate.ymd marchDate
  dsimp only
  generalize hn : (days + 719468) % 146097 = n at *
  have hyoe : yoe = yearOfEra n := by
    have h1 : (n : ℤ).tdiv 1460 = (n / 1460 : ℕ) := rfl
    have h2 : (n : ℤ).tdiv 36524 = (n / 36524 : ℕ) := rfl
    have h3 : (n : ℤ).tdiv 146096 = (n / 146096 : ℕ) := rfl
    rw [yearOfEra, ← natCast_tdiv]
    refine congrArg (Int.tdiv · 365) ?_
    rw [hdoe]
    omega
  obtain ⟨k, hk⟩ : ∃ k, n - marchDays (yearOfEra n) = k := ⟨_, rfl⟩
  simp only [hk]
  have hdoy : doy = k := by
    have h4 : (yearOfEra n : ℤ).tdiv 4 = (yearOfEra n / 4 : ℕ) := rfl
    have h100 : (yearOfEra n : ℤ).tdiv 100 = (yearOfEra n / 100 : ℕ) := rfl
    show doe - (365 * yoe + yoe.tdiv 4 - yoe.tdiv 100) = _
    rw [hyoe, hdoe]
    unfold marchDays at hle hk
    omega
  have hmp : mp = ((5 * k + 2) / 153 : ℕ) := by
    rw [← natCast_tdiv]
    refine congrArg (Int.tdiv · 153) ?_
    rw [hdoy]
    rfl
  have hd : d = (k - monthStart ((5 * k + 2) / 153) + 1 : ℕ) := by
    have hstart : (153 * ((5 * k + 2) / 153 : ℕ) + 2 : ℤ).tdiv 5 = ((153 * ((5 * k + 2) / 153) + 2) / 5 : ℕ) := rfl
    show doy - (153 * mp + 2).tdiv 5 + 1 = _
    rw [hmp, hdoy]
    unfold monthStart
    omega
  have hm : m = (if (5 * k + 2) / 153 < 10 then (5 * k + 2) / 153 + 3 else (5 * k + 2) / 153 - 9 : ℕ) := by
    show (if mp < 10 then mp + 3 else mp - 9) = _
    rw [hmp]
    split_ifs <;> omega
  have hy : y = (yearOfEra n + (days + 719468) / 146097 * 400 : ℕ) := by
    show yoe + era * 400 = _
    rw [hyoe, hera]
    push_cast
    rfl
  rw [hd, hm, hy]
  exact Prod.ext (hjanuary _ _) rfl

/-- Both formats print the same text, as long as the year fits 32 bits. -/
theorem formatUtc_eq {secs : ℕ} (h : (marchDate (secs / 86400 + 719468)).year < 2 ^ 32) :
    formatUtc secs = systemTimeToRfc3339 secs := by
  simp only [formatUtc, systemTimeToRfc3339, signedYmd_eq, daysToYmd_eq h]
  rfl

end Innen.Time
