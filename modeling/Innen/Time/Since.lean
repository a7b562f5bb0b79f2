import Innen.Common.ByteLines
import Innen.Common.Except
import Innen.Time.Format

/-!
# Reading times

The `--since` option is a day, a count of days or hours back, or a date, and a transcript's time is a date with its time
of day. The text is cut at fixed bytes, which stops the program where a character is cut, and a date is turned into days
with arithmetic that stops below zero. Both ways to stop are results here (`Panic`).
-/

namespace Innen.Time

open Common

/-! ## Runs that do not return -/

/-- Why a run does not return: text is cut inside a character or behind its end, or a number leaves its range. -/
inductive Panic
  | slice
  | overflow
deriving DecidableEq

/-- A number of so many bits. -/
def fits (bits n : ℕ) : Except Panic ℕ := if n < 2 ^ bits then .ok n else .error .overflow

/-- A difference of numbers without sign. -/
def minus (a b : ℕ) : Except Panic ℕ := if b ≤ a then .ok (a - b) else .error .overflow

/-- The characters before a byte and those from it on, unless the byte is inside a character or behind the text. -/
def splitAtByte : ℕ → List Char → Option (List Char × List Char)
  | 0, cs => some ([], cs)
  | _ + 1, [] => none
  | n + 1, c :: cs =>
    if c.utf8Size ≤ n + 1 then (splitAtByte (n + 1 - c.utf8Size) cs).map fun p => (c :: p.1, p.2) else none

/-- `&s[a..b]`. -/
def slice (s : String) (a b : ℕ) : Except Panic (List Char) :=
  ((splitAtByte b s.toList).bind fun p => (splitAtByte a p.1).map Prod.snd).elim (.error .slice) .ok

/-! ## Dates and times of day -/

/-- `str::parse` for a number without sign of so many bits: digits, with at most a `+` in front. -/
def parseUnsigned (bits : ℕ) (cs : List Char) : Option ℕ :=
  let digits := if cs.head? = some '+' then cs.tail else cs
  if digits ≠ [] ∧ digits.all Char.isDigit ∧ Nat.ofDigitChars 10 digits 0 < 2 ^ bits then
    some (Nat.ofDigitChars 10 digits 0)
  else none

/-- Three numbers between separators. -/
def threeNumbers (sep : Char) (bits : ℕ) (cs : List Char) : Option (ℕ × ℕ × ℕ) :=
  match cs.splitOn sep with
  | [a, b, c] => do
    let a ← parseUnsigned bits a
    let b ← parseUnsigned bits b
    let c ← parseUnsigned bits c
    some (a, b, c)
  | _ => none

/-- The days since the first of January 1970 for a year and a month that are counted from March, zero before. -/
def marchToDays (y m d : ℕ) : Except Panic ℕ := do
  let era := y / 400
  let yoe := y - era * 400
  let scaled ← fits 32 (153 * m + 2)
  let day ← fits 32 (scaled / 5 + d)
  let doy ← minus day 1
  let doe ← fits 32 (yoe * 365 + yoe / 4 - yoe / 100 + doy)
  let count ← fits 64 (era * 146097 + doe)
  .ok (count - 719468)

/-- `ymd_to_days`: January and February belong to the year before. -/
def ymdToDays (y m d : ℕ) : Except Panic ℕ :=
  if m ≤ 2 then do
    let y ← minus y 1
    let m ← fits 32 (m + 9)
    marchToDays y m d
  else marchToDays y (m - 3) d

/-- The seconds of a date and a time of day, when both parts are three numbers. -/
def dateTimeSecs (datePart timePart : List Char) : Except Panic (Option ℕ) :=
  match threeNumbers '-' 32 datePart, threeNumbers ':' 64 timePart with
  | some (y, m, d), some (hr, mn, sc) => do
    let days ← ymdToDays y m d
    let ofDays ← fits 64 (days * 86400)
    let ofHours ← fits 64 (hr * 3600)
    let ofMinutes ← fits 64 (mn * 60)
    let secs ← fits 64 (ofDays + ofHours + ofMinutes + sc)
    .ok (some secs)
  | _, _ => .ok none

/-- The seconds of a text that has its date and its time of day at their places. -/
def secsAtPlaces (s : String) : Except Panic (Option ℕ) := do
  let datePart ← slice s 0 10
  let timePart ← slice s 11 19
  dateTimeSecs datePart timePart

/-- `rfc3339_to_secs`. -/
def rfc3339ToSecs (s : String) : Except Panic (Option ℕ) := if 19 ≤ s.utf8ByteSize then secsAtPlaces s else .ok none

/-! ## What the steps give -/

section Steps

variable {α β : Type}

theorem ok_bind (a : α) (f : α → Except Panic β) : (Except.ok a >>= f) = f a := rfl

theorem error_bind (e : Panic) (f : α → Except Panic β) : (Except.error e >>= f) = .error e := rfl

end Steps

theorem fits_eq {bits n : ℕ} (h : n < 2 ^ bits) : fits bits n = .ok n := if_pos h

theorem minus_eq {a b : ℕ} (h : b ≤ a) : minus a b = .ok (a - b) := if_pos h

@[simp] theorem utf8Bytes_nil : utf8Bytes [] = [] := rfl

@[simp] theorem length_utf8Bytes_cons (c : Char) (cs : List Char) :
    (utf8Bytes (c :: cs)).length = c.utf8Size + (utf8Bytes cs).length := by
  rw [utf8Bytes, List.flatMap_cons, List.length_append, String.length_utf8EncodeChar, utf8Bytes]

@[simp] theorem length_utf8Bytes_append (xs ys : List Char) :
    (utf8Bytes (xs ++ ys)).length = (utf8Bytes xs).length + (utf8Bytes ys).length := by
  rw [utf8Bytes, List.flatMap_append, List.length_append, utf8Bytes, utf8Bytes]

theorem length_le_utf8Bytes (cs : List Char) : cs.length ≤ (utf8Bytes cs).length := by
  induction cs with
  | nil => exact le_rfl
  | cons c cs ih =>
    have hpos := c.utf8Size_pos
    rw [length_utf8Bytes_cons, List.length_cons]
    omega

theorem utf8ByteSize_eq (s : String) : s.utf8ByteSize = (utf8Bytes s.toList).length := by
  rw [← toByteArray_data_toList, Array.length_toList]
  rfl

/-- A text can be cut behind any of its characters. -/
theorem splitAtByte_append (xs ys : List Char) : splitAtByte (utf8Bytes xs).length (xs ++ ys) = some (xs, ys) := by
  induction xs with
  | nil => cases ys <;> rfl
  | cons c xs ih =>
    obtain ⟨k, hk⟩ := Nat.exists_eq_succ_of_ne_zero c.utf8Size_pos.ne'
    rw [length_utf8Bytes_cons, hk, Nat.succ_add, List.cons_append, splitAtByte, if_pos (by omega)]
    have hrest : k + (utf8Bytes xs).length + 1 - c.utf8Size = (utf8Bytes xs).length := by omega
    rw [Nat.succ_eq_add_one] at *
    rw [hrest, ih]
    rfl

/-- It can be cut nowhere else. -/
theorem of_splitAtByte {n : ℕ} {cs : List Char} {p : List Char × List Char} (h : splitAtByte n cs = some p) :
    cs = p.1 ++ p.2 ∧ (utf8Bytes p.1).length = n := by
  induction n, cs using splitAtByte.induct generalizing p with
  | case1 cs =>
    rw [splitAtByte] at h
    obtain rfl := Option.some.inj h
    exact ⟨rfl, rfl⟩
  | case2 n => exact absurd h (by simp [splitAtByte])
  | case3 n c cs hfits ih =>
    rw [splitAtByte, if_pos hfits] at h
    obtain ⟨q, hq, rfl⟩ := Option.map_eq_some_iff.mp h
    obtain ⟨hcs, hlen⟩ := ih hq
    refine ⟨congrArg (c :: ·) hcs, ?_⟩
    rw [length_utf8Bytes_cons, hlen]
    omega
  | case4 n c cs hfits =>
    rw [splitAtByte, if_neg hfits] at h
    exact absurd h (by simp)

/-- A slice is what stands between two places of a text that are no less than so many bytes. -/
theorem slice_eq_ok {s : String} {a b : ℕ} {part : List Char} :
    slice s a b = .ok part ↔
      ∃ xs ys, s.toList = xs ++ part ++ ys ∧ (utf8Bytes xs).length = a ∧ (utf8Bytes (xs ++ part)).length = b := by
  unfold slice
  constructor
  · intro h
    cases hb : splitAtByte b s.toList with
    | none =>
      rw [hb] at h
      exact absurd h (by simp)
    | some p =>
      rw [hb, Option.bind_some] at h
      cases ha : splitAtByte a p.1 with
      | none =>
        rw [ha] at h
        exact absurd h (by simp)
      | some q =>
        rw [ha] at h
        obtain rfl := Except.ok.inj h
        obtain ⟨hs, hlen⟩ := of_splitAtByte hb
        obtain ⟨hp, hlen'⟩ := of_splitAtByte ha
        exact ⟨q.1, p.2, by rw [← hp, hs], hlen', by rw [← hp, hlen]⟩
  · rintro ⟨xs, ys, hs, rfl, rfl⟩
    rw [hs, splitAtByte_append, Option.bind_some, splitAtByte_append]
    rfl

/-- A slice has no more characters than bytes. -/
theorem length_of_slice {s : String} {a b : ℕ} {part : List Char} (h : slice s a b = .ok part) : part.length ≤ b - a := by
  obtain ⟨xs, ys, -, ha, hb⟩ := slice_eq_ok.mp h
  have hlen := length_le_utf8Bytes part
  rw [length_utf8Bytes_append] at hb
  omega

/-- What is read as a number has no more digits than the text has characters. -/
theorem parseUnsigned_lt {bits n : ℕ} {cs : List Char} (h : parseUnsigned bits cs = some n) : n < 10 ^ cs.length ∧ cs ≠ [] := by
  unfold parseUnsigned at h
  dsimp only at h
  split_ifs at h with hplus hdigits hdigits
  all_goals
    obtain ⟨hne, hall, -⟩ := hdigits
    obtain rfl := Option.some.inj h
    have hlt := ofDigitChars_lt fun c hc => List.all_eq_true.mp hall c hc
  · refine ⟨hlt.trans_le (Nat.pow_le_pow_right (by decide) ?_), fun hnil => ?_⟩
    · rw [List.length_tail]
      exact Nat.sub_le _ 1
    · rw [hnil] at hne
      exact hne rfl
  · exact ⟨hlt, hne⟩

/-- Three numbers leave room for two separators and for each other. -/
theorem threeNumbers_lt {sep : Char} {bits k : ℕ} {cs : List Char} {a b c : ℕ} (h : threeNumbers sep bits cs = some (a, b, c))
    (hlen : cs.length ≤ k + 4) : a < 10 ^ k ∧ b < 10 ^ k ∧ c < 10 ^ k := by
  unfold threeNumbers at h
  split at h
  · rename_i x y z hsplit
    obtain ⟨a', ha, h⟩ := Option.bind_eq_some_iff.mp h
    obtain ⟨b', hb, h⟩ := Option.bind_eq_some_iff.mp h
    obtain ⟨c', hc, h⟩ := Option.bind_eq_some_iff.mp h
    obtain ⟨rfl, rfl, rfl⟩ : a' = a ∧ b' = b ∧ c' = c := by simpa using h
    have hjoin : cs = x ++ sep :: (y ++ sep :: z) := by
      have hback : [sep].intercalate (cs.splitOn sep) = cs := List.intercalate_splitOn sep
      rw [← hback, hsplit]
      simp [List.intercalate]
    obtain ⟨hx, hxne⟩ := parseUnsigned_lt ha
    obtain ⟨hy, hyne⟩ := parseUnsigned_lt hb
    obtain ⟨hz, hzne⟩ := parseUnsigned_lt hc
    have hxpos := List.length_pos_iff.mpr hxne
    have hypos := List.length_pos_iff.mpr hyne
    have hzpos := List.length_pos_iff.mpr hzne
    have hsum : x.length + (y.length + (z.length + 1) + 1) = cs.length := by
      rw [hjoin, List.length_append, List.length_cons, List.length_append, List.length_cons]
    exact ⟨hx.trans_le (Nat.pow_le_pow_right (by decide) (by omega)),
      hy.trans_le (Nat.pow_le_pow_right (by decide) (by omega)), hz.trans_le (Nat.pow_le_pow_right (by decide) (by omega))⟩
  · exact absurd h (by simp)

/-- The dates whose days are counted without a number below zero. -/
def Countable (y m d : ℕ) : Prop := (m ≤ 2 → 1 ≤ y) ∧ (m = 3 → 1 ≤ d)

theorem marchToDays_eq {y m d : ℕ} (hy : y < 10 ^ 6) (hm : m < 10 ^ 7) (hd : d < 10 ^ 6) (hpos : 1 ≤ monthStart m + d) :
    marchToDays y m d = .ok ((MarchDate.mk y m d).count - 719468) := by
  have hera := marchDays_era (y / 400) (y % 400)
  have hyear : y % 400 + y / 400 * 400 = y := by omega
  have hyoe : y - y / 400 * 400 = y % 400 := by omega
  have hspan : (y % 400) * 365 + y % 400 / 4 - y % 400 / 100 = marchDays (y % 400) := by
    unfold marchDays
    omega
  have hsmall : marchDays (y % 400) < 150000 := by
    unfold marchDays
    omega
  have hstart : (153 * m + 2) / 5 = monthStart m := rfl
  have hbound : monthStart m < 10 ^ 9 := by
    unfold monthStart
    omega
  rw [hyear] at hera
  have hcount : (MarchDate.mk y m d).count = marchDays y + monthStart m + d - 1 := rfl
  have hsum : y / 400 * 146097 + (marchDays (y % 400) + (monthStart m + d - 1)) = marchDays y + monthStart m + d - 1 := by
    omega
  unfold marchToDays
  dsimp only
  rw [hcount, hyoe, hspan, fits_eq (by omega), ok_bind, hstart, fits_eq (by omega), ok_bind, minus_eq hpos, ok_bind,
    fits_eq (by omega), ok_bind, fits_eq (by omega), ok_bind, hsum]

/-- The days of a date of few digits are counted exactly when that goes nowhere below zero. -/
theorem ymdToDays_cases {y m d : ℕ} (hy : y < 10 ^ 6) (hm : m < 10 ^ 6) (hd : d < 10 ^ 6) :
    (Countable y m d ∧ ymdToDays y m d = .ok ((MarchDate.ofYmd y m d).count - 719468)) ∨
      (¬Countable y m d ∧ ymdToDays y m d = .error .overflow) := by
  unfold ymdToDays MarchDate.ofYmd
  by_cases hearly : m ≤ 2
  · rw [if_pos hearly, if_pos hearly]
    by_cases hyear : 1 ≤ y
    · refine .inl ⟨⟨fun _ => hyear, fun hmarch => by omega⟩, ?_⟩
      rw [minus_eq hyear, ok_bind, fits_eq (by omega), ok_bind]
      have hpos : 1 ≤ monthStart (m + 9) := by
        unfold monthStart
        omega
      exact marchToDays_eq (by omega) (by omega) hd (by omega)
    · refine .inr ⟨fun h => hyear (h.1 hearly), ?_⟩
      rw [minus, if_neg hyear, error_bind]
  · rw [if_neg hearly, if_neg hearly]
    by_cases hday : m = 3 → 1 ≤ d
    · refine .inl ⟨⟨fun h => absurd h hearly, hday⟩, marchToDays_eq hy (by omega) hd ?_⟩
      unfold monthStart
      omega
    · refine .inr ⟨fun h => hday h.2, ?_⟩
      obtain ⟨rfl, hzero⟩ := Classical.not_imp.mp hday
      obtain rfl : d = 0 := by omega
      have hzero : minus 0 1 = .error .overflow := rfl
      unfold marchToDays
      rw [fits_eq (by decide), ok_bind, fits_eq (by decide), ok_bind, hzero, error_bind]

/-- A date of few digits is not far. -/
theorem count_ofYmd_lt {y m d : ℕ} (hy : y < 10 ^ 6) (hm : m < 10 ^ 6) (hd : d < 10 ^ 6) :
    (MarchDate.ofYmd y m d).count < 10 ^ 12 := by
  have hmarch : marchDays y ≤ 366 * y := by
    unfold marchDays
    omega
  have hmarch' : marchDays (y - 1) ≤ 366 * y := (marchDays_mono (Nat.sub_le y 1)).trans hmarch
  unfold MarchDate.ofYmd MarchDate.count monthStart
  split_ifs <;> (dsimp only; omega)

/-- Parts that are not three numbers each are no time. -/
theorem dateTimeSecs_eq_none {datePart timePart : List Char}
    (h : threeNumbers '-' 32 datePart = none ∨ threeNumbers ':' 64 timePart = none) :
    dateTimeSecs datePart timePart = .ok none := by
  unfold dateTimeSecs
  rcases h with h | h
  · rw [h]
  · rw [h]
    cases threeNumbers '-' 32 datePart <;> rfl

/-- The seconds of a date that can be counted. -/
theorem dateTimeSecs_cases {datePart timePart : List Char} (hdate : datePart.length ≤ 10) (htime : timePart.length ≤ 8)
    {y m d hr mn sc : ℕ} (hd : threeNumbers '-' 32 datePart = some (y, m, d))
    (ht : threeNumbers ':' 64 timePart = some (hr, mn, sc)) :
    (Countable y m d ∧ dateTimeSecs datePart timePart =
        .ok (some (((MarchDate.ofYmd y m d).count - 719468) * 86400 + hr * 3600 + mn * 60 + sc))) ∨
      (¬Countable y m d ∧ dateTimeSecs datePart timePart = .error .overflow) := by
  obtain ⟨hy, hm, hday⟩ := threeNumbers_lt (k := 6) hd hdate
  obtain ⟨hhr, hmn, hsc⟩ := threeNumbers_lt (k := 4) ht htime
  unfold dateTimeSecs
  rw [hd, ht]
  dsimp only
  rcases ymdToDays_cases hy hm hday with ⟨hcount, hdays⟩ | ⟨hcount, hdays⟩
  · refine .inl ⟨hcount, ?_⟩
    have hlt : (MarchDate.ofYmd y m d).count - 719468 < 10 ^ 12 :=
      (Nat.sub_le _ _).trans_lt (count_ofYmd_lt hy hm hday)
    generalize (MarchDate.ofYmd y m d).count - 719468 = days at hdays hlt
    rw [hdays, ok_bind, fits_eq (by omega), ok_bind, fits_eq (by omega), ok_bind, fits_eq (by omega), ok_bind,
      fits_eq (by omega), ok_bind]
  · refine .inr ⟨hcount, ?_⟩
    rw [hdays, error_bind]

/-- The characters at the places of a date and a time of day, with a single byte between. -/
def AtPlaces (s : String) (date time : List Char) : Prop :=
  ∃ sep rest, s.toList = date ++ sep :: (time ++ rest) ∧ (utf8Bytes date).length = 10 ∧ sep.utf8Size = 1 ∧
    (utf8Bytes time).length = 8

/-- Both slices are taken of a text that can be cut at their places. -/
theorem slices_iff {s : String} {date time : List Char} :
    slice s 0 10 = .ok date ∧ slice s 11 19 = .ok time ↔ AtPlaces s date time := by
  rw [slice_eq_ok, slice_eq_ok]
  constructor
  · rintro ⟨⟨xs, ys, hs, hxs, hdate⟩, xs', ys', hs', hxs', htime⟩
    obtain rfl : xs = [] := List.length_eq_zero_iff.mp (Nat.le_zero.mp (hxs ▸ length_le_utf8Bytes xs))
    rw [List.nil_append] at hs hdate
    have hpre : date <+: s.toList := ⟨ys, hs.symm⟩
    have hpre' : xs' <+: s.toList := ⟨time ++ ys', by rw [hs', List.append_assoc]⟩
    obtain ⟨mid, rfl⟩ : date <+: xs' := by
      rcases List.prefix_or_prefix_of_prefix hpre hpre' with hle | ⟨mid, rfl⟩
      · exact hle
      · rw [length_utf8Bytes_append] at hdate
        omega
    rw [length_utf8Bytes_append, hxs'] at htime
    rw [length_utf8Bytes_append] at hxs'
    have hmid : (utf8Bytes mid).length = 1 := by omega
    cases mid with
    | nil => exact absurd hmid (by simp)
    | cons sep mid =>
      have hsize := sep.utf8Size_pos
      rw [length_utf8Bytes_cons] at hmid
      obtain rfl : mid = [] :=
        List.length_eq_zero_iff.mp (Nat.le_zero.mp ((length_le_utf8Bytes mid).trans (by omega)))
      refine ⟨sep, ys', ?_, hdate, by omega, by omega⟩
      rw [hs', List.append_assoc, List.append_assoc, List.singleton_append]
  · rintro ⟨sep, rest, hs, hdate, hsep, htime⟩
    refine ⟨⟨[], sep :: (time ++ rest), ?_, rfl, hdate⟩, date ++ [sep], rest, ?_, ?_, ?_⟩
    · rw [hs, List.nil_append]
    · rw [hs, List.append_assoc, List.append_assoc, List.singleton_append]
    · rw [length_utf8Bytes_append, length_utf8Bytes_cons, hdate, hsep, utf8Bytes_nil, List.length_nil]
    · rw [length_utf8Bytes_append, length_utf8Bytes_append, length_utf8Bytes_cons, hdate, hsep, htime, utf8Bytes_nil,
        List.length_nil]

theorem secsAtPlaces_eq {s : String} {date time : List Char} (h : AtPlaces s date time) :
    secsAtPlaces s = dateTimeSecs date time := by
  obtain ⟨hdate, htime⟩ := slices_iff.mpr h
  rw [secsAtPlaces, hdate, ok_bind, htime, ok_bind]

/-- The characters at the places are no more than the bytes. -/
theorem AtPlaces.lengths {s : String} {date time : List Char} (h : AtPlaces s date time) :
    date.length ≤ 10 ∧ time.length ≤ 8 ∧ 19 ≤ s.utf8ByteSize := by
  obtain ⟨sep, rest, hs, hdate, hsep, htime⟩ := h
  refine ⟨hdate ▸ length_le_utf8Bytes date, htime ▸ length_le_utf8Bytes time, ?_⟩
  rw [utf8ByteSize_eq, hs, length_utf8Bytes_append, length_utf8Bytes_cons, length_utf8Bytes_append]
  omega

/-! ## The option -/

/-- The number before a unit in small or capital letters. -/
def countBefore (small capital s : String) : Option ℕ :=
  ((stripEnd s small).or (stripEnd s capital)).bind fun num => parseUnsigned 64 num.toList

/-- `YYYY-MM-DD`: ten bytes with hyphens at their places, a month and a day that may exist. -/
def dateOf (s : String) : Option (ℕ × ℕ × ℕ) :=
  if s.utf8ByteSize = 10 ∧ (utf8Bytes s.toList)[4]? = some 45 ∧ (utf8Bytes s.toList)[7]? = some 45 then
    (threeNumbers '-' 32 s.toList).filter fun date =>
      decide (1 ≤ date.2.1 ∧ date.2.1 ≤ 12 ∧ 1 ≤ date.2.2 ∧ date.2.2 ≤ 31)
  else none

/-- What is said of an option that is none of the forms. -/
def sinceError (s : String) : String :=
  "invalid --since format: '" ++ s ++ "'; expected YYYY-MM-DD, RFC3339 timestamp, duration (e.g. 2d, 48h), today, or yesterday"

/-- `parse_since`, with the second of the clock. -/
def parseSince (now : ℕ) (since : Option String) : Except Panic (Except String ℕ) :=
  let daysNow := now / 86400
  match (since.map trim).filter fun s => decide (s ≠ "") with
  | none => .ok (.ok ((daysNow - 1) * 86400))
  | some s =>
    if asciiLower s = "today" then .ok (.ok (daysNow * 86400))
    else if asciiLower s = "yesterday" then .ok (.ok ((daysNow - 1) * 86400))
    else match countBefore "d" "D" s, countBefore "h" "H" s, dateOf s with
      | some days, _, _ => do
        let back ← fits 64 (days * 86400)
        .ok (.ok (now - back))
      | none, some hours, _ => do
        let back ← fits 64 (hours * 3600)
        .ok (.ok (now - back))
      | none, none, some (y, m, d) => do
        let days ← ymdToDays y m d
        let secs ← fits 64 (days * 86400)
        .ok (.ok secs)
      | none, none, none =>
        if 19 ≤ s.utf8ByteSize ∧ ('T' ∈ s.toList ∨ ' ' ∈ s.toList) then do
          let secs ← secsAtPlaces s
          .ok (secs.elim (.error (sinceError s)) .ok)
        else .ok (.error (sinceError s))

end Innen.Time
