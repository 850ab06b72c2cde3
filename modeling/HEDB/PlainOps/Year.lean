import HEDB.Foundations.Gregorian
import HEDB.PlainOps.Arithmetic

/-!
# The year of a timestamp

`plain_timestamp_extract_year` counts the days since the Julian epoch, and from them the cycles of
400 years (146097 days), the leap days that the centuries of a cycle leave out, and the cycles of
four years (1461 days). The year that it finds is the Gregorian year of the day
(`plainTimestampExtractYear_eq_iff`).

The values on the way are of type `int64_t`, `unsigned int` and `int`. The program
`plainTimestampExtractYearChecked` does the same steps and stops when a value does not fit its type.
It does not stop on any timestamp, so no value wraps around (`extractYear_gregorian`).
-/

namespace HEDB

open Gregorian

/-! ## Values that fit their type -/

/-- The integer types of the program. -/
inductive CType
  | int64 | unsigned | int

/-- The value fits the type. -/
def CType.Fits : CType → ℤ → Prop
  | int64, v => -2 ^ 63 ≤ v ∧ v < 2 ^ 63
  | unsigned, v => 0 ≤ v ∧ v < 2 ^ 32
  | int, v => -2 ^ 31 ≤ v ∧ v < 2 ^ 31

instance (c : CType) (v : ℤ) : Decidable (c.Fits v) := by
  cases c <;> exact inferInstanceAs (Decidable (_ ∧ _))

/-- The value, if it fits the type. -/
def CType.check (c : CType) (v : ℤ) : Option ℤ := if c.Fits v then some v else none

theorem CType.check_bind {c : CType} {v : ℤ} (h : c.Fits v) {α : Type} (f : ℤ → Option α) :
    (c.check v >>= f) = f v := by
  rw [check, if_pos h]
  rfl

open CType

theorem int64_bind {v : ℤ} (h₁ : -2 ^ 63 ≤ v) (h₂ : v < 2 ^ 63) {α : Type} (f : ℤ → Option α) :
    (int64.check v >>= f) = f v :=
  check_bind (c := int64) ⟨h₁, h₂⟩ f

theorem unsigned_bind {v : ℤ} (h₁ : 0 ≤ v) (h₂ : v < 2 ^ 32) {α : Type} (f : ℤ → Option α) :
    (unsigned.check v >>= f) = f v :=
  check_bind (c := unsigned) ⟨h₁, h₂⟩ f

theorem int_bind {v : ℤ} (h₁ : -2 ^ 31 ≤ v) (h₂ : v < 2 ^ 31) {α : Type} (f : ℤ → Option α) :
    (int.check v >>= f) = f v :=
  check_bind (c := int) ⟨h₁, h₂⟩ f

/-- `plain_timestamp_extract_year`, with every value checked against the type that C gives to it. -/
def plainTimestampExtractYearChecked (timestamp : ℤ) : Option ℤ := do
  let date ← int64.check (timestamp.tdiv usecsPerDay)
  let days ← int64.check (date * usecsPerDay)
  let timestamp ← int64.check (timestamp - days)
  let date ← int64.check (if timestamp < 0 then date - 1 else date)
  let date ← int64.check (date + postgresEpochJdate)
  if date < 0 ∨ 2 ^ 31 - 1 < date then return -1
  let date ← int64.check (date + 32044)
  let quad ← unsigned.check (date / 146097)
  let days ← unsigned.check (quad * 146097)
  let rest ← int64.check (date - days)
  let extra ← int64.check (rest * 4 + 3)
  let extra ← unsigned.check extra
  let triple ← unsigned.check (quad * 3)
  let offset ← unsigned.check (60 + triple + extra / 146097)
  let date ← int64.check (date + offset)
  let quad ← unsigned.check (date / 1461)
  let days ← unsigned.check (quad * 1461)
  let date ← int64.check (date - days)
  let year ← int.check (date * 4 / 1461)
  let years ← unsigned.check (quad * 4)
  let year ← unsigned.check (year + years)
  let year ← int.check year
  int.check (year - 4800)

/-! ## Days -/

/-- The Julian day of a timestamp. -/
def julianDay (timestamp : ℤ) : ℤ := timestamp / usecsPerDay + postgresEpochJdate

/-- The division truncates, and is corrected to the floor. -/
theorem tdiv_corrected (t : ℤ) :
    (if t.tmod usecsPerDay < 0 then t.tdiv usecsPerDay - 1 else t.tdiv usecsPerDay) =
      t / usecsPerDay := by
  have hpos : (0 : ℤ) < usecsPerDay := by decide
  have hdiv := Int.mul_tdiv_add_tmod t usecsPerDay
  have hlt := Int.tmod_lt_of_pos t hpos
  have hgt := Int.lt_tmod_of_pos t hpos
  have hsign : 0 ≤ t → 0 ≤ t.tmod usecsPerDay := Int.tmod_nonneg _
  simp only [usecsPerDay] at *
  split_ifs <;> omega

/-- The day of a 64-bit timestamp is an `int`. -/
theorem julianDay_lt {t : ℤ} (ht : int64.Fits t) : -2 ^ 31 ≤ julianDay t ∧
    julianDay t < 2 ^ 31 - 1 := by
  simp only [Fits, julianDay, usecsPerDay, postgresEpochJdate] at *
  omega

/-! ## Cycles -/

/-- The steps of the cycles, on numbers that do not wrap around. -/
def yearOfDay (day : ℤ) : ℤ :=
  let date := day + 32044
  let quad := date / 146097
  let extra := (date - quad * 146097) * 4 + 3
  let date := date + (60 + quad * 3 + extra / 146097)
  date / 1461 * 4 + (date - date / 1461 * 1461) * 4 / 1461 - 4800

/-- The first day of the year `j` of the cycle of 400 years that begins in the year `400 * q -
4800`. -/
theorem newYear_cycle (q j : ℤ) : newYear (400 * q + j - 4800) =
    146097 * q + 365 * j + (j + 3) / 4 - (j + 99) / 100 + (j + 399) / 400 - 32104 := by
  rw [newYear_eq]
  omega

/-- The day `r` of a cycle lies in the year `4 * k + i` of it, where `c` leap days have been left
out before it and `m` is what is left of the day after `k` cycles of four years. -/
theorem inYear_cycle {q r c k m i : ℤ} (hr : 0 ≤ r ∧ r < 146097) (hc : c = (4 * r + 3) / 146097)
    (hk : r + 60 + c = 1461 * k + m) (hm : 0 ≤ m ∧ m < 1461) (hi : i = 4 * m / 1461) :
    InYear (146097 * q + r - 32044) (400 * q + (4 * k + i) - 4800) := by
  have hnext : 400 * q + (4 * k + i) - 4800 + 1 = 400 * q + (4 * k + i + 1) - 4800 := by ring
  have hcentury : c = 0 ∨ c = 1 ∨ c = 2 ∨ c = 3 := by omega
  have hquad : i = 0 ∨ i = 1 ∨ i = 2 ∨ i = 3 := by omega
  have hk₀ : 25 * c ≤ k := by omega
  have hk₁ : k ≤ 25 * (c + 1) := by omega
  rw [InYear, hnext, newYear_cycle, newYear_cycle]
  rcases hcentury with rfl | rfl | rfl | rfl <;> rcases hquad with rfl | rfl | rfl | rfl <;>
    constructor <;> omega

/-- **The cycles give the Gregorian year of a day.** -/
theorem inYear_yearOfDay (day : ℤ) : InYear day (yearOfDay day) := by
  obtain ⟨q, r, hr, hday⟩ : ∃ q r : ℤ, (0 ≤ r ∧ r < 146097) ∧ day + 32044 = 146097 * q + r :=
    ⟨(day + 32044) / 146097, (day + 32044) % 146097, by omega, by omega⟩
  have hq : (day + 32044) / 146097 = q := by omega
  have hc : ((day + 32044 - q * 146097) * 4 + 3) / 146097 = (4 * r + 3) / 146097 := by
    congr 1
    omega
  obtain ⟨k, m, hm, hk⟩ : ∃ k m : ℤ, (0 ≤ m ∧ m < 1461) ∧
      r + 60 + (4 * r + 3) / 146097 = 1461 * k + m :=
    ⟨(r + 60 + (4 * r + 3) / 146097) / 1461,
      (r + 60 + (4 * r + 3) / 146097) % 1461, by omega, by omega⟩
  have hin := inYear_cycle (q := q) hr rfl hk hm rfl
  have hdate : day + 32044 + (60 + q * 3 + (4 * r + 3) / 146097) = 1461 * (100 * q + k) + m := by
    omega
  have hquad : (1461 * (100 * q + k) + m) / 1461 = 100 * q + k := by omega
  have hyear : yearOfDay day = 400 * q + (4 * k + 4 * m / 1461) - 4800 := by
    simp only [yearOfDay, hq, hc, hdate, hquad]
    omega
  rw [hyear, show day = 146097 * q + r - 32044 by omega]
  exact hin

/-! ## The program -/

theorem toUnsigned_of_fits {v : ℤ} (h : unsigned.Fits v) : toUnsigned v = v :=
  Int.emod_eq_of_lt h.1 h.2

theorem toSigned_of_fits {v : ℤ} (h : int.Fits v) : toSigned v = v := by
  simp only [Fits] at h
  rw [toSigned, BitVec.toInt_ofInt, Int.bmod_eq_of_le] <;> norm_num <;> omega

/-- The values on the way to the year of a day. -/
structure YearSteps (day quad extra date quad' : ℤ) : Prop where
  quad_eq : (day + 32044) / 146097 = quad
  extra_eq : (day + 32044 - quad * 146097) * 4 + 3 = extra
  date_eq : day + 32044 + (60 + quad * 3 + extra / 146097) = date
  quad_eq' : date / 1461 = quad'

theorem exists_yearSteps (day : ℤ) : ∃ quad extra date quad',
    YearSteps day quad extra date quad' ∧
      yearOfDay day = quad' * 4 + (date - quad' * 1461) * 4 / 1461 - 4800 :=
  ⟨_, _, _, _, ⟨rfl, rfl, rfl, rfl⟩, rfl⟩

/-- On the days of 64-bit timestamps the values stay small. -/
theorem YearSteps.bounds {day quad extra date quad' : ℤ} (hs : YearSteps day quad extra date quad')
    (hday : 0 ≤ day ∧ day < 2 ^ 31 - 1) :
    (0 ≤ quad ∧ quad ≤ 14700) ∧ (0 ≤ extra ∧ extra < 584391) ∧ (0 ≤ date ∧ date < 2148000000) ∧
      (0 ≤ quad' ∧ quad' ≤ 1470226) ∧ 0 ≤ date - quad' * 1461 ∧ date - quad' * 1461 < 1461 := by
  obtain ⟨hquad, hextra, hdate, hquad'⟩ := hs
  omega

/-- The program on 64-bit timestamps. -/
theorem plainTimestampExtractYear_eq {t : ℤ} (ht : int64.Fits t) : plainTimestampExtractYear t =
    if julianDay t < 0 then -1 else yearOfDay (julianDay t) := by
  have hlt := (julianDay_lt ht).2
  have hj : t / usecsPerDay + postgresEpochJdate = julianDay t := rfl
  simp only [plainTimestampExtractYear, tdiv_corrected, hj]
  by_cases hday : julianDay t < 0
  · rw [if_pos (Or.inl hday), if_pos hday]
  · rw [if_neg (by omega), if_neg hday]
    obtain ⟨quad, extra, date, quad', hs, hyear⟩ := exists_yearSteps (julianDay t)
    obtain ⟨hquad, hextra, hdate, hquad', hrest⟩ := hs.bounds ⟨not_lt.mp hday, hlt⟩
    rw [hyear, hs.quad_eq, toUnsigned_of_fits (v := quad) ⟨by omega, by omega⟩,
      toUnsigned_of_fits (v := quad * 146097) ⟨by omega, by omega⟩, hs.extra_eq,
      toUnsigned_of_fits (v := extra) ⟨by omega, by omega⟩,
      toUnsigned_of_fits (v := 60 + quad * 3 + extra / 146097) ⟨by omega, by omega⟩, hs.date_eq,
      hs.quad_eq', toUnsigned_of_fits (v := quad') ⟨by omega, by omega⟩,
      toUnsigned_of_fits (v := quad' * 1461) ⟨by omega, by omega⟩,
      toSigned_of_fits (v := (date - quad' * 1461) * 4 / 1461) ⟨by omega, by omega⟩,
      toSigned_of_fits ⟨by omega, by omega⟩]
    ring

/-- The values up to the day fit `int64_t`. -/
theorem fits_day {t : ℤ} (ht : int64.Fits t) :
    int64.Fits (t.tdiv usecsPerDay) ∧ int64.Fits (t.tdiv usecsPerDay * usecsPerDay) ∧
      int64.Fits (t.tmod usecsPerDay) ∧ int64.Fits (t / usecsPerDay) := by
  have hpos : (0 : ℤ) < usecsPerDay := by decide
  have hdiv := Int.mul_tdiv_add_tmod t usecsPerDay
  have hlt := Int.tmod_lt_of_pos t hpos
  have hgt := Int.lt_tmod_of_pos t hpos
  have hsign : 0 ≤ t → 0 ≤ t.tmod usecsPerDay := Int.tmod_nonneg _
  have hsign' : t ≤ 0 → t.tmod usecsPerDay ≤ 0 := fun h => by
    have hneg := Int.tmod_nonneg usecsPerDay (Int.neg_nonneg_of_nonpos h)
    rw [Int.neg_tmod] at hneg
    omega
  simp only [Fits, usecsPerDay] at *
  omega

/-- No value of the program leaves its type. -/
theorem plainTimestampExtractYearChecked_eq {t : ℤ} (ht : int64.Fits t) :
    plainTimestampExtractYearChecked t =
      some (if julianDay t < 0 then -1 else yearOfDay (julianDay t)) := by
  have hlt := julianDay_lt ht
  obtain ⟨hdate₀, hdays₀, hrest₀, hfloor⟩ := fits_day ht
  have htmod : t - t.tdiv usecsPerDay * usecsPerDay = t.tmod usecsPerDay := by
    have hdiv := Int.mul_tdiv_add_tmod t usecsPerDay
    linarith
  have hj : t / usecsPerDay + postgresEpochJdate = julianDay t := rfl
  unfold plainTimestampExtractYearChecked
  rw [check_bind hdate₀, check_bind hdays₀, htmod, check_bind hrest₀, tdiv_corrected,
    check_bind hfloor, hj, int64_bind (v := julianDay t) (by omega) (by omega)]
  by_cases hday : julianDay t < 0
  · rw [if_pos (Or.inl hday), if_pos hday]
    rfl
  · rw [if_neg (by omega), if_neg hday]
    obtain ⟨quad, extra, date, quad', hs, hyear⟩ := exists_yearSteps (julianDay t)
    obtain ⟨hquad, hextra, hdate, hquad', hrest⟩ := hs.bounds ⟨not_lt.mp hday, hlt.2⟩
    have hextra' := hs.extra_eq
    rw [hyear, int64_bind (by omega) (by omega), hs.quad_eq, unsigned_bind (by omega) (by omega),
      unsigned_bind (by omega) (by omega), int64_bind (by omega) (by omega), hs.extra_eq,
      int64_bind (by omega) (by omega), unsigned_bind (by omega) (by omega),
      unsigned_bind (by omega) (by omega), unsigned_bind (by omega) (by omega), hs.date_eq,
      int64_bind (by omega) (by omega), hs.quad_eq', unsigned_bind (by omega) (by omega),
      unsigned_bind (by omega) (by omega), int64_bind (by omega) (by omega),
      int_bind (by omega) (by omega), unsigned_bind (by omega) (by omega),
      unsigned_bind (by omega) (by omega), int_bind (by omega) (by omega), check,
      if_pos (show int.Fits _ from ⟨by omega, by omega⟩), Option.some_inj]
    ring

/-- **The year of a timestamp is the Gregorian one.** For every 64-bit timestamp the program returns
-1 when the day is before the Julian epoch, and otherwise the year that the day belongs to; and no
value on the way wraps around. -/
theorem extractYear_gregorian {t : ℤ} (ht : int64.Fits t) :
    (julianDay t < 0 → plainTimestampExtractYear t = -1) ∧
    (0 ≤ julianDay t → ∀ y, plainTimestampExtractYear t = y ↔ InYear (julianDay t) y) ∧
    plainTimestampExtractYearChecked t = some (plainTimestampExtractYear t) := by
  have heq := plainTimestampExtractYear_eq ht
  refine ⟨fun hday => ?_, fun hday y => ?_, ?_⟩
  · rw [heq, if_pos hday]
  · rw [heq, if_neg (not_lt.mpr hday)]
    constructor
    · intro hy
      exact hy ▸ inYear_yearOfDay (julianDay t)
    · intro hy
      exact (inYear_yearOfDay (julianDay t)).unique hy
  · rw [heq]
    exact plainTimestampExtractYearChecked_eq ht

/-- The last microsecond of 1999. -/
theorem extractYear_gregorian_1999 :
    InYear 2451544 1999 ∧ plainTimestampExtractYearChecked (-1) = some 1999 := by
  obtain ⟨-, hyear, hchecked⟩ := extractYear_gregorian (t := -1) (by decide)
  have hy : plainTimestampExtractYear (-1) = 1999 := by decide +kernel
  exact ⟨(hyear (by decide) 1999).mp hy, hchecked.trans (congrArg some hy)⟩

end HEDB
