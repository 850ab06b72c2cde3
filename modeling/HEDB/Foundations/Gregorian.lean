import Mathlib.Tactic
import Mathlib.Algebra.BigOperators.Intervals
import Mathlib.Order.Interval.Finset.Defs
import Mathlib.Data.Int.Interval

/-!
# The Gregorian calendar

Years are counted astronomically: the year before 1 is 0. The calendar is extended in both
directions from the first day of 2000, which has the Julian day number 2451545. `newYear y` is the
Julian day of the first day of the year `y`, and a day belongs to the year `y` when it is not before
`newYear y` and before `newYear (y + 1)` (`InYear`).

The first days of the years have a closed form (`newYear_eq`), and every day belongs to at most one
year (`InYear.unique`).
-/

namespace HEDB

namespace Gregorian

/-- A leap year: every fourth, but of the centuries only every fourth. -/
def IsLeap (y : ℤ) : Prop := 4 ∣ y ∧ (¬ 100 ∣ y ∨ 400 ∣ y)

instance (y : ℤ) : Decidable (IsLeap y) := inferInstanceAs (Decidable (_ ∧ _))

/-- The number of days of a year. -/
def yearLength (y : ℤ) : ℤ := if IsLeap y then 366 else 365

/-- The Julian day of the first day of a year. -/
noncomputable def newYear (y : ℤ) : ℤ :=
  2451545 + ∑ i ∈ Finset.Ico 2000 y, yearLength i - ∑ i ∈ Finset.Ico y 2000, yearLength i

/-- A year begins when the one before it ends. -/
theorem newYear_add_one (y : ℤ) : newYear (y + 1) = newYear y + yearLength y := by
  unfold newYear
  rcases le_or_gt 2000 y with hy | hy
  · have hafter : ∑ i ∈ Finset.Ico 2000 (y + 1), yearLength i =
        ∑ i ∈ Finset.Ico 2000 y, yearLength i + yearLength y := by
      rw [← Finset.insert_Ico_right_eq_Ico_add_one hy,
        Finset.sum_insert (by simp), add_comm]
    have hlast : 2000 ≤ y + 1 := by omega
    rw [hafter, Finset.Ico_eq_empty_of_le hy, Finset.Ico_eq_empty_of_le hlast]
    ring
  · have hbefore : ∑ i ∈ Finset.Ico y 2000, yearLength i =
        yearLength y + ∑ i ∈ Finset.Ico (y + 1) 2000, yearLength i := by
      rw [← Finset.insert_Ico_add_one_left_eq_Ico hy, Finset.sum_insert (by simp)]
    rw [hbefore, Finset.Ico_eq_empty_of_le hy.le,
      Finset.Ico_eq_empty_of_le (Int.add_one_le_of_lt hy)]
    ring

/-- The leap days of a year, as they are counted in `newYear_eq`. -/
theorem yearLength_eq (y : ℤ) : yearLength y = 365 + ((y + 4) / 4 - (y + 3) / 4) -
    ((y + 100) / 100 - (y + 99) / 100) + ((y + 400) / 400 - (y + 399) / 400) := by
  unfold yearLength IsLeap
  split_ifs with hleap <;> omega

/-- **The first day of a year**, with every leap day since the year 0 counted. -/
theorem newYear_eq (y : ℤ) : newYear y =
    365 * y + (y + 3) / 4 - (y + 99) / 100 + (y + 399) / 400 + 1721060 := by
  induction y using Int.inductionOn' (b := 2000) with
  | zero =>
    rw [newYear, Finset.Ico_self, Finset.sum_empty]
    norm_num
  | succ y hy ih =>
    rw [newYear_add_one, ih, yearLength_eq]
    omega
  | pred y hy ih =>
    have hstep := newYear_add_one (y - 1)
    rw [sub_add_cancel, ih, yearLength_eq] at hstep
    omega

theorem newYear_strictMono : StrictMono newYear := by
  apply strictMono_int_of_lt_succ
  intro y
  have hpos : 0 < yearLength y := by
    unfold yearLength
    split_ifs <;> decide
  rw [newYear_add_one]
  exact lt_add_of_pos_right _ hpos

/-- The Julian day belongs to the year. -/
def InYear (day y : ℤ) : Prop := newYear y ≤ day ∧ day < newYear (y + 1)

/-- A day belongs to one year. -/
theorem InYear.unique {day y z : ℤ} (hy : InYear day y) (hz : InYear day z) : y = z := by
  have hyz : y < z + 1 := newYear_strictMono.lt_iff_lt.mp (hy.1.trans_lt hz.2)
  have hzy : z < y + 1 := newYear_strictMono.lt_iff_lt.mp (hz.1.trans_lt hy.2)
  omega

end Gregorian

end HEDB
