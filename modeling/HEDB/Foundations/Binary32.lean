import Mathlib.Tactic
import Mathlib.Data.Rat.Cast.Order

/-!
# Single precision

The IEEE 754 format binary32: a bit pattern of 32 bits is a sign, an exponent of eight bits and a
fraction of 23 bits. A finite pattern is a multiple of `2 ^ -149` (`magnitude`). Patterns from
`2 ^ 24` on are integers (`magnitude_lt_or_dvd`). Patterns that are not a NaN are in the order of
their `key`, in which both zeros are equal and the infinities are the ends.
-/

namespace HEDB

namespace Binary32

variable {x : UInt32}

/-- The sign bit. -/
def Negative (x : UInt32) : Prop := 2 ^ 31 ≤ x.toNat

/-- The biased exponent. -/
def exponent (x : UInt32) : ℕ := x.toNat / 2 ^ 23 % 2 ^ 8

/-- The fraction. -/
def fraction (x : UInt32) : ℕ := x.toNat % 2 ^ 23

/-- Neither infinite nor a NaN. -/
def IsFinite (x : UInt32) : Prop := exponent x ≠ 255

/-- Not a number. -/
def IsNaN (x : UInt32) : Prop := exponent x = 255 ∧ fraction x ≠ 0

instance (x : UInt32) : Decidable (Negative x) := inferInstanceAs (Decidable (_ ≤ _))
instance (x : UInt32) : Decidable (IsFinite x) := inferInstanceAs (Decidable (_ ≠ _))
instance (x : UInt32) : Decidable (IsNaN x) := inferInstanceAs (Decidable (_ ∧ _))

/-- The absolute value of a finite pattern, in units of `2 ^ -149`. -/
def magnitude (x : UInt32) : ℕ :=
  if exponent x = 0 then fraction x else (2 ^ 23 + fraction x) * 2 ^ (exponent x - 1)

/-- The value of a finite pattern. -/
def value (x : UInt32) : ℚ := (if Negative x then -1 else 1) * (magnitude x / 2 ^ 149)

/-- The place of a pattern in the order of the format: the bits below the sign grow with the
absolute value. -/
def key (x : UInt32) : ℤ := if Negative x then 2 ^ 31 - (x.toNat : ℤ) else x.toNat

theorem fraction_lt (x : UInt32) : fraction x < 2 ^ 23 := Nat.mod_lt _ (by decide)

/-- A finite pattern is below `2 ^ 24` or an integer. -/
theorem magnitude_lt_or_dvd (x : UInt32) :
    magnitude x < 2 ^ 24 * 2 ^ 149 ∨ 2 ^ 149 ∣ magnitude x := by
  have hfrac := fraction_lt x
  unfold magnitude
  split_ifs with h0
  · exact .inl (hfrac.trans (by decide))
  rcases Nat.lt_or_ge (exponent x - 1) 149 with hlt | hge
  · left
    calc (2 ^ 23 + fraction x) * 2 ^ (exponent x - 1)
        < 2 ^ 24 * 2 ^ (exponent x - 1) := by
          exact Nat.mul_lt_mul_of_pos_right (by omega) (by positivity)
      _ ≤ 2 ^ 24 * 2 ^ 149 :=
          Nat.mul_le_mul_left _ (Nat.pow_le_pow_right two_pos hlt.le)
  · exact .inr (Dvd.dvd.mul_left (pow_dvd_pow 2 hge) _)

/-- The bounds on a value are bounds on its magnitude. -/
theorem value_bounds_iff (a b : ℕ) (ha : 0 < a) (hb : 0 < b) :
    -(a : ℚ) < value x ∧ value x < b ↔
      if Negative x then magnitude x < a * 2 ^ 149 else magnitude x < b * 2 ^ 149 := by
  have hcast : ∀ c : ℕ, magnitude x < c * 2 ^ 149 ↔ (magnitude x : ℚ) / 2 ^ 149 < c := by
    intro c
    rw [div_lt_iff₀ (by positivity)]
    exact_mod_cast Iff.rfl
  have hnonneg : (0 : ℚ) ≤ (magnitude x : ℚ) / 2 ^ 149 := by positivity
  have ha' : (0 : ℚ) < a := by exact_mod_cast ha
  have hb' : (0 : ℚ) < b := by exact_mod_cast hb
  unfold value
  split_ifs with hneg <;> rw [hcast]
  · refine ⟨fun h => by linarith [h.1], fun h => ⟨by linarith, by linarith⟩⟩
  · refine ⟨fun h => by linarith [h.2], fun h => ⟨by linarith, by linarith⟩⟩

/-- The pattern of a number from its sign, its exponent and its leading bits. -/
theorem value_ofNat {s e m : ℕ} (hs : s < 2) (he : e < 23 + 1) (hm : 2 ^ 23 ≤ m)
    (hm' : m < 2 ^ 24) :
    IsFinite (UInt32.ofNat (s * 2 ^ 31 + (127 + e) * 2 ^ 23 + (m - 2 ^ 23))) ∧
      value (UInt32.ofNat (s * 2 ^ 31 + (127 + e) * 2 ^ 23 + (m - 2 ^ 23))) =
        (if s = 1 then -1 else 1) * (m * 2 ^ e / 2 ^ 23) := by
  set x := UInt32.ofNat (s * 2 ^ 31 + (127 + e) * 2 ^ 23 + (m - 2 ^ 23)) with hx
  have hnat : x.toNat = s * 2 ^ 31 + (127 + e) * 2 ^ 23 + (m - 2 ^ 23) := by
    rw [hx, UInt32.toNat_ofNat']
    exact Nat.mod_eq_of_lt (by omega)
  have hexp : exponent x = 127 + e := by
    rw [exponent, hnat]
    omega
  have hfrac : fraction x = m - 2 ^ 23 := by
    rw [fraction, hnat]
    omega
  have hneg : Negative x ↔ s = 1 := by
    rw [Negative, hnat]
    omega
  have hmag : magnitude x = m * 2 ^ (126 + e) := by
    rw [magnitude, hexp, hfrac, if_neg (by omega), Nat.add_sub_cancel' hm,
      show 127 + e - 1 = 126 + e by omega]
  refine ⟨by rw [IsFinite, hexp]; omega, ?_⟩
  rw [value, hmag]
  simp only [hneg]
  push_cast
  rw [pow_add]
  ring

/-- **Integers of 24 bits are values of finite patterns.** -/
theorem exists_value_eq {n : ℤ} (hn : n.natAbs < 2 ^ 24) : ∃ x, IsFinite x ∧ value x = n := by
  rcases eq_or_ne n 0 with rfl | hne
  · exact ⟨0, by decide, by simp [value, magnitude, exponent, fraction]⟩
  set k := n.natAbs with hk
  have hpos : k ≠ 0 := by omega
  have he : k.log2 ≤ 23 := by
    have := (Nat.log2_lt hpos).2 hn
    omega
  have hle := Nat.log2_self_le hpos
  have hlt := Nat.lt_log2_self (n := k)
  have hsplit : 2 ^ k.log2 * 2 ^ (23 - k.log2) = 2 ^ 23 := by
    rw [← pow_add]
    congr 1
    omega
  obtain ⟨hfin, hval⟩ := value_ofNat (s := if n < 0 then 1 else 0) (e := k.log2)
    (m := k * 2 ^ (23 - k.log2)) (by split_ifs <;> omega) (by omega)
    (by rw [← hsplit]; exact Nat.mul_le_mul_right _ hle)
    (calc k * 2 ^ (23 - k.log2)
        < 2 ^ (k.log2 + 1) * 2 ^ (23 - k.log2) := Nat.mul_lt_mul_of_pos_right hlt (by positivity)
      _ = 2 ^ 24 := by rw [pow_succ, mul_right_comm, hsplit, ← pow_succ])
  refine ⟨_, hfin, hval.trans ?_⟩
  have hscale : ((k * 2 ^ (23 - k.log2) : ℕ) : ℚ) * 2 ^ k.log2 / 2 ^ 23 = k := by
    have hcast : ((2 ^ k.log2 * 2 ^ (23 - k.log2) : ℕ) : ℚ) = 2 ^ 23 := by
      rw [hsplit]
      norm_num
    push_cast at hcast ⊢
    rw [mul_assoc, mul_comm (2 ^ (23 - k.log2) : ℚ), hcast]
    field_simp
  rw [hscale]
  by_cases h : n < 0
  · have hn' : n = -(k : ℤ) := by omega
    rw [if_pos (if_pos h), hn']
    push_cast
    ring
  · have hn' : n = (k : ℤ) := by omega
    rw [if_neg (by rw [if_neg h]; decide), one_mul, hn']
    rfl

end Binary32

end HEDB
