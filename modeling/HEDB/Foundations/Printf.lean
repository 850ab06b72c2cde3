import HEDB.Foundations.Binary32
import Mathlib.Data.Nat.Digits.Lemmas

/-!
# Numbers as decimal texts

The conversions `%d` and `%f` of `printf`. `%f` writes the value of a `float` with six decimals,
rounded to the nearest such number and in the middle to the even one. The value is exact before
that, so that a text can be as long as the largest value is (`length_printF_le_iff`).
-/

namespace HEDB

namespace Printf

open Binary32

/-! ## Integers -/

/-- The digits of a number. -/
def decimal (n : ℕ) : List UInt8 :=
  if n = 0 then [0x30] else ((Nat.digits 10 n).reverse).map fun d => UInt8.ofNat (0x30 + d)

theorem length_decimal_le_iff {n k : ℕ} (hk : 0 < k) : (decimal n).length ≤ k ↔ n < 10 ^ k := by
  unfold decimal
  split_ifs with h0
  · subst h0
    exact iff_of_true hk (by positivity)
  · rw [List.length_map, List.length_reverse]
    exact Nat.digits_length_le_iff (by decide) n

/-- A minus sign where there is to be one. -/
def minus (p : Prop) [Decidable p] : List UInt8 := if p then [0x2d] else []

/-- `%d`. -/
def printD (v : ℤ) : List UInt8 := minus (v < 0) ++ decimal v.natAbs

theorem length_minus_le (p : Prop) [Decidable p] : (minus p).length ≤ 1 := by
  unfold minus
  split_ifs <;> decide

/-- A number of 32 bits takes eleven characters at most. -/
theorem length_printD_le {v : ℤ} (h : v.natAbs < 10 ^ 10) : (printD v).length ≤ 11 := by
  have hdigits := (length_decimal_le_iff (n := v.natAbs) (k := 10) (by decide)).mpr h
  have hsign := length_minus_le (v < 0)
  rw [printD, List.length_append]
  omega

theorem mem_decimal {n : ℕ} {b : UInt8} (hb : b ∈ decimal n) :
    ∃ d < 10, b = UInt8.ofNat (0x30 + d) := by
  unfold decimal at hb
  split_ifs at hb with h0
  · exact ⟨0, by decide, List.mem_singleton.1 hb⟩
  · obtain ⟨d, hd, rfl⟩ := List.mem_map.1 hb
    exact ⟨d, Nat.digits_lt_base (by decide) (List.mem_reverse.1 hd), rfl⟩

/-- The characters of a number are digits and the sign. -/
theorem mem_printD {v : ℤ} {b : UInt8} (hb : b ∈ printD v) :
    b = 0x2d ∨ ∃ d < 10, b = UInt8.ofNat (0x30 + d) := by
  rw [printD, List.mem_append] at hb
  refine hb.imp (fun hb => ?_) mem_decimal
  unfold minus at hb
  split_ifs at hb
  · exact List.mem_singleton.1 hb
  · exact absurd hb List.not_mem_nil

theorem decimal_ne_nil (n : ℕ) : decimal n ≠ [] := by
  unfold decimal
  split_ifs with h0
  · exact List.cons_ne_nil _ _
  · simpa [Nat.digits_eq_nil_iff_eq_zero] using h0

theorem printD_ne_nil (v : ℤ) : printD v ≠ [] :=
  List.append_ne_nil_of_right_ne_nil _ (decimal_ne_nil _)

/-- The number that digits write. -/
def digitsValue (text : List UInt8) : ℕ :=
  text.foldl (fun v b => 10 * v + (b.toNat - 0x30)) 0

/-- The number that a text writes, with its sign. -/
def parse (text : List UInt8) : ℤ :=
  if text.head? = some 0x2d then -(digitsValue text.tail : ℤ) else digitsValue text

theorem digitsValue_decimal (n : ℕ) : digitsValue (decimal n) = n := by
  unfold decimal
  split_ifs with h0
  · rw [h0]
    rfl
  · rw [digitsValue, List.foldl_map, List.foldl_reverse]
    conv_rhs => rw [← Nat.ofDigits_digits 10 n, Nat.ofDigits_eq_foldr]
    refine List.foldr_ext _ _ _ fun d hd v => ?_
    have hlt : d < 10 := Nat.digits_lt_base (by decide) hd
    rw [UInt8.toNat_ofNat_of_lt' (by rw [UInt8.size]; omega), Nat.add_sub_cancel_left, Nat.add_comm]
    rfl

theorem parse_printD (v : ℤ) : parse (printD v) = v := by
  rw [parse, printD, minus]
  split_ifs with hneg hhead hhead
  · rw [List.singleton_append, List.tail_cons, digitsValue_decimal]
    omega
  · exact absurd rfl hhead
  · -- A digit is not the sign.
    obtain ⟨d, hd, hb⟩ := mem_decimal (List.mem_of_mem_head? hhead)
    interval_cases d <;> cases hb
  · rw [List.nil_append, digitsValue_decimal]
    omega

/-! ## Single precision -/

/-- The quotient, rounded to the nearest integer and in the middle to the even one. -/
def roundDiv (a b : ℕ) : ℕ :=
  if 2 * (a % b) < b ∨ 2 * (a % b) = b ∧ a / b % 2 = 0 then a / b else a / b + 1

theorem roundDiv_of_dvd {a b : ℕ} (hb : 0 < b) (h : b ∣ a) : roundDiv a b = a / b := by
  rw [roundDiv, Nat.mod_eq_zero_of_dvd h, if_pos (.inl (by omega))]

theorem roundDiv_le (a b : ℕ) : roundDiv a b ≤ a / b + 1 := by
  unfold roundDiv
  split_ifs <;> omega

/-- The absolute value of a pattern in millionths. -/
def micros (x : UInt32) : ℕ := roundDiv (magnitude x * 10 ^ 6) (2 ^ 149)

/-- The six digits behind the point. -/
def decimals (n : ℕ) : List UInt8 :=
  (List.range 6).reverse.map fun i => UInt8.ofNat (0x30 + n / 10 ^ i % 10)

/-- `%f`. -/
def printF (x : UInt32) : List UInt8 :=
  minus (Negative x) ++
    if IsFinite x then decimal (micros x / 10 ^ 6) ++ 0x2e :: decimals (micros x % 10 ^ 6)
    -- `nan` and `inf`
    else if IsNaN x then [0x6e, 0x61, 0x6e] else [0x69, 0x6e, 0x66]

/-- Rounding to six decimals does not make a value longer. -/
theorem micros_lt_iff (x : UInt32) {d : ℕ} (hd : 8 ≤ d) :
    micros x / 10 ^ 6 < 10 ^ d ↔ magnitude x < 10 ^ d * 2 ^ 149 := by
  have hten : 10 ^ 8 ≤ 10 ^ d := Nat.pow_le_pow_right (by decide) hd
  rcases magnitude_lt_or_dvd x with hlt | ⟨m, hm⟩
  · -- a fraction is small
    have hquot : magnitude x * 10 ^ 6 / 2 ^ 149 < 2 ^ 24 * 10 ^ 6 := by
      rw [Nat.div_lt_iff_lt_mul (by positivity)]
      calc magnitude x * 10 ^ 6 < 2 ^ 24 * 2 ^ 149 * 10 ^ 6 :=
            Nat.mul_lt_mul_of_pos_right hlt (by decide)
        _ = 2 ^ 24 * 10 ^ 6 * 2 ^ 149 := by ring
    have hmicros : micros x ≤ 2 ^ 24 * 10 ^ 6 := (roundDiv_le _ _).trans hquot
    refine iff_of_true ?_ (hlt.trans_le (Nat.mul_le_mul_right _ (le_trans (by decide) hten)))
    calc micros x / 10 ^ 6 ≤ 2 ^ 24 := Nat.div_le_of_le_mul (by omega)
      _ < 10 ^ 8 := by decide
      _ ≤ 10 ^ d := hten
  · -- an integer is not rounded
    have hmul : magnitude x * 10 ^ 6 = m * 10 ^ 6 * 2 ^ 149 := by
      rw [hm]
      ring
    have hmicros : micros x = m * 10 ^ 6 := by
      rw [micros, hmul, roundDiv_of_dvd (by positivity) (Nat.dvd_mul_left _ _),
        Nat.mul_div_cancel _ (by positivity)]
    rw [hmicros, Nat.mul_div_cancel _ (by decide), hm, Nat.mul_comm]
    exact (Nat.mul_lt_mul_right (by positivity)).symm

theorem length_printF_of_finite {x : UInt32} (h : IsFinite x) :
    (printF x).length = (minus (Negative x)).length + (decimal (micros x / 10 ^ 6)).length + 7 := by
  rw [printF, if_pos h, List.length_append, List.length_append, List.length_cons, decimals,
    List.length_map, List.length_reverse, List.length_range]
  omega

/-- **The length of `%f`** grows with the value, and infinities and NaNs are short. -/
theorem length_printF_le_iff (x : UInt32) {k : ℕ} (hk : 16 ≤ k) :
    (printF x).length ≤ k ↔
      (IsFinite x → -(10 ^ (k - 8) : ℚ) < value x ∧ value x < 10 ^ (k - 7)) := by
  by_cases hfin : IsFinite x
  · have hbounds := value_bounds_iff (x := x) (10 ^ (k - 8)) (10 ^ (k - 7)) (by positivity)
      (by positivity)
    rw [Nat.cast_pow, Nat.cast_pow, Nat.cast_ofNat] at hbounds
    rw [forall_prop_of_true hfin, hbounds, length_printF_of_finite hfin]
    by_cases hneg : Negative x
    · rw [if_pos hneg, ← micros_lt_iff x (d := k - 8) (by omega),
        ← length_decimal_le_iff (by omega), minus, if_pos hneg, List.length_singleton]
      omega
    · rw [if_neg hneg, ← micros_lt_iff x (d := k - 7) (by omega),
        ← length_decimal_le_iff (by omega), minus, if_neg hneg, List.length_nil]
      omega
  · refine iff_of_true ?_ (fun h => absurd h hfin)
    have hsign := length_minus_le (Negative x)
    have hword : (if IsNaN x then [0x6e, 0x61, 0x6e] else [0x69, 0x6e, 0x66] :
        List UInt8).length = 3 := by
      split_ifs <;> rfl
    rw [printF, if_neg hfin, List.length_append, hword]
    omega

end Printf

end HEDB
