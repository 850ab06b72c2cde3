import HEDB.Foundations.Binary32

/-!
# Arithmetic in single precision

The operations of IEEE 754 on binary32, rounding to the nearest number and to the even one of two.
The exact result of an operation is a fraction `n / d` of units `2 ^ -149`; `roundBits` is the
pattern of the number next to it, without the sign. A pattern is the one of its own number
(`narrow_wide`), and whole numbers below `2 ^ 24` are numbers of patterns (`wide_ofNat`).

Sums of patterns are multiples of the unit. `Wide` has room for them, as a format of double
precision has for those of moderate size.
-/

namespace HEDB

namespace Binary32

/-- A NaN, an infinity, or a signed multiple of `2 ^ -149`. -/
inductive Wide
  | nan
  | inf (neg : Bool)
  | fin (neg : Bool) (units : ℕ)
  deriving DecidableEq

/-- The number of a pattern. -/
def wide (x : UInt32) : Wide :=
  if exponent x = 255 then
    if fraction x = 0 then .inf (Negative x) else .nan
  else .fin (Negative x) (magnitude x)

/-- The whole number next to a fraction, the even one of two. -/
def nearest (n d : ℕ) : ℕ :=
  if 2 * (n % d) < d ∨ 2 * (n % d) = d ∧ n / d % 2 = 0 then n / d else n / d + 1

/-- The bits of infinity. -/
def infBits : ℕ := 0x7f800000

/-- The bits below the sign of the number next to `n / d` units: it keeps 24 bits, and a carry goes
on into the exponent. -/
def roundBits (n d : ℕ) : ℕ :=
  let e := (n / d).log2 - 23
  min infBits (e * 2 ^ 23 + nearest n (d * 2 ^ e))

/-- A pattern from its sign and the bits below it. -/
def signed (neg : Bool) (bits : ℕ) : UInt32 := UInt32.ofNat (bits + if neg then 2 ^ 31 else 0)

/-- The NaN that operations return. -/
def quietNaN : UInt32 := 0x7fc00000

/-- The pattern next to a number. -/
def narrow : Wide → UInt32
  | .nan => quietNaN
  | .inf neg => signed neg infBits
  | .fin neg u => signed neg (roundBits u 1)

/-- The exact sum. -/
def Wide.add : Wide → Wide → Wide
  | .nan, _ => .nan
  | _, .nan => .nan
  | .inf s, .inf t => if s = t then .inf s else .nan
  | .inf s, .fin _ _ => .inf s
  | .fin _ _, .inf t => .inf t
  | .fin s u, .fin t v =>
    if s = t then .fin s (u + v)
    else if v < u then .fin s (u - v)
    else if u < v then .fin t (v - u)
    else .fin false 0

/-- The sum. -/
def add (x y : UInt32) : UInt32 := narrow ((wide x).add (wide y))

/-- The number with the other sign. -/
def Wide.neg : Wide → Wide
  | .nan => .nan
  | .inf neg => .inf !neg
  | .fin neg u => .fin (!neg) u

/-- The difference. -/
def sub (x y : UInt32) : UInt32 := narrow ((wide x).add (wide y).neg)

/-- The product. -/
def mul (x y : UInt32) : UInt32 :=
  match wide x, wide y with
  | .nan, _ => quietNaN
  | _, .nan => quietNaN
  | .inf s, .inf t => signed (s != t) infBits
  | .inf s, .fin t v => if v = 0 then quietNaN else signed (s != t) infBits
  | .fin s u, .inf t => if u = 0 then quietNaN else signed (s != t) infBits
  | .fin s u, .fin t v => signed (s != t) (roundBits (u * v) (2 ^ 149))

/-- The quotient. -/
def div (x y : UInt32) : UInt32 :=
  match wide x, wide y with
  | .nan, _ => quietNaN
  | _, .nan => quietNaN
  | .inf _, .inf _ => quietNaN
  | .inf s, .fin t _ => signed (s != t) infBits
  | .fin s _, .inf t => signed (s != t) 0
  | .fin s u, .fin t v =>
    if v = 0 then if u = 0 then quietNaN else signed (s != t) infBits
    else signed (s != t) (roundBits (u * 2 ^ 149) v)

/-- The whole number, cut off towards zero. -/
def Wide.truncate : Wide → Option ℤ
  | .fin neg u => some ((if neg then -1 else 1) * (u / 2 ^ 149 : ℕ))
  | _ => none

/-- A whole number. -/
def Wide.ofInt (n : ℤ) : Wide := .fin (n < 0) (n.natAbs * 2 ^ 149)

/-! ## Patterns and their numbers -/

variable {x y : UInt32} {m e n : ℕ}

theorem wide_eq_nan_iff : wide x = .nan ↔ IsNaN x := by
  unfold wide IsNaN
  split_ifs <;> simp [*]

theorem isNaN_quietNaN : IsNaN quietNaN := by decide

theorem nearest_mul (k : ℕ) {d : ℕ} (hd : 0 < d) : nearest (k * d) d = k := by
  rw [nearest, Nat.mul_mod_left, Nat.mul_div_cancel k hd, if_pos (.inl (by simpa using hd))]

/-- A number of 24 bits is kept. -/
theorem roundBits_mul (hm : 2 ^ 23 ≤ m) (hm' : m < 2 ^ 24) (he : e ≤ 253) :
    roundBits (m * 2 ^ e) 1 = e * 2 ^ 23 + m := by
  have hpow : 0 < 2 ^ e := by positivity
  have hlog : (m * 2 ^ e).log2 = 23 + e := by
    rw [Nat.log2_eq_iff (Nat.mul_pos (by omega) hpow).ne', pow_add, Nat.add_right_comm, pow_add]
    exact ⟨Nat.mul_le_mul_right _ hm, Nat.mul_lt_mul_of_pos_right hm' hpow⟩
  rw [roundBits, Nat.div_one, hlog, Nat.add_sub_cancel_left, Nat.one_mul, nearest_mul m hpow]
  exact min_eq_right (by simp only [infBits]; omega)

/-- So is a number below the first of 24 bits. -/
theorem roundBits_of_lt (hm : m < 2 ^ 23) : roundBits m 1 = m := by
  have hlog : m.log2 - 23 = 0 := by
    rcases eq_or_ne m 0 with rfl | hne
    · rfl
    · have := (Nat.log2_lt hne).2 hm
      omega
  have hnear : nearest m 1 = m := by simpa using nearest_mul m Nat.one_pos
  rw [roundBits, Nat.div_one, hlog, pow_zero, Nat.mul_one, hnear, Nat.zero_mul, Nat.zero_add]
  exact min_eq_right (by simp only [infBits]; omega)

theorem roundBits_magnitude (hx : IsFinite x) : roundBits (magnitude x) 1 = x.toNat % 2 ^ 31 := by
  have hfrac := fraction_lt x
  have hbits : x.toNat % 2 ^ 31 = exponent x * 2 ^ 23 + fraction x := by
    unfold exponent fraction
    omega
  have hexp : exponent x < 2 ^ 8 := Nat.mod_lt _ (by decide)
  unfold IsFinite at hx
  rw [hbits, magnitude]
  split_ifs with h0
  · rw [roundBits_of_lt hfrac, h0, Nat.zero_mul, Nat.zero_add]
  · rw [roundBits_mul (by omega) (by omega) (by omega)]
    omega

theorem signed_bits (x : UInt32) : signed (Negative x) (x.toNat % 2 ^ 31) = x := by
  have hlt := x.toNat_lt
  refine UInt32.toNat.inj ?_
  by_cases hneg : Negative x
  · rw [decide_eq_true hneg, signed, if_pos rfl, UInt32.toNat_ofNat']
    unfold Negative at hneg
    omega
  · rw [decide_eq_false hneg, signed, if_neg (by decide), UInt32.toNat_ofNat']
    unfold Negative at hneg
    omega

/-- **A pattern is the one next to its own number.** -/
theorem narrow_wide (hx : ¬ IsNaN x) : narrow (wide x) = x := by
  unfold IsNaN at hx
  rw [wide]
  split_ifs with hexp hfrac
  · have hbits : infBits = x.toNat % 2 ^ 31 := by
      unfold exponent at hexp
      unfold fraction at hfrac
      simp only [infBits]
      omega
    rw [narrow, hbits, signed_bits]
  · exact absurd ⟨hexp, hfrac⟩ hx
  · rw [narrow, roundBits_magnitude hexp, signed_bits]

/-- The number of a pattern of 24 bits. -/
theorem wide_signed (hm : 2 ^ 23 ≤ m) (hm' : m < 2 ^ 24) (he : e ≤ 253) :
    wide (signed false (e * 2 ^ 23 + m)) = .fin false (m * 2 ^ e) := by
  have hnat : (signed false (e * 2 ^ 23 + m)).toNat = e * 2 ^ 23 + m := by
    rw [signed, UInt32.toNat_ofNat']
    simp only [Bool.false_eq_true, if_false]
    omega
  have hexp : exponent (signed false (e * 2 ^ 23 + m)) = e + 1 := by
    rw [exponent, hnat]
    omega
  have hfrac : fraction (signed false (e * 2 ^ 23 + m)) = m - 2 ^ 23 := by
    rw [fraction, hnat]
    omega
  have hneg : ¬ Negative (signed false (e * 2 ^ 23 + m)) := by
    rw [Negative, hnat]
    omega
  rw [wide, if_neg (by omega), magnitude, if_neg (by omega), hexp, hfrac,
    Nat.add_sub_cancel' hm, Nat.add_sub_cancel, decide_eq_false hneg]

/-- **Whole numbers below `2 ^ 24` are numbers of patterns.** -/
theorem wide_ofNat (hn : n < 2 ^ 24) :
    wide (narrow (.fin false (n * 2 ^ 149))) = .fin false (n * 2 ^ 149) := by
  rcases eq_or_ne n 0 with rfl | hne
  · decide
  have hlog : n.log2 < 24 := (Nat.log2_lt hne).2 hn
  have hsplit : ∀ k : ℕ, k ≤ 23 → 2 ^ k * 2 ^ (23 - k) = 2 ^ 23 := fun k hk => by
    rw [← pow_add, Nat.add_sub_cancel' hk]
  have hunits : n * 2 ^ 149 = n * 2 ^ (23 - n.log2) * 2 ^ (126 + n.log2) := by
    rw [mul_assoc, ← pow_add]
    congr 2
    omega
  have hlow : 2 ^ 23 ≤ n * 2 ^ (23 - n.log2) := by
    rw [← hsplit n.log2 (by omega)]
    exact Nat.mul_le_mul_right _ (Nat.log2_self_le hne)
  have hhigh : n * 2 ^ (23 - n.log2) < 2 ^ 24 := by
    have hlt := Nat.mul_lt_mul_of_pos_right (Nat.lt_log2_self (n := n))
      (show 0 < 2 ^ (23 - n.log2) by positivity)
    rwa [pow_succ, mul_right_comm, hsplit n.log2 (by omega)] at hlt
  rw [hunits, narrow, roundBits_mul hlow hhigh (by omega), wide_signed hlow hhigh (by omega)]

/-! ## Sums -/

theorem Wide.add_comm (a b : Wide) : a.add b = b.add a := by
  cases a with
  | nan => cases b <;> rfl
  | inf s =>
    cases b with
    | inf t => cases s <;> cases t <;> rfl
    | _ => rfl
  | fin s u =>
    cases b with
    | fin t v =>
      simp only [Wide.add, Nat.add_comm v u, eq_comm (a := t)]
      split_ifs with hst huv hvu
      · rw [hst]
      · omega
      all_goals rfl
    | _ => rfl

/-- A sum with a NaN. -/
theorem Wide.add_nan (a : Wide) : a.add .nan = .nan := by cases a <;> rfl

/-- The exact sum of a list. -/
def sum (xs : List UInt32) : Wide := xs.foldl (fun res x => res.add (wide x)) (.ofInt 0)

theorem sum_concat (xs : List UInt32) (y : UInt32) : sum (xs ++ [y]) = (sum xs).add (wide y) :=
  List.foldl_concat ..

theorem sum_nan {xs : List UInt32} (hne : xs ≠ []) (hxs : ∀ x ∈ xs, IsNaN x) : sum xs = .nan := by
  obtain ⟨ys, y, rfl⟩ := (List.eq_nil_or_concat' xs).resolve_left hne
  rw [sum_concat, wide_eq_nan_iff.2 (hxs y (by simp)), Wide.add_nan]

/-- **Sums of whole numbers below `2 ^ 24` are exact.** -/
theorem sum_ofNat (ns : List ℕ) (h : ns.sum < 2 ^ 24) :
    sum (ns.map fun n : ℕ => narrow (.ofInt n)) = .ofInt ns.sum := by
  induction ns using List.reverseRecOn with
  | nil => rfl
  | append_singleton ns n ih =>
    rw [List.sum_append, List.sum_singleton] at h ⊢
    have hn : wide (narrow (.ofInt n)) = .fin false (n * 2 ^ 149) := wide_ofNat (by omega)
    rw [List.map_append, List.map_singleton, sum_concat, ih (by omega), hn]
    show Wide.fin false (ns.sum * 2 ^ 149 + n * 2 ^ 149) = .fin false ((ns.sum + n) * 2 ^ 149)
    rw [Nat.add_mul]

/-! ## NaN -/

/-- **The operations return NaN for NaN.** -/
theorem isNaN_op (h : IsNaN x ∨ IsNaN y) :
    IsNaN (add x y) ∧ IsNaN (sub x y) ∧ IsNaN (mul x y) ∧ IsNaN (div x y) := by
  unfold add sub mul div
  rcases h with h | h
  · rw [wide_eq_nan_iff.2 h]
    exact ⟨isNaN_quietNaN, isNaN_quietNaN, isNaN_quietNaN, isNaN_quietNaN⟩
  · rw [wide_eq_nan_iff.2 h]
    cases wide x <;> exact ⟨isNaN_quietNaN, isNaN_quietNaN, isNaN_quietNaN, isNaN_quietNaN⟩

/-! ## Quotients -/

/-- A number by itself. -/
theorem roundBits_self {u : ℕ} (hu : 0 < u) : roundBits (u * 2 ^ 149) u = 127 * 2 ^ 23 := by
  have hlog : (u * 2 ^ 149 / u).log2 = 149 := by rw [Nat.mul_div_cancel_left _ hu, Nat.log2_two_pow]
  have hsplit : u * 2 ^ 149 = 2 ^ 23 * (u * 2 ^ 126) := by ring
  rw [roundBits, hlog, hsplit, nearest_mul _ (by positivity)]
  rfl

theorem magnitude_pos (hx : 0 < x.toNat % 2 ^ 31) : 0 < magnitude x := by
  unfold magnitude exponent fraction
  split_ifs with h0
  · omega
  · positivity

/-- **A number that is neither zero nor infinite, divided by itself, is one.** -/
theorem div_self (hzero : 0 < x.toNat % 2 ^ 31) (hinf : x.toNat % 2 ^ 31 < infBits) :
    div x x = 0x3f800000 := by
  have hexp : ¬ exponent x = 255 := by
    unfold exponent
    simp only [infBits] at hinf
    omega
  have hpos := magnitude_pos hzero
  rw [div, wide, if_neg hexp]
  simp only [if_neg hpos.ne', roundBits_self hpos, bne_self_eq_false]
  rfl

/-- The quotients of zero and of an infinity by itself are NaN. -/
theorem div_self_nan (hx : ¬ (0 < x.toNat % 2 ^ 31 ∧ x.toNat % 2 ^ 31 < infBits)) :
    div x x = quietNaN := by
  rw [div, wide]
  split_ifs with hexp hfrac
  · rfl
  · rfl
  · have hzero : magnitude x = 0 := by
      have hbits : x.toNat % 2 ^ 31 = 0 := by
        simp only [infBits] at hx
        unfold exponent at hexp
        omega
      rw [magnitude, if_pos (by unfold exponent; omega), fraction]
      omega
    simp only [hzero, if_true]

end Binary32

end HEDB
