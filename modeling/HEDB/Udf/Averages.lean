import HEDB.Foundations.Simulation
import HEDB.PlainOps.Ieee
import HEDB.Udf.Aggregates

/-!
# Averages of arrays

`enc_int4_avg_bulk` and `enc_float4_avg_bulk` divide the sum of an array by the number of its
elements, which they get as a sum of ciphertexts of one. The one is the first element divided by
itself, and the number is not set when there is only one element.

So the average of an array of `int` is right exactly when it has two elements or more and the first
is not zero (`avgRight_iff`), and the final division of `float` gets the sum and the number of
elements exactly when the first element is also finite (`divides_iff`), as long as a `float` counts
that far.
-/

namespace HEDB

namespace Udf

variable {g : Gcm} {F : FloatOps} {n : Num}

/-! ## Two windows -/

section Loop

variable {values : List (Bytes n.size)} {ps ws ws' us us' : List (List UInt8)} {u : List UInt8}
  {unit : Bytes n.size}

/-- The two windows of an average. -/
theorem pushBoth_ok (hvalues : Encrypts g values ps) (hunit : g.Decrypts unit.bytes u)
    {sums nums : Window n} (hsums : sums.Inv g ws) (hnums : nums.Inv g us)
    (hps : ps.foldlM (pushWindow HEDB.bulkSize (plainSumBulk F n)) ws = some ws')
    (hus : (List.replicate ps.length u).foldlM (pushWindow HEDB.bulkSize (plainSumBulk F n)) us =
      some us') (c : Client) :
    ∃ sums' nums' c',
      values.foldlM (Window.pushBoth g F unit) (sums, nums) c = some (.ok (sums', nums'), c') ∧
      sums'.Inv g ws' ∧ nums'.Inv g us' ∧
      (values ≠ [] → sums'.Settled ∧ nums'.Settled) := by
  induction hvalues generalizing sums nums ws us c with
  | nil =>
    cases hps
    cases hus
    exact ⟨sums, nums, c, rfl, hsums, hnums, fun hne => absurd rfl hne⟩
  | @cons v p values ps hv hvalues ih =>
    rw [List.foldlM_cons] at hps
    rw [List.length_cons, List.replicate_succ, List.foldlM_cons] at hus
    obtain ⟨ws₁, hws₁, hps⟩ := Option.bind_eq_some_iff.1 hps
    obtain ⟨us₁, hus₁, hus⟩ := Option.bind_eq_some_iff.1 hus
    obtain ⟨sums₁, c₁, hpush, hsums₁, hset, -⟩ := Window.push_ok hsums hv hws₁ c
    obtain ⟨nums₁, c₂, hpush', hnums₁, hset', -⟩ := Window.push_ok hnums hunit hus₁ c₁
    have hboth : Window.pushBoth g F unit (sums, nums) v c = some (.ok (sums₁, nums₁), c₂) := by
      rw [Window.pushBoth, run_bind hpush, run_bind hpush']
      rfl
    obtain ⟨sums', nums', c', hloop, hsums', hnums', hsettled⟩ := ih hsums₁ hnums₁ hps hus c₂
    refine ⟨sums', nums', c', ?_, hsums', hnums', fun _ => ?_⟩
    · rw [List.foldlM_cons, run_bind hboth]
      exact hloop
    · cases hvalues with
      | nil =>
        cases hloop
        exact ⟨hset, hset'⟩
      | cons _ _ => exact hsettled (by simp)

/-- One of the two sums overflows. -/
theorem pushBoth_none (hvalues : Encrypts g values ps) (hunit : g.Decrypts unit.bytes u)
    {sums nums : Window n} (hsums : sums.Inv g ws) (hnums : nums.Inv g us)
    (h : ps.foldlM (pushWindow HEDB.bulkSize (plainSumBulk F n)) ws = none ∨
      (List.replicate ps.length u).foldlM (pushWindow HEDB.bulkSize (plainSumBulk F n)) us = none)
    (c : Client) : values.foldlM (Window.pushBoth g F unit) (sums, nums) c = none := by
  induction hvalues generalizing sums nums ws us c with
  | nil => rcases h with h | h <;> cases h
  | @cons v p values ps hv hvalues ih =>
    rw [List.foldlM_cons, List.length_cons, List.replicate_succ, List.foldlM_cons] at h
    rw [List.foldlM_cons]
    cases hws₁ : pushWindow HEDB.bulkSize (plainSumBulk F n) ws p with
    | none => exact run_bind_none (run_bind_none (Window.push_none hsums hv hws₁ c))
    | some ws₁ =>
      obtain ⟨sums₁, c₁, hpush, hsums₁, -, -⟩ := Window.push_ok hsums hv hws₁ c
      cases hus₁ : pushWindow HEDB.bulkSize (plainSumBulk F n) us u with
      | none =>
        refine run_bind_none ?_
        rw [Window.pushBoth, run_bind hpush]
        exact run_bind_none (Window.push_none hnums hunit hus₁ c₁)
      | some us₁ =>
        rw [hws₁, hus₁] at h
        obtain ⟨nums₁, c₂, hpush', hnums₁, -, -⟩ := Window.push_ok hnums hunit hus₁ c₁
        have hboth : Window.pushBoth g F unit (sums, nums) v c = some (.ok (sums₁, nums₁), c₂) := by
          rw [Window.pushBoth, run_bind hpush, run_bind hpush']
          rfl
        rw [run_bind hboth]
        exact ih hsums₁ hnums₁ h c₂

end Loop

section Averages

variable {v : Bytes n.size} {values : List (Bytes n.size)} {p u S N : List UInt8}
  {ps : List (List UInt8)}

theorem avgBulk_none (hv : g.Decrypts v.bytes p) (hu : plainCalc F n .div p p = none)
    (stack : ℕ → Bytes n.size) (num : Bytes n.size) (c : Client) :
    avgBulk g F n stack num (v :: values) c = none :=
  run_bind_none (encDiv_none hv hv hu c)

/-- The average of one element: the number of elements has not been set. -/
theorem avgBulk_one (hv : g.Decrypts v.bytes p) (hu : plainCalc F n .div p p = some u)
    (stack : ℕ → Bytes n.size) (num : Bytes n.size) (c : Client) :
    ∃ c₁, avgBulk g F n stack num [v] c = encDiv g F n v num c₁ := by
  obtain ⟨unit, c₁, hdiv, -, -⟩ := encDiv_ok hv hv hu c
  have hfinish : ∀ (stack : ℕ → Bytes n.size) (value sum : Bytes n.size),
      (Window.start stack value sum).finish g F = pure (.start stack value sum) :=
    fun _ _ _ => if_neg (Nat.lt_irrefl 1)
  refine ⟨c₁, ?_⟩
  rw [avgBulk, run_bind hdiv, List.foldlM_nil, pure_bind, hfinish, pure_bind, hfinish, pure_bind]
  rfl

/-- The average of two elements or more: the sum of the elements by the sum of as many ones. -/
theorem avgBulk_eq (hv : g.Decrypts v.bytes p) (hvalues : Encrypts g values ps) (hne : values ≠ [])
    (hu : plainCalc F n .div p p = some u)
    (hS : windowedSum HEDB.bulkSize (plainSumBulk F n) (p :: ps) = some S)
    (hN : windowedSum HEDB.bulkSize (plainSumBulk F n) (List.replicate (ps.length + 1) u) = some N)
    (stack : ℕ → Bytes n.size) (num : Bytes n.size) (c : Client) :
    ∃ s m c₁, avgBulk g F n stack num (v :: values) c = encDiv g F n s m c₁ ∧
      g.Decrypts s.bytes S ∧ g.Decrypts m.bytes N := by
  obtain ⟨unit, c₁, hdiv, hunit, -⟩ := encDiv_ok hv hv hu c
  rw [List.replicate_succ] at hN
  obtain ⟨ws, hws, hclose⟩ := Option.bind_eq_some_iff.1 hS
  obtain ⟨us, hus, hclose'⟩ := Option.bind_eq_some_iff.1 hN
  obtain ⟨sums, nums, c₂, hloop, hsums, hnums, hsettled⟩ := pushBoth_ok hvalues hunit
    (Window.inv_start hv stack v)
    (Window.inv_start hunit (fun _ => unit) num) hws hus c₁
  obtain ⟨hset, hset'⟩ := hsettled hne
  obtain ⟨sums', c₃, hfinish, hs, -⟩ := Window.finish_ok hsums hset hclose c₂
  obtain ⟨nums', c₄, hfinish', hm, -⟩ := Window.finish_ok hnums hset' hclose' c₃
  refine ⟨sums'.sum, nums'.sum, c₄, ?_, hs, hm⟩
  rw [avgBulk, run_bind hdiv, run_bind hloop, run_bind hfinish, run_bind hfinish']

/-- The number of elements overflows. -/
theorem avgBulk_overflow (hv : g.Decrypts v.bytes p) (hvalues : Encrypts g values ps)
    (hne : values ≠ [])
    (hu : plainCalc F n .div p p = some u)
    (hS : windowedSum HEDB.bulkSize (plainSumBulk F n) (p :: ps) = some S)
    (hN : windowedSum HEDB.bulkSize (plainSumBulk F n) (List.replicate (ps.length + 1) u) = none)
    (stack : ℕ → Bytes n.size) (num : Bytes n.size) (c : Client) :
    avgBulk g F n stack num (v :: values) c = none := by
  obtain ⟨unit, c₁, hdiv, hunit, -⟩ := encDiv_ok hv hv hu c
  obtain ⟨ws, hws, hclose⟩ := Option.bind_eq_some_iff.1 hS
  have hsums : (Window.start stack v v).Inv g [p] := Window.inv_start hv stack v
  have hnums : (Window.start (fun _ => unit) unit num).Inv g [u] := Window.inv_start hunit _ num
  rw [avgBulk, run_bind hdiv]
  rw [List.replicate_succ, windowedSum] at hN
  cases hus : (List.replicate ps.length u).foldlM (pushWindow HEDB.bulkSize (plainSumBulk F n))
    [u] with
  | none => exact run_bind_none (pushBoth_none hvalues hunit hsums hnums (.inr hus) c₁)
  | some us =>
    rw [hus, Option.bind_some] at hN
    obtain ⟨sums', nums', c₂, hloop, hsums', hnums', hsettled⟩ :=
      pushBoth_ok hvalues hunit hsums hnums hws hus c₁
    obtain ⟨w, c₃, hfinish, -, -⟩ := Window.finish_ok hsums' (hsettled hne).1 hclose c₂
    rw [run_bind hloop, run_bind hfinish]
    exact run_bind_none (Window.finish_none hnums' hN c₃)

end Averages

/-! ## `int` -/

/-- **The average of the plaintexts.** -/
def AvgRight (g : Gcm) (F : FloatOps) (array : List (Bytes Num.int.size)) (vs : List ℤ) : Prop :=
  ∀ stack num c, ∃ avg c', encInt4AvgBulk g F stack num array c = some (.ok avg, c') ∧
    g.Decrypts avg.bytes (intBytes (vs.sum.tdiv vs.length))

theorem plainCalc_div {a b : ℤ} (ha : IsInt a) (hb : IsInt b) :
    plainCalc F .int .div (intBytes a) (intBytes b) =
      (if b = 0 then none else checkedInt (a.tdiv b)).map intBytes := by
  rw [plainCalc, bytesInt_intBytes ha, bytesInt_intBytes hb]
  rfl

theorem sumsFit_ones (k : ℕ) : SumsFit (List.replicate k 1) ↔ k < 2 ^ 31 := by
  have hsum : ∀ j ≤ k, ((List.replicate k (1 : ℤ)).take j).sum = j := by
    intro j hj
    rw [List.take_replicate, min_eq_left hj, List.sum_replicate, nsmul_eq_mul, mul_one]
  constructor
  · intro h
    have := h k (by simp)
    rw [hsum k le_rfl, IsInt] at this
    omega
  · intro hk j hj
    rw [List.length_replicate] at hj
    rw [hsum j hj]
    constructor <;> omega

/-- A quotient by a positive number is an `int`. -/
theorem isInt_tdiv {a b : ℤ} (ha : IsInt a) (hb : 0 < b) : IsInt (a.tdiv b) := by
  have habs := Int.natAbs_tdiv_le_natAbs a b
  obtain ⟨h₁, h₂⟩ := ha
  rcases le_total 0 a with h0 | h0
  · have hpos := Int.tdiv_nonneg h0 hb.le
    constructor <;> omega
  · have hneg : a.tdiv b ≤ 0 := by
      have hpos := Int.tdiv_nonneg (neg_nonneg.2 h0) hb.le
      rw [Int.neg_tdiv] at hpos
      omega
    constructor <;> omega

theorem avgRight_iff {array : List (Bytes Num.int.size)} {vs : List ℤ} (hne : array ≠ [])
    (hvs : ∀ v ∈ vs, IsInt v) (h : Encrypts g array (vs.map intBytes)) (hfit : SumsFit vs) :
    AvgRight g F array vs ↔ 2 ≤ vs.length ∧ vs.length < 2 ^ 31 ∧ vs.head? ≠ some 0 := by
  obtain ⟨v, array, rfl⟩ := List.exists_cons_of_ne_nil hne
  cases vs with
  | nil => cases h
  | cons a vs =>
    rw [List.map_cons] at h
    obtain ⟨hv, harray⟩ := List.forall₂_cons.1 h
    have ha := hvs a List.mem_cons_self
    have hunit : plainCalc F .int .div (intBytes a) (intBytes a) =
        if a = 0 then none else some (intBytes 1) := by
      rw [plainCalc_div ha ha]
      split_ifs with h0
      · rfl
      · rw [Int.tdiv_self h0]
        rfl
    by_cases h0 : a = 0
    · -- The first element is zero, and dividing it by itself is undefined.
      rw [if_pos h0] at hunit
      constructor
      · intro havg
        obtain ⟨avg, c', hrun, -⟩ := havg (staleStack .int) (staleStack .int 0) .zero
        rw [encInt4AvgBulk, avgBulk_none hv hunit] at hrun
        cases hrun
      · rintro ⟨-, -, hhead⟩
        exact absurd (by rw [h0]; rfl) hhead
    rw [if_neg h0] at hunit
    by_cases hone : vs = []
    · -- The number of elements is not set; it may be a ciphertext of zero.
      subst hone
      cases harray
      constructor
      · intro havg
        obtain ⟨num, hnum⟩ := exists_decrypts g .int (length_intBytes 0)
        obtain ⟨avg, c', hrun, -⟩ := havg (staleStack .int) num .zero
        obtain ⟨c₁, heq⟩ := avgBulk_one hv hunit (staleStack .int) num .zero
        rw [encInt4AvgBulk, heq, encDiv_none hv hnum] at hrun
        · cases hrun
        · rw [plainCalc_div ha (by decide), if_pos rfl]
          rfl
      · rintro ⟨hlen, -, -⟩
        simp at hlen
    have harray0 : array ≠ [] := by
      rintro rfl
      cases vs with
      | nil => exact hone rfl
      | cons _ _ => cases harray
    have hS := windowedSum_int (F := F) (a :: vs) (by simp) hvs
    rw [if_pos hfit, List.map_cons] at hS
    have hN := windowedSum_int (F := F) (List.replicate (vs.length + 1) 1) (by simp)
      (fun b hb => List.eq_of_mem_replicate hb ▸ by decide)
    rw [List.map_replicate, List.sum_replicate, nsmul_eq_mul, mul_one] at hN
    simp only [sumsFit_ones] at hN
    have hmap : (vs.map intBytes).length = vs.length := List.length_map ..
    rw [← hmap] at hN
    have hsum : IsInt (a :: vs).sum := by
      have := hfit (a :: vs).length le_rfl
      rwa [List.take_length] at this
    by_cases hlt : (a :: vs).length < 2 ^ 31
    · rw [if_pos (by simpa using hlt)] at hN
      refine ⟨fun _ => ⟨?_, hlt, ?_⟩, fun _ stack num c => ?_⟩
      · have := List.length_pos_of_ne_nil hone
        rw [List.length_cons]
        omega
      · simpa using h0
      · obtain ⟨s, m, c₁, heq, hs, hm⟩ := avgBulk_eq hv harray harray0 hunit hS hN stack num c
        have hm' : g.Decrypts m.bytes (intBytes (a :: vs).length) := by simpa using hm
        have hlen : IsInt ((a :: vs).length : ℤ) := ⟨by omega, by exact_mod_cast hlt⟩
        have hdiv : plainCalc F .int .div (intBytes (a :: vs).sum) (intBytes (a :: vs).length) =
            some (intBytes ((a :: vs).sum.tdiv (a :: vs).length)) := by
          have hpos : 0 < ((a :: vs).length : ℤ) := by simp
          rw [plainCalc_div hsum hlen, if_neg hpos.ne', checkedInt, if_pos (isInt_tdiv hsum hpos)]
          rfl
        obtain ⟨avg, c', hrun, havg, -⟩ := encDiv_ok hs hm' hdiv c₁
        exact ⟨avg, c', heq.trans hrun, havg⟩
    · rw [if_neg (by simpa using hlt)] at hN
      constructor
      · intro havg
        obtain ⟨avg, c', hrun, -⟩ := havg (staleStack .int) (staleStack .int 0) .zero
        rw [encInt4AvgBulk, avgBulk_overflow hv harray harray0 hunit hS hN] at hrun
        cases hrun
      · exact fun h => absurd h.2.1 hlt

/-! ## `float` -/

/-- Not a number: the exponent is full and the fraction is not zero. -/
def IsNan (x : UInt32) : Prop := 0x7f800000 < x.toNat % 2 ^ 31

/-- Neither zero nor infinite nor a NaN. -/
def FiniteNonzero (x : UInt32) : Prop := 0 < x.toNat % 2 ^ 31 ∧ x.toNat % 2 ^ 31 < 0x7f800000

instance (x : UInt32) : Decidable (IsNan x) := inferInstanceAs (Decidable (_ < _))
instance (x : UInt32) : Decidable (FiniteNonzero x) := inferInstanceAs (Decidable (_ ∧ _))

/-- The `float` 1. -/
def oneFloat : UInt32 := 0x3f800000

/-- The arithmetic does with zeros, infinities and NaNs what IEEE 754 asks for, and counts below
`2 ^ 24` without rounding. -/
structure Ieee (F : FloatOps) : Prop where
  div_self : ∀ x, FiniteNonzero x → F.narrow (F.widen (F.div x x)) = oneFloat
  div_self_nan : ∀ x, ¬ FiniteNonzero x → IsNan (F.narrow (F.widen (F.div x x)))
  sum_nan : ∀ xs, xs ≠ [] → (∀ x ∈ xs, IsNan x) → IsNan (F.narrow (plainFloatSumBulk F xs))
  ofInt_one : F.ofInt 1 = oneFloat
  ofInt_number : ∀ n : ℕ, n < 2 ^ 24 → ¬ IsNan (F.ofInt n)
  sum_exact : ∀ ns : List ℕ, ns.sum < 2 ^ 24 →
    F.narrow (plainFloatSumBulk F (ns.map fun n : ℕ => F.ofInt n)) = F.ofInt ns.sum

/-- **The final division gets the sum**, as a sum of `float` in windows, **and the number of
elements**. -/
def Divides (g : Gcm) (F : FloatOps) (array : List (Bytes Num.float.size)) (fs : List UInt32) :
    Prop :=
  ∀ stack num c, ∃ s m S out c', encFloat4AvgBulk g F stack num array c = some (out, c') ∧
    c'.sent.getLast? = some (.calcNum .float .div s m) ∧
    windowedSum HEDB.bulkSize (plainSumBulk F .float) (fs.map floatBytes) = some S ∧
    g.Decrypts s.bytes S ∧ g.Decrypts m.bytes (floatBytes (F.ofInt fs.length))

theorem bytesFloat_floatBytes (x : UInt32) : bytesFloat (floatBytes x) = x := by
  have hx : x.toNat < 256 ^ 4 := x.toNat_lt
  rw [bytesFloat, floatBytes, leNat_leBytes, Nat.mod_eq_of_lt hx, UInt32.ofNat_toNat]

theorem plainCalc_divFloat (x y : UInt32) :
    plainCalc F .float .div (floatBytes x) (floatBytes y) =
      some (floatBytes (F.narrow (F.widen (F.div x y)))) := by
  rw [plainCalc, bytesFloat_floatBytes, bytesFloat_floatBytes]
  rfl

/-- A sum of NaNs. -/
theorem isNan_windowedSum (hF : Ieee F) {x : UInt32} (hx : IsNan x) {k : ℕ} {t : List UInt8}
    (h : windowedSum HEDB.bulkSize (plainSumBulk F .float) (List.replicate k (floatBytes x)) =
      some t) : IsNan (bytesFloat t) := by
  refine windowedSum_of_forall₂ (R := fun (_ : ℕ) bs => IsNan (bytesFloat bs))
    (fun _ ws t hne hws ht => ?_) (forall₂_replicate (a := 1) ?_ k) h
  · cases ht
    rw [bytesFloat_floatBytes]
    refine hF.sum_nan _ (by simpa using hne) fun y hy => ?_
    obtain ⟨bs, hbs, rfl⟩ := List.mem_map.1 hy
    obtain ⟨_, -, hnan⟩ := exists_of_mem_right hws hbs
    exact hnan
  · rwa [bytesFloat_floatBytes]

/-- **A sum of ones is their number.** -/
theorem windowedSum_ones (hF : Ieee F) {k : ℕ} (hk : k < 2 ^ 24) {t : List UInt8}
    (h : windowedSum HEDB.bulkSize (plainSumBulk F .float)
      (List.replicate k (floatBytes oneFloat)) = some t) : t = floatBytes (F.ofInt k) := by
  -- every item of a window is the number of the ones in it
  have hcounts : ∀ {ns ws},
      List.Forall₂ (fun (n : ℕ) bs => n < 2 ^ 24 → bs = floatBytes (F.ofInt n)) ns ws →
      ns.sum < 2 ^ 24 → ws.map bytesFloat = ns.map fun n : ℕ => F.ofInt n := by
    intro ns ws hws
    induction hws with
    | nil => exact fun _ => rfl
    | @cons n bs ns ws hbs _ ih =>
      intro hsum
      rw [List.sum_cons] at hsum
      rw [List.map_cons, List.map_cons, ih (by omega), hbs (by omega), bytesFloat_floatBytes]
  have hsum := windowedSum_of_forall₂
    (R := fun (n : ℕ) bs => n < 2 ^ 24 → bs = floatBytes (F.ofInt n))
    (fun ns ws t _ hws ht hlt => ?_) (forall₂_replicate (a := 1) ?_ k) h
  · rw [List.sum_replicate, smul_eq_mul, mul_one] at hsum
    exact hsum hk
  · cases ht
    rw [hcounts hws hlt, hF.sum_exact ns hlt]
  · exact fun _ => by rw [Nat.cast_one, hF.ofInt_one]

/-- The last request of a division. -/
theorem encDiv_float {s m : Bytes Num.float.size} {S N : List UInt8} (hs : g.Decrypts s.bytes S)
    (hm : g.Decrypts m.bytes N) (c : Client) :
    ∃ out c', encDiv g F .float s m c = some (out, c') ∧
      c'.sent.getLast? = some (.calcNum .float .div s m) := by
  obtain ⟨v, c', hrun, -, hsent⟩ := encDiv_ok (F := F) (p := floatBytes _) hs hm rfl c
  exact ⟨_, c', hrun, by rw [hsent, List.getLast?_concat]⟩

/-- The operands of the last division. -/
theorem Divides.operands {array : List (Bytes Num.float.size)} {fs : List UInt32}
    (h : Divides g F array fs) {stack : ℕ → Bytes Num.float.size} {num s m : Bytes Num.float.size}
    {S N : List UInt8} {c c₁ : Client}
    (heq : avgBulk g F .float stack num array c = encDiv g F .float s m c₁)
    (hs : g.Decrypts s.bytes S) (hm : g.Decrypts m.bytes N) :
    N = floatBytes (F.ofInt fs.length) := by
  obtain ⟨out, c', hrun, hlast⟩ := encDiv_float (F := F) hs hm c₁
  obtain ⟨s', m', S', out', c'', hrun', hlast', -, -, hm'⟩ := h stack num c
  rw [encFloat4AvgBulk, heq, hrun] at hrun'
  cases hrun'
  rw [hlast] at hlast'
  cases hlast'
  exact hm.unique hm'

theorem divides_iff (hF : Ieee F) {array : List (Bytes Num.float.size)} {fs : List UInt32}
    (hne : array ≠ []) (hlen : fs.length < 2 ^ 24) (h : Encrypts g array (fs.map floatBytes)) :
    Divides g F array fs ↔ 2 ≤ fs.length ∧ ∀ x ∈ fs.head?, FiniteNonzero x := by
  obtain ⟨v, array, rfl⟩ := List.exists_cons_of_ne_nil hne
  cases fs with
  | nil => cases h
  | cons x fs =>
    rw [List.map_cons] at h
    obtain ⟨hv, harray⟩ := List.forall₂_cons.1 h
    have hunit := plainCalc_divFloat (F := F) x x
    by_cases hone : fs = []
    · -- The number of elements is not set; it may be a ciphertext of zero.
      subst hone
      cases harray
      constructor
      · intro hdiv
        obtain ⟨num, hnum⟩ := exists_decrypts g .float (length_floatBytes 0)
        obtain ⟨c₁, heq⟩ := avgBulk_one hv hunit (staleStack .float) num .zero
        have hN : floatBytes 0 = floatBytes (F.ofInt 1) := hdiv.operands heq hv hnum
        rw [hF.ofInt_one] at hN
        exact absurd hN (by decide)
      · rintro ⟨htwo, -⟩
        simp at htwo
    have harray0 : array ≠ [] := by
      rintro rfl
      cases fs with
      | nil => exact hone rfl
      | cons _ _ => cases harray
    obtain ⟨S, hS⟩ := exists_windowedSum_float (F := F) (l := floatBytes x :: fs.map floatBytes)
      (by simp)
    obtain ⟨N, hN⟩ := exists_windowedSum_float (F := F)
      (l := List.replicate ((fs.map floatBytes).length + 1)
        (floatBytes (F.narrow (F.widen (F.div x x))))) (by simp)
    have hrun := avgBulk_eq hv harray harray0 hunit hS hN
    rw [List.length_map] at hN
    by_cases hx : FiniteNonzero x
    · rw [hF.div_self x hx] at hN
      refine ⟨fun _ => ⟨?_, by simpa using hx⟩, fun _ stack num c => ?_⟩
      · have := List.length_pos_of_ne_nil hone
        rw [List.length_cons]
        omega
      · obtain ⟨s, m, c₁, heq, hs, hm⟩ := hrun stack num c
        obtain ⟨out, c', hdiv, hlast⟩ := encDiv_float (F := F) hs hm c₁
        rw [windowedSum_ones hF hlen hN] at hm
        exact ⟨s, m, S, out, c', heq.trans hdiv, hlast, hS, hs, hm⟩
    · -- The ones are NaNs, and so is their sum.
      refine ⟨fun hdiv => ?_, fun hcond => absurd (hcond.2 x rfl) hx⟩
      obtain ⟨s, m, c₁, heq, hs, hm⟩ := hrun (staleStack .float) (staleStack .float 0) .zero
      have hnan := isNan_windowedSum hF (hF.div_self_nan x hx) hN
      rw [hdiv.operands heq hs hm, bytesFloat_floatBytes] at hnan
      exact absurd hnan (hF.ofInt_number _ hlen)

/-- **Averages are right exactly when there are two elements or more and the first is not zero.** -/
theorem avgBulk_spec (g : Gcm) (F : FloatOps) (hF : Ieee F) :
    (∀ (array : List (Bytes Num.int.size)) (vs : List ℤ), array ≠ [] → (∀ v ∈ vs, IsInt v) →
      Encrypts g array (vs.map intBytes) → SumsFit vs →
      (AvgRight g F array vs ↔ 2 ≤ vs.length ∧ vs.length < 2 ^ 31 ∧ vs.head? ≠ some 0)) ∧
    ∀ (array : List (Bytes Num.float.size)) (fs : List UInt32), array ≠ [] → fs.length < 2 ^ 24 →
      Encrypts g array (fs.map floatBytes) →
      (Divides g F array fs ↔ 2 ≤ fs.length ∧ ∀ x ∈ fs.head?, FiniteNonzero x) :=
  ⟨fun _ _ hne hvs h hfit => avgRight_iff hne hvs h hfit,
    fun _ _ hne hlen h => divides_iff hF hne hlen h⟩

/-! ## Two arrays -/

theorem isNan_iff {x : UInt32} : IsNan x ↔ Binary32.IsNaN x := by
  unfold IsNan Binary32.IsNaN Binary32.exponent Binary32.fraction
  omega

theorem ieee_ieee : Ieee FloatOps.ieee where
  div_self x hx := by
    show Binary32.narrow (Binary32.wide (Binary32.div x x)) = oneFloat
    rw [Binary32.div_self hx.1 hx.2]
    exact Binary32.narrow_wide (by decide)
  div_self_nan x hx := by
    show IsNan (Binary32.narrow (Binary32.wide (Binary32.div x x)))
    rw [Binary32.div_self_nan hx]
    decide
  sum_nan xs hne hxs := by
    show IsNan (Binary32.narrow (Binary32.sum xs))
    rw [Binary32.sum_nan hne fun x hx => isNan_iff.1 (hxs x hx)]
    decide
  ofInt_one := by decide
  ofInt_number n hn hnan := by
    have hwide : Binary32.wide (FloatOps.ieee.ofInt n) = .ofInt n := Binary32.wide_ofNat hn
    rw [Binary32.wide_eq_nan_iff.2 (isNan_iff.1 hnan)] at hwide
    cases hwide
  sum_exact ns hns := congrArg Binary32.narrow (Binary32.sum_ofNat ns hns)

/-- The averages of `{1, 2}`. -/
theorem avgBulk_spec_two :
    (∃ array, Encrypts Gcm.identity array ([1, 2].map intBytes) ∧
      AvgRight Gcm.identity FloatOps.ieee array [1, 2]) ∧
    ∃ array, Encrypts Gcm.identity array ([oneFloat, 0x40000000].map floatBytes) ∧
      Divides Gcm.identity FloatOps.ieee array [oneFloat, 0x40000000] := by
  obtain ⟨hint, hfloat⟩ := avgBulk_spec Gcm.identity FloatOps.ieee ieee_ieee
  obtain ⟨array, h⟩ := exists_encrypts Gcm.identity .int ([1, 2].map intBytes) (by decide)
  obtain ⟨array', h'⟩ := exists_encrypts Gcm.identity .float
    ([oneFloat, 0x40000000].map floatBytes) (by decide)
  refine ⟨⟨array, h, ?_⟩, array', h', ?_⟩
  · refine (hint array [1, 2] ?_ (by decide) h (by decide)).2 (by decide)
    rintro rfl
    cases h
  · refine (hfloat array' [oneFloat, 0x40000000] ?_ (by decide) h').2 ⟨by decide, ?_⟩
    · rintro rfl
      cases h'
    · intro x hx
      cases hx
      decide

/-- The average of `{0, 2}` is one, but the first element is divided by itself. -/
theorem avgBulk_zero_first : ∃ array, Encrypts Gcm.identity array ([0, 2].map intBytes) ∧
    encInt4AvgBulk Gcm.identity FloatOps.null (staleStack .int) (staleStack .int 0) array .zero =
      none := by
  obtain ⟨array, h⟩ := exists_encrypts Gcm.identity .int ([0, 2].map intBytes) (by decide)
  cases h with
  | cons hv hvalues =>
    refine ⟨_, .cons hv hvalues, avgBulk_none hv ?_ _ _ _⟩
    rw [plainCalc_div (by decide) (by decide)]
    rfl

end Udf

end HEDB
