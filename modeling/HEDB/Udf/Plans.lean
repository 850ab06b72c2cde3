import HEDB.Udf.Nulls
import HEDB.Udf.Scripts

/-!
# Order and aggregates under every plan

The server may cut a column into parts for parallel workers and scan it in any order. It relies on
the operators of a btree class to be the order of the values, and on the aggregates not to depend on
the plan.

The operators of `enc_int4` and `enc_timestamp` are the order of the plaintexts, and `min` and `max`
of `enc_int4` return a ciphertext of the least and the greatest plaintext under every plan
(`order_reflected`). `sum` adds in the order of the scan, and an `int` that overflows on the way has
no value. So its plans agree exactly when the positive values together and the negative values
together fit (`sum_everyPlan_iff`); that the sum fits is not enough.
-/

namespace HEDB

namespace Udf

variable {g : Gcm} {F : FloatOps}

/-! ## The order -/

/-- The number that is compared, for the types other than `float`. -/
def orderKey : Fam → List UInt8 → ℤ
  | .int, p | .float, p => bytesInt p
  | .timestamp, p => bytesInt64 p

/-- The relation that an operator is for. -/
def CmpOp.Rel : CmpOp → ℤ → ℤ → Prop
  | .eq, a, b => a = b
  | .ne, a, b => a ≠ b
  | .lt, a, b => a < b
  | .le, a, b => a ≤ b
  | .gt, a, b => a > b
  | .ge, a, b => a ≥ b

instance : (op : CmpOp) → (a b : ℤ) → Decidable (op.Rel a b)
  | .eq, a, b => inferInstanceAs (Decidable (a = b))
  | .ne, a, b => inferInstanceAs (Decidable (a ≠ b))
  | .lt, a, b => inferInstanceAs (Decidable (a < b))
  | .le, a, b => inferInstanceAs (Decidable (a ≤ b))
  | .gt, a, b => inferInstanceAs (Decidable (a > b))
  | .ge, a, b => inferInstanceAs (Decidable (a ≥ b))

theorem plainCmp_eq_sign {f : Fam} (hf : f ≠ .float) (p q : List UInt8) :
    plainCmp F f p q = (orderKey f p - orderKey f q).sign := by
  have hsign : ∀ a b : ℤ, (if a = b then 0 else if a < b then -1 else 1) = (a - b).sign := by
    intro a b
    rcases lt_trichotomy a b with h | h | h
    · rw [if_neg h.ne, if_pos h, Int.sign_eq_neg_one_of_neg (by omega)]
    · rw [if_pos h, h, sub_self, Int.sign_zero]
    · rw [if_neg h.ne', if_neg h.not_gt, Int.sign_eq_one_of_pos (by omega)]
  cases f with
  | int => exact hsign _ _
  | float => exact absurd rfl hf
  | timestamp => exact hsign _ _

theorem test_sign (op : CmpOp) (a b : ℤ) : op.test (a - b).sign = decide (op.Rel a b) := by
  have hzero : (a - b).sign = 0 ↔ a - b = 0 := Int.sign_eq_zero_iff_zero
  have hneg : (a - b).sign < 0 ↔ a - b < 0 := Int.sign_neg_iff
  have hpos : 0 < (a - b).sign ↔ 0 < a - b := Int.sign_pos_iff
  generalize (a - b).sign = s at hzero hneg hpos
  cases op <;> refine decide_eq_decide.2 ?_ <;> rw [CmpOp.Rel] <;> omega

theorem Returns.of_simulates {α : Type} {m : Sends α} {v : α}
    (h : Simulates (· = ·) m (some v)) : Returns m v := by
  intro c
  obtain ⟨_, c', hrun, rfl⟩ := h c
  exact ⟨c', hrun⟩

/-! ## Least and greatest values -/

/-- The `EncInt` of a value. -/
abbrev EncInt : Type := Bytes encInt32Length

/-- A ciphertext of an `int`. -/
def CarriesInt (g : Gcm) (c : EncInt) (v : ℤ) : Prop := Carries g c (intBytes v) ∧ IsInt v

/-- The `int` in a ciphertext. -/
def intOf (g : Gcm) (c : EncInt) : ℤ := bytesInt (g.gcmDecrypt c.bytes).2

theorem CarriesInt.intOf_eq {c : EncInt} {v : ℤ} (h : CarriesInt g c v) : intOf g c = v := by
  rw [intOf, show g.gcmDecrypt c.bytes = (0, intBytes v) from h.1, bytesInt_intBytes h.2]

theorem CarriesInt.returns_cmp {a b : EncInt} {x y : ℤ} (ha : CarriesInt g a x)
    (hb : CarriesInt g b y) :
    Returns (callCmp g F .int a b) (x - y).sign := by
  have h := returns_callCmp (F := F) (f := .int) ha.1 hb.1
  rwa [plainCmp_eq_sign (by decide), orderKey, bytesInt_intBytes ha.2, orderKey,
    bytesInt_intBytes hb.2] at h

theorem picks_encInt4Max : Picks (fun c => CarriesInt g c (intOf g c)) (intOf g)
    (encInt4Max g F) := by
  intro a b ha hb
  refine ⟨_, (ha.returns_cmp hb).bind (returns_pure _), ?_⟩
  by_cases h : intOf g b < intOf g a
  · rw [Int.sign_eq_one_of_pos (by omega)]
    exact ⟨.inl rfl, le_rfl, h.le⟩
  · have hsign : ¬ 0 < (intOf g a - intOf g b).sign := by
      rw [Int.sign_pos_iff]
      omega
    simp only [gt_iff_lt, hsign, decide_false, Bool.false_eq_true]
    exact ⟨.inr rfl, not_lt.1 h, le_rfl⟩

theorem picks_encInt4Min : Picks (fun c => CarriesInt g c (intOf g c))
    (fun c => OrderDual.toDual (intOf g c)) (encInt4Min g F) := by
  intro a b ha hb
  refine ⟨_, (ha.returns_cmp hb).bind (returns_pure _), ?_⟩
  by_cases h : intOf g a < intOf g b
  · rw [Int.sign_eq_neg_one_of_neg (by omega)]
    exact ⟨.inl rfl, le_rfl, OrderDual.toDual_le_toDual.2 h.le⟩
  · have hsign : ¬ (intOf g a - intOf g b).sign < 0 := by
      rw [Int.sign_neg_iff]
      omega
    simp only [hsign, decide_false, Bool.false_eq_true]
    exact ⟨.inr rfl, OrderDual.toDual_le_toDual.2 (not_lt.1 h), le_rfl⟩

section Columns

variable {column : List EncInt} {vs : List ℤ}

/-- The column encrypts the numbers. -/
def Column (g : Gcm) (column : List EncInt) (vs : List ℤ) : Prop :=
  List.Forall₂ (CarriesInt g) column vs

/-- A plan sees the column in another order. -/
theorem Column.perm {column' : List EncInt} (h : Column g column vs)
    (hperm : column'.Perm column) : ∃ vs', Column g column' vs' ∧ vs'.Perm vs :=
  List.perm_comp_forall₂ hperm h

theorem Column.holds (h : Column g column vs) : ∀ c ∈ column, CarriesInt g c (intOf g c) := by
  induction h with
  | nil => simp
  | @cons d v column vs hd _ ih =>
    rw [List.forall_mem_cons]
    exact ⟨by rwa [hd.intOf_eq], ih⟩

theorem Column.map_intOf (h : Column g column vs) : column.map (intOf g) = vs := by
  induction h with
  | nil => rfl
  | cons hd _ ih => rw [List.map_cons, hd.intOf_eq, ih]

/-- The result of an aggregate is a ciphertext of the number. -/
def ResultIs (g : Gcm) : Option EncInt → Option ℤ → Prop := Option.Rel (CarriesInt g)

/-- The best element of a column holds the number that `best` picks. -/
theorem resultIs_of_best {V : Type} [PartialOrder V] {key : EncInt → V} {r : Option EncInt}
    {best : List ℤ → Option ℤ} (h : Column g column vs) (hbest : Best key column r)
    (hnil : best [] = none)
    (hpick : ∀ c ∈ column, (∀ b ∈ column, key b ≤ key c) →
      best (column.map (intOf g)) = some (intOf g c)) : ResultIs g r (best vs) := by
  rw [← h.map_intOf]
  cases r with
  | none =>
    rw [show column = [] from hbest, List.map_nil, hnil]
    exact .none
  | some c =>
    rw [hpick c hbest.1 hbest.2]
    exact .some (h.holds c hbest.1)

theorem resultIs_max (h : Column g column vs) {r : Option EncInt}
    (hbest : Best (intOf g) column r) : ResultIs g r vs.max? := by
  refine resultIs_of_best h hbest rfl fun c hc hmax => List.max?_eq_some_iff.2 ?_
  exact ⟨List.mem_map_of_mem hc, by simpa using hmax⟩

theorem resultIs_min (h : Column g column vs) {r : Option EncInt}
    (hbest : Best (fun c => OrderDual.toDual (intOf g c)) column r) : ResultIs g r vs.min? := by
  refine resultIs_of_best h hbest rfl fun c hc hmin => List.min?_eq_some_iff.2 ?_
  exact ⟨List.mem_map_of_mem hc, by simpa using hmin⟩

end Columns

/-- **The order of the plaintexts is kept.** The operators of `enc_int4` and `enc_timestamp` are
those of the plaintexts, and under every plan the aggregates `max` and `min` of a column of
`enc_int4` return ciphertexts of the greatest and the least of its numbers. -/
theorem order_reflected (g : Gcm) (F : FloatOps) :
    (∀ f ≠ Fam.float, ∀ (a b : Bytes f.size) (p q : List UInt8), Carries g a p → Carries g b q →
      Returns (callCmp g F f a b) (orderKey f p - orderKey f q).sign ∧
      ∀ op : CmpOp, Returns (compareFun g F f op a b)
        (decide (op.Rel (orderKey f p) (orderKey f q)))) ∧
    ∀ (column : List EncInt) (vs : List ℤ), Column g column vs →
      ∀ parts : List (List EncInt), parts.flatten.Perm column →
        (∃ r, Returns (aggregateParallel (encInt4Max g F) parts) r ∧ ResultIs g r vs.max?) ∧
        ∃ r, Returns (aggregateParallel (encInt4Min g F) parts) r ∧ ResultIs g r vs.min? := by
  refine ⟨fun f hf a b p q ha hb => ⟨?_, fun op => ?_⟩, fun column vs h parts hparts => ?_⟩
  · rw [← plainCmp_eq_sign (F := F) hf]
    exact returns_callCmp ha hb
  · rw [← test_sign, ← plainCmp_eq_sign (F := F) hf]
    exact .of_simulates (simulates_compareFun op ha hb)
  · have hholds : ∀ c ∈ parts.flatten, CarriesInt g c (intOf g c) := fun c hc =>
      h.holds c (hparts.mem_iff.1 hc)
    obtain ⟨r, hr, hbest⟩ := (picks_encInt4Max (F := F)).aggregateParallel hholds
    obtain ⟨r', hr', hbest'⟩ := (picks_encInt4Min (F := F)).aggregateParallel hholds
    exact ⟨⟨r, hr, resultIs_max h (hbest.perm hparts)⟩, r', hr',
      resultIs_min h (hbest'.perm hparts)⟩

theorem exists_column (g : Gcm) {vs : List ℤ} (hvs : ∀ v ∈ vs, IsInt v) :
    ∃ column, Column g column vs := by
  induction vs with
  | nil => exact ⟨[], .nil⟩
  | cons v vs ih =>
    rw [List.forall_mem_cons] at hvs
    obtain ⟨c, hc⟩ := exists_cipher_int g v
    obtain ⟨column, hcolumn⟩ := ih hvs.2
    exact ⟨c :: column, .cons ⟨hc, hvs.1⟩ hcolumn⟩

/-- The column `{3, 5, 4}`, scanned by two workers. -/
theorem order_reflected_three : ∃ a b c : EncInt, Column .identity [a, b, c] [3, 5, 4] ∧
    Returns (compareFun .identity .null .int .lt a b) true ∧
    ∃ r, Returns (aggregateParallel (encInt4Max .identity .null) [[b, a], [], [c]]) (some r) ∧
      CarriesInt .identity r 5 := by
  obtain ⟨a, ha⟩ := exists_cipher_int .identity 3
  obtain ⟨b, hb⟩ := exists_cipher_int .identity 5
  obtain ⟨c, hc⟩ := exists_cipher_int .identity 4
  have hcolumn : Column .identity [a, b, c] [3, 5, 4] :=
    .cons ⟨ha, by decide⟩ (.cons ⟨hb, by decide⟩ (.cons ⟨hc, by decide⟩ .nil))
  obtain ⟨hops, haggregates⟩ := order_reflected .identity .null
  obtain ⟨⟨r, hr, hmax⟩, -⟩ := haggregates _ _ hcolumn [[b, a], [], [c]] (.swap a b [c])
  obtain ⟨r, rfl, h5⟩ : ∃ c, r = some c ∧ CarriesInt .identity c 5 := by
    cases hmax with
    | some h => exact ⟨_, rfl, h⟩
  refine ⟨a, b, c, hcolumn, (hops .int (by decide) a b _ _ ha hb).2 .lt, r, hr, h5⟩

/-! ## Sums -/

/-- The positive values together. -/
def positives (vs : List ℤ) : ℤ := (vs.map (max · 0)).sum

/-- The negative values together. -/
def negatives (vs : List ℤ) : ℤ := (vs.map (min · 0)).sum

theorem take_sum_le (vs : List ℤ) (k : ℕ) :
    negatives vs ≤ (vs.take k).sum ∧ (vs.take k).sum ≤ positives vs := by
  unfold negatives positives
  induction vs generalizing k with
  | nil => simp
  | cons v vs ih =>
    cases k with
    | zero =>
      have := ih 0
      simp at this ⊢
      omega
    | succ k =>
      have := ih k
      simp at this ⊢
      omega

theorem positives_perm {vs vs' : List ℤ} (h : vs.Perm vs') : positives vs = positives vs' :=
  (h.map _).sum_eq

theorem negatives_perm {vs vs' : List ℤ} (h : vs.Perm vs') : negatives vs = negatives vs' :=
  (h.map _).sum_eq

/-- No order overflows when both parts fit. -/
theorem sumsFit_of_parts {vs : List ℤ} (hpos : positives vs < 2 ^ 31)
    (hneg : -2 ^ 31 ≤ negatives vs) : SumsFit vs := by
  intro k _
  have hk := take_sum_le vs k
  exact ⟨hneg.trans hk.1, hk.2.trans_lt hpos⟩

theorem sum_filter_nonneg (column : List EncInt) :
    ((column.filter fun c => 0 ≤ intOf g c).map (intOf g)).sum =
      positives (column.map (intOf g)) := by
  unfold positives
  induction column with
  | nil => rfl
  | cons c column ih =>
    rw [List.filter_cons, List.map_cons, List.map_cons, List.sum_cons, ← ih]
    split_ifs with h
    · rw [List.map_cons, List.sum_cons, max_eq_left (of_decide_eq_true h)]
    · rw [max_eq_right (by simpa using h : intOf g c < 0).le, zero_add]

theorem sum_filter_nonpos (column : List EncInt) :
    ((column.filter fun c => intOf g c ≤ 0).map (intOf g)).sum =
      negatives (column.map (intOf g)) := by
  unfold negatives
  induction column with
  | nil => rfl
  | cons c column ih =>
    rw [List.filter_cons, List.map_cons, List.map_cons, List.sum_cons, ← ih]
    split_ifs with h
    · rw [List.map_cons, List.sum_cons, min_eq_left (of_decide_eq_true h)]
    · rw [min_eq_right (by simpa using h : 0 < intOf g c).le, zero_add]

section Columns

variable {column : List EncInt} {vs : List ℤ}

theorem Column.isInt (h : Column g column vs) : ∀ v ∈ vs, IsInt v := by
  rw [← h.map_intOf]
  simpa using fun c hc => (h.holds c hc).2

/-- The final function of `sum`, on the array of a plan. -/
theorem Column.simulates_sumBulk (h : Column g column vs) (hne : column ≠ [])
    (stack : ℕ → Bytes Num.int.size) :
    Simulates (CarriesInt g) (encInt4SumBulk g F stack column)
      (if SumsFit vs then some vs.sum else none) := by
  have hne' : vs ≠ [] := by
    rintro rfl
    exact hne (List.forall₂_nil_right_iff.1 h)
  have harray : List.Forall₂ (Carries g) column (vs.map intBytes) :=
    List.forall₂_map_right_iff.2 (h.imp fun _ _ hc => hc.1)
  intro c
  have hsum := Udf.simulates_sumBulk (n := .int) (F := F) harray stack c
  rw [windowedSum_int vs hne' h.isInt] at hsum
  split_ifs at hsum ⊢ with hfit
  · obtain ⟨sum, c', hrun, hdec⟩ := hsum
    refine ⟨sum, c', hrun, hdec, ?_⟩
    simpa using hfit vs.length le_rfl
  · exact hsum

/-- Under every plan `sum` returns a ciphertext of the number. -/
def SumsInEveryPlan (A : ArrayFunctions EncInt) (g : Gcm) (F : FloatOps) (column : List EncInt)
    (v : ℤ) : Prop :=
  ∀ parts : List (List EncInt), parts.flatten.Perm column → ∃ array,
    A.aggregated parts = some array ∧ ∀ stack c, ∃ sum c',
      encInt4SumBulk g F stack array c = some (.ok sum, c') ∧ CarriesInt g sum v

/-- A part of the column that is scanned first has a sum that fits. -/
theorem SumsInEveryPlan.isInt {A : ArrayFunctions EncInt} {v : ℤ}
    (hplans : SumsInEveryPlan A g F column v) (h : Column g column vs) (hne : column ≠ [])
    (p : EncInt → Bool) : IsInt ((column.filter p).map (intOf g)).sum := by
  set scanned := column.filter p ++ column.filter (fun c => !p c) with hscanned
  have hperm : scanned.Perm column := List.filter_append_perm p column
  obtain ⟨vs', h', -⟩ := h.perm hperm
  have hne' : scanned ≠ [] := fun hnil => hne (by rw [hnil] at hperm; exact hperm.nil_eq.symm)
  obtain ⟨array, harray, hrun⟩ := hplans [scanned] (by simpa using hperm)
  rw [aggregated_eq_ite, if_neg (by simpa using hne')] at harray
  cases harray
  rw [List.flatten_singleton] at hrun
  have hsim := h'.simulates_sumBulk (F := F) hne' (staleStack .int) .zero
  obtain ⟨sum, c', hok, -⟩ := hrun (staleStack .int) .zero
  have hfit : SumsFit vs' := by
    by_contra hno
    rw [if_neg hno] at hsim
    rw [show encInt4SumBulk g F (staleStack .int) scanned .zero = none from hsim] at hok
    cases hok
  have htake : vs'.take (column.filter p).length = (column.filter p).map (intOf g) := by
    rw [← h'.map_intOf, hscanned, List.map_append, List.take_left' (List.length_map _)]
  rw [← htake]
  refine hfit _ ?_
  rw [← h'.map_intOf, List.length_map, hscanned, List.length_append]
  exact Nat.le_add_right _ _

/-- **`sum` is independent of the plan exactly when the positive values together and the negative
values together fit.** -/
theorem sum_everyPlan_iff (A : ArrayFunctions EncInt) (g : Gcm) (F : FloatOps)
    (column : List EncInt) (vs : List ℤ) (h : Column g column vs) (hne : column ≠ []) :
    SumsInEveryPlan A g F column vs.sum ↔ positives vs < 2 ^ 31 ∧ -2 ^ 31 ≤ negatives vs := by
  constructor
  · intro hplans
    have hpos := hplans.isInt h hne fun c => 0 ≤ intOf g c
    have hneg := hplans.isInt h hne fun c => intOf g c ≤ 0
    rw [sum_filter_nonneg, h.map_intOf] at hpos
    rw [sum_filter_nonpos, h.map_intOf] at hneg
    exact ⟨hpos.2, hneg.1⟩
  · rintro ⟨hpos, hneg⟩ parts hparts
    have hne' : parts.flatten ≠ [] := fun hnil =>
      hne (by rw [hnil] at hparts; exact hparts.nil_eq.symm)
    obtain ⟨vs', h', hperm⟩ := h.perm hparts
    refine ⟨_, (aggregated_eq_ite A parts).trans (if_neg hne'), fun stack c => ?_⟩
    have hfit : SumsFit vs' := by
      refine sumsFit_of_parts ?_ ?_
      · rwa [positives_perm hperm]
      · rwa [negatives_perm hperm]
    have hsim := h'.simulates_sumBulk (F := F) hne' stack c
    rw [if_pos hfit, hperm.sum_eq] at hsim
    exact hsim

/-- The sum of `{2147483647, 1, -1}` fits, and not every plan computes it. -/
theorem sum_everyPlan_iff_overflow : ∃ column, Column .identity column [2147483647, 1, -1] ∧
    ¬ SumsInEveryPlan listArrays .identity .null column 2147483647 := by
  obtain ⟨column, h⟩ := exists_column .identity (by decide : ∀ v ∈ [2147483647, 1, -1], IsInt v)
  have hne : column ≠ [] := by
    rintro rfl
    cases h
  refine ⟨column, h, fun hplans => ?_⟩
  have hfit :=
    (sum_everyPlan_iff listArrays .identity .null column [2147483647, 1, -1] h hne).1 hplans
  exact absurd hfit.1 (by decide)

end Columns

end Udf

end HEDB
