import HEDB.EvalExpr.Syntax
import HEDB.PlainOps.Arithmetic

/-!
# Divisions that end the process

A division of `int`s by zero and that of the least `int` by -1 raise a signal, and the process ends
(`DivFaults`). Where C leaves something else undefined, the compiled code goes on with some value: a
sum that overflows wraps around, a `float` out of range is converted to some `int`. A `Target` is
one such way of going on. The operations on a target agree with those of the model where these are
defined, and they have no result exactly where they divide so (`int32Calc_eq_none_iff`,
`floatCalc_eq_none_iff`).

An expression faults if it comes to a `%` whose operands, as `int`s, cannot be divided
(`evalRun_eq_fault_iff`).
-/

namespace HEDB

open EvalExpr

/-- The quotient of two `int`s does not exist, and the process gets a signal. -/
def DivFaults (a b : ℤ) : Prop := b = 0 ∨ a = -2 ^ 31 ∧ b = -1

instance (a b : ℤ) : Decidable (DivFaults a b) := inferInstanceAs (Decidable (_ ∨ _))

/-- What the compiled code computes where C leaves a value open: overflows, conversions out of range
and variables that have not been initialised. -/
structure Target (F : FloatOps) where
  wrap : ℤ → ℤ
  wrap_of_isInt : ∀ {v}, IsInt v → wrap v = v
  toInt : UInt32 → ℤ
  toInt_of_some : ∀ {x v}, F.toInt x = some v → toInt x = v
  doubleToInt : F.Double → ℤ
  doubleToInt_of_some : ∀ {x v}, F.doubleToInt x = some v → doubleToInt x = v
  junk : Fin exprMaxSize → UInt32

namespace Target

variable {F : FloatOps} (T : Target F)

/-! ## Operations -/

/-- A result of a division. -/
def divided (a b v : ℤ) : Option ℤ := if DivFaults a b then none else some v

/-- `plain_int32_calc` on the target. -/
def int32Calc (reqType left right : ℤ) : Option ℤ :=
  match Cmd.ofCode reqType with
  | some .intPlus => some (T.wrap (left + right))
  | some .intMinus => some (T.wrap (left - right))
  | some .intMult => some (T.wrap (left * right))
  | some .intDiv => divided left right (left.tdiv right)
  | some .intPow => some (T.doubleToInt (F.powDouble (F.doubleOfInt left) (F.doubleOfInt right)))
  | some .intMod => divided left right (left.tmod right)
  | _ => some 0

/-- `plain_float_calc` on the target. -/
def floatCalc (reqType : ℤ) (left right : UInt32) : Option UInt32 :=
  match Cmd.ofCode reqType with
  | some .floatMod =>
    (divided (T.toInt left) (T.toInt right) ((T.toInt left).tmod (T.toInt right))).map fun res =>
      F.narrow (F.doubleOfInt res)
  | _ => plainFloatCalc F reqType left right

/-- `plain_int32_sum_bulk` on the target. -/
def int32SumBulk (array : List ℤ) : ℤ := array.foldl (fun res x => T.wrap (res + x)) 0

/-- A target on which `int`s wrap around and a conversion out of range gives the least `int`. -/
def wrapping (F : FloatOps) : Target F where
  wrap v := v.bmod (2 ^ 32)
  wrap_of_isInt {v} hv := by
    obtain ⟨hlo, hhi⟩ := hv
    exact Int.bmod_eq_of_le (by omega) (by omega)
  toInt x := (F.toInt x).getD (-2 ^ 31)
  toInt_of_some hx := by rw [hx, Option.getD_some]
  doubleToInt x := (F.doubleToInt x).getD (-2 ^ 31)
  doubleToInt_of_some hx := by rw [hx, Option.getD_some]
  junk _ := 0

/-- A running sum that has wrapped around does not change the sum. -/
theorem int32SumBulk_wrapping (vs : List ℤ) :
    (wrapping F).int32SumBulk (vs.map (wrapping F).wrap) = (wrapping F).wrap vs.sum := by
  have hadd : ∀ a b, (wrapping F).wrap ((wrapping F).wrap a + (wrapping F).wrap b) =
      (wrapping F).wrap (a + b) := fun a b => by simp [wrapping]
  have hfold : ∀ a, (vs.map (wrapping F).wrap).foldl (fun res x => (wrapping F).wrap (res + x))
      ((wrapping F).wrap a) = (wrapping F).wrap (a + vs.sum) := by
    induction vs with
    | nil => simp
    | cons v vs ih =>
      intro a
      rw [List.map_cons, List.foldl_cons, hadd, ih, List.sum_cons, add_assoc]
  have hzero : (wrapping F).wrap 0 = 0 := rfl
  rw [int32SumBulk, ← hzero, hfold, zero_add]

theorem divided_eq_none_iff {a b v : ℤ} : divided a b v = none ↔ DivFaults a b := by
  unfold divided
  split_ifs with h <;> simp [h]

theorem modInt_eq (a b : ℤ) : modInt a b = divided a b (a.tmod b) := rfl

theorem wrap_of_checkedInt {v w : ℤ} (h : checkedInt v = some w) : T.wrap v = w := by
  unfold checkedInt at h
  split_ifs at h with hint
  cases h
  exact T.wrap_of_isInt hint

/-- A quotient that the model defines does not fault. -/
theorem divided_of_checkedInt {a b w : ℤ}
    (h : (if b = 0 then none else checkedInt (a.tdiv b)) = some w) :
    divided a b (a.tdiv b) = some w := by
  split_ifs at h with hb
  unfold checkedInt at h
  split_ifs at h with hint
  cases h
  refine if_neg ?_
  rintro (h0 | ⟨rfl, rfl⟩)
  · exact hb h0
  · exact absurd hint (by decide)

/-- **The target computes what the model defines.** -/
theorem int32Calc_of_some {reqType left right v : ℤ}
    (h : plainInt32Calc F reqType left right = some v) :
    T.int32Calc reqType left right = some v := by
  unfold plainInt32Calc at h
  unfold int32Calc
  generalize Cmd.ofCode reqType = cmd at h ⊢
  split at h
  · exact congrArg some (T.wrap_of_checkedInt h)
  · exact congrArg some (T.wrap_of_checkedInt h)
  · exact congrArg some (T.wrap_of_checkedInt h)
  · exact divided_of_checkedInt h
  · exact congrArg some (T.doubleToInt_of_some h)
  · exact h
  · simp_all

theorem floatCalc_of_some {reqType : ℤ} {left right v : UInt32}
    (h : plainFloatCalc F reqType left right = some v) :
    T.floatCalc reqType left right = some v := by
  unfold floatCalc
  split
  · rename_i hcmd
    simp only [plainFloatCalc, hcmd, Option.bind_eq_bind, Option.bind_eq_some_iff] at h
    obtain ⟨a, ha, b, hb, res, hres, hv⟩ := h
    rw [T.toInt_of_some ha, T.toInt_of_some hb, ← modInt_eq, hres]
    exact hv
  · exact h

theorem int32SumBulk_of_some {array : List ℤ} {v : ℤ} (h : plainInt32SumBulk array = some v) :
    T.int32SumBulk array = v := by
  rw [plainInt32SumBulk] at h
  rw [int32SumBulk]
  generalize (0 : ℤ) = a at h ⊢
  induction array generalizing a with
  | nil => exact Option.some.inj h
  | cons x array ih =>
    obtain ⟨b, hb, hrest⟩ := Option.bind_eq_some_iff.1 h
    rw [List.foldl_cons, T.wrap_of_checkedInt hb]
    exact ih b hrest

/-- **The operations on `int` that end the process.** -/
theorem int32Calc_eq_none_iff {reqType left right : ℤ} :
    T.int32Calc reqType left right = none ↔
      (Cmd.ofCode reqType = some .intDiv ∨ Cmd.ofCode reqType = some .intMod) ∧
        DivFaults left right := by
  unfold int32Calc
  split <;> simp_all [divided_eq_none_iff]

/-- **The operations on `float` that end the process.** -/
theorem floatCalc_eq_none_iff {reqType : ℤ} {left right : UInt32} :
    T.floatCalc reqType left right = none ↔
      Cmd.ofCode reqType = some .floatMod ∧ DivFaults (T.toInt left) (T.toInt right) := by
  unfold floatCalc
  split
  · simp_all [divided_eq_none_iff]
  · rename_i hcmd
    refine iff_of_false ?_ fun h => hcmd h.1
    unfold plainFloatCalc
    split <;> simp_all

/-! ## Expressions -/

/-- The arithmetic of `plain_float_eval_expr` on the target. A remainder that faults is not used. -/
def arith : Arith UInt32 where
  neg := F.neg
  add := F.add
  sub := F.sub
  mul := F.mul
  div := F.div
  mod x y := F.ofInt ((T.toInt x).tmod (T.toInt y))
  pow x y := F.narrow (F.powDouble (F.widen x) (F.widen y))

/-- The byte is a `%` whose operands fault. -/
def ByteFaults (c : ℤ) : List UInt32 → Prop
  | op1 :: op2 :: _ => c = code '%' ∧ DivFaults (T.toInt op2) (T.toInt op1)
  | _ => False

instance decidableByteFaults (c : ℤ) : (stack : List UInt32) → Decidable (T.ByteFaults c stack)
  | [] => isFalse id
  | [_] => isFalse id
  | _ :: _ :: _ => inferInstanceAs (Decidable (_ ∧ _))

/-- How a run of `plain_float_eval_expr` ends: with a value, outside of its arrays, or with a
signal. -/
inductive EvalEnd
  | value (x : UInt32)
  | outside
  | fault
  deriving DecidableEq, Repr

variable (arr : Fin exprMaxSize → UInt32)

/-- `plain_float_eval_expr` on the target. -/
def evalRun : List ℤ → List UInt32 → EvalEnd
  | [], [] => .outside
  | [], x :: _ => .value x
  | c :: cs, stack =>
    if T.ByteFaults c stack then .fault
    else
      match evalByte T.arith arr c stack with
      | none => .outside
      | some stack => evalRun cs stack

/-- The run comes to a `%` whose operands fault. -/
def EvalFaults (expr : List ℤ) (stack : List UInt32) : Prop :=
  ∃ pre post op1 op2 rest, expr = pre ++ code '%' :: post ∧
    evalBytes T.arith arr pre stack = some (op1 :: op2 :: rest) ∧
    DivFaults (T.toInt op2) (T.toInt op1)

variable {T arr}

theorem byteFaults_iff {c : ℤ} {stack : List UInt32} : T.ByteFaults c stack ↔
    c = code '%' ∧ ∃ op1 op2 rest, stack = op1 :: op2 :: rest ∧
      DivFaults (T.toInt op2) (T.toInt op1) := by
  match stack with
  | [] => simp [ByteFaults]
  | [_] => simp [ByteFaults]
  | op1 :: op2 :: rest => simp [ByteFaults]

/-- **A run ends with a signal** exactly when it comes to a `%` whose operands fault. -/
theorem evalRun_eq_fault_iff {expr : List ℤ} {stack : List UInt32} :
    T.evalRun arr expr stack = .fault ↔ T.EvalFaults arr expr stack := by
  induction expr generalizing stack with
  | nil =>
    refine iff_of_false ?_ ?_
    · cases stack <;> simp [evalRun]
    · rintro ⟨pre, post, -, -, -, hexpr, -⟩
      cases pre <;> cases hexpr
  | cons c cs ih =>
    rw [evalRun]
    split_ifs with hbyte
    · obtain ⟨rfl, op1, op2, rest, rfl, hdiv⟩ := byteFaults_iff.mp hbyte
      exact iff_of_true rfl ⟨[], cs, op1, op2, rest, rfl, rfl, hdiv⟩
    · constructor
      · intro hrun
        cases hstep : evalByte T.arith arr c stack with
        | none =>
          rw [hstep] at hrun
          cases hrun
        | some stack' =>
          rw [hstep] at hrun
          obtain ⟨pre, post, op1, op2, rest, rfl, hpre, hdiv⟩ := ih.mp hrun
          exact ⟨c :: pre, post, op1, op2, rest, rfl, by rw [evalBytes, hstep]; exact hpre, hdiv⟩
      · rintro ⟨pre, post, op1, op2, rest, hexpr, hpre, hdiv⟩
        cases pre with
        | nil =>
          cases hexpr
          cases hpre
          exact absurd (byteFaults_iff.mpr ⟨rfl, op1, op2, rest, rfl, hdiv⟩) hbyte
        | cons d pre =>
          cases hexpr
          rw [evalBytes] at hpre
          cases hstep : evalByte T.arith arr c stack with
          | none =>
            rw [hstep] at hpre
            cases hpre
          | some stack' =>
            rw [hstep] at hpre
            exact ih.mpr ⟨pre, post, op1, op2, rest, rfl, hpre, hdiv⟩

/-! ## The model of expressions -/

section Model

variable {args : Fin exprMaxSize → Option UInt32} {c : ℤ} {expr : List ℤ}
  {stack stack' : List (Option UInt32)} {xs : List UInt32}

/-- The target has the value, if the model has one. -/
def Holds (o : Option UInt32) (x : UInt32) : Prop := ∀ v, o = some v → x = v

theorem eq_code_of_ofNat {ch : Char} (hc : ¬ 0 < c) (h : Char.ofNat (-c).toNat = ch)
    (hch : ch ≠ Char.ofNat 0) : c = code ch := by
  by_cases hv : (-c).toNat.isValidChar
  · have hnat : (Char.ofNat (-c).toNat).toNat = (-c).toNat := by
      rw [Char.ofNat, dif_pos hv]
      rfl
    rw [h] at hnat
    rw [code]
    omega
  · rw [Char.ofNat, dif_neg hv] at h
    exact absurd h.symm hch

/-- Remainders that the model defines do not fault. -/
theorem not_divFaults_of_mod {o₁ o₂ : Option UInt32} {x₁ x₂ : UInt32} (h₁ : Holds o₁ x₁)
    (h₂ : Holds o₂ x₂) (h : (floatArith F).mod o₂ o₁ ≠ none) :
    ¬ DivFaults (T.toInt x₂) (T.toInt x₁) ∧
      Holds ((floatArith F).mod o₂ o₁) (T.arith.mod x₂ x₁) := by
  obtain ⟨w, hw⟩ := Option.ne_none_iff_exists'.mp h
  have hw' := hw
  simp only [floatArith, Option.bind_eq_bind, Option.bind_eq_some_iff] at hw'
  obtain ⟨a₂, rfl, b₂, hb₂, a₁, rfl, b₁, hb₁, res, hres, hv⟩ := hw'
  obtain rfl := h₁ _ rfl
  obtain rfl := h₂ _ rfl
  rw [modInt_eq, divided] at hres
  split_ifs at hres with hdiv
  cases hres
  rw [T.toInt_of_some hb₂, T.toInt_of_some hb₁]
  refine ⟨hdiv, fun v hv' => ?_⟩
  rw [hw] at hv'
  cases hv'
  cases hv
  show F.ofInt _ = _
  rw [T.toInt_of_some hb₂, T.toInt_of_some hb₁]

/-- The operators on operands that agree. -/
theorem holds_applyOp {ch : Char} {o₁ o₂ : Option UInt32} {x₁ x₂ : UInt32} (h₁ : Holds o₁ x₁)
    (h₂ : Holds o₂ x₂) (hmod : ch = '%' → (floatArith F).mod o₂ o₁ ≠ none) :
    Holds (applyOp (floatArith F) ch o₁ o₂) (applyOp T.arith ch x₁ x₂) := by
  have hlift : ∀ (f : UInt32 → UInt32 → UInt32) {p q : Option UInt32} {y z : UInt32},
      Holds p y → Holds q z → Holds (do some (f (← p) (← q))) (f y z) := by
    intro f p q y z hp hq v hv
    simp only [Option.bind_eq_bind, Option.bind_eq_some_iff] at hv
    obtain ⟨a, rfl, b, rfl, hv⟩ := hv
    cases hv
    rw [hp _ rfl, hq _ rfl]
  unfold applyOp
  split_ifs with hadd hsub hmul hdiv hm hpow
  · exact hlift _ h₁ h₂
  · exact hlift _ h₂ h₁
  · exact hlift _ h₂ h₁
  · exact hlift _ h₂ h₁
  · exact (not_divFaults_of_mod h₁ h₂ (hmod hm)).2
  · exact hlift _ h₂ h₁
  · exact h₂

/-- One byte, on stacks that agree. -/
theorem holds_evalByte (hargs : ∀ i, Holds (args i) (arr i))
    (hstep : floatEvalByte F args c stack = some stack') (hstack : List.Forall₂ Holds stack xs) :
    ¬ T.ByteFaults c xs ∧
      ∃ xs', evalByte T.arith arr c xs = some xs' ∧ List.Forall₂ Holds stack' xs' := by
  obtain ⟨st, hst, hguard⟩ := Option.bind_eq_some_iff.mp hstep
  split_ifs at hguard with hmod
  cases hguard
  have hlen := hstack.length_eq
  unfold evalByte at hst ⊢
  by_cases hpos : 0 < c
  · have hbyte : ¬ T.ByteFaults c xs := by
      rw [byteFaults_iff]
      rintro ⟨rfl, -⟩
      exact absurd hpos (by decide)
    rw [if_pos hpos] at hst ⊢
    split_ifs at hst with hc hroom
    cases hst
    rw [dif_pos hc, if_pos (hlen ▸ hroom)]
    exact ⟨hbyte, _, rfl, .cons (hargs _) hstack⟩
  rw [if_neg hpos] at hst ⊢
  by_cases hneg : Char.ofNat (-c).toNat = '#'
  · have hbyte : ¬ T.ByteFaults c xs := by
      rw [byteFaults_iff]
      rintro ⟨rfl, -⟩
      exact absurd hneg (by decide)
    rw [if_pos hneg] at hst ⊢
    cases hstack with
    | nil => cases hst
    | cons hx hrest =>
      cases hst
      refine ⟨hbyte, _, rfl, .cons (fun v hv => ?_) hrest⟩
      obtain ⟨a, rfl, rfl⟩ := Option.map_eq_some_iff.mp hv
      exact congrArg F.neg (hx _ rfl)
  · rw [if_neg hneg] at hst ⊢
    match stack, xs, hstack with
    | [], _, .nil => cases hst
    | [_], _, .cons _ .nil => cases hst
    | o₁ :: o₂ :: st, x₁ :: x₂ :: ys, .cons h₁ (.cons h₂ hrest) =>
      cases hst
      have hdef : Char.ofNat (-c).toNat = '%' → (floatArith F).mod o₂ o₁ ≠ none := by
        intro hch hnone
        refine hmod ⟨eq_code_of_ofNat hpos hch (by decide), ?_⟩
        rw [List.head?_cons, hch]
        exact congrArg some hnone
      refine ⟨?_, _, rfl, .cons (holds_applyOp h₁ h₂ hdef) hrest⟩
      rw [byteFaults_iff]
      rintro ⟨rfl, y₁, y₂, zs, hys, hdiv⟩
      cases hys
      exact (not_divFaults_of_mod h₁ h₂ (hdef (by decide))).1 hdiv

theorem holds_floatEvalBytes (hargs : ∀ i, Holds (args i) (arr i))
    (h : floatEvalBytes F args expr stack = some stack') (hstack : List.Forall₂ Holds stack xs)
    {v : UInt32} (hv : stack'.head? = some (some v)) : T.evalRun arr expr xs = .value v := by
  induction expr generalizing stack xs with
  | nil =>
    cases h
    cases hstack with
    | nil => cases hv
    | cons hx _ =>
      rw [List.head?_cons, Option.some_inj] at hv
      rw [evalRun, hx _ hv]
  | cons c cs ih =>
    obtain ⟨st, hst, hrest⟩ := Option.bind_eq_some_iff.mp h
    obtain ⟨hbyte, ys, hys, hholds⟩ := holds_evalByte (T := T) hargs hst hstack
    rw [evalRun, if_neg hbyte, hys]
    exact ih hrest hholds

/-- **An expression that has a value in the model has it on every target.** -/
theorem evalRun_of_some (hargs : ∀ i, Holds (args i) (arr i)) {v : UInt32}
    (h : plainFloatEvalExpr F expr args = some v) : T.evalRun arr expr [] = .value v := by
  rw [plainFloatEvalExpr, Option.join_eq_some_iff] at h
  obtain ⟨st, hst, hhead⟩ := Option.bind_eq_some_iff.mp h
  exact holds_floatEvalBytes hargs hst .nil hhead

end Model

end Target

end HEDB
