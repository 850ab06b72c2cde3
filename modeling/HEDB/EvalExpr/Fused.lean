import HEDB.EvalExpr.OnServer
import HEDB.PlainOps.Ieee

/-!
# Expressions in one call

`enc_float4_eval_expr` sends a whole expression in one request, where the operators of `enc_float4`
send one request each. A single operator takes its result through a `double`, which the child does
not do when it evaluates a string.

For every expression that the compiler reads right, the one call returns a ciphertext of the float
that the operators give, one by one, and goes wrong when they do (`fused_agrees`). Only the bits of
a NaN may differ: the child adds its operands the other way round.
-/

namespace HEDB

namespace EvalExpr

open Udf

/-! ## The functions -/

section Functions

variable (g : Gcm) (F : FloatOps)

/-- The request of an operator. -/
def Op.calcOp : Op → CalcOp
  | .add => .plus
  | .sub => .minus
  | .mul => .mult
  | .div => .div
  | .mod => .mod
  | .pow => .pow

/-- An operator in a request of its own. -/
def Op.onRequest (op : Op) : UInt32 → UInt32 → Option UInt32 :=
  plainFloatCalc F (Num.float.calcCmd op.calcOp).code

/-- `enc_float4_eval_expr`. There is room for `EXPR_MAX_SIZE` arguments, and a text that
`convert_expr` does not accept ends the process. -/
def encFloat4EvalExpr (text : List Char) (args : List EncFloat) : Sends EncFloat := do
  let bs ← orWrong (convertExpr (removeSpace text))
  if h : (postfixBytes bs).length ≤ stringLength ∧ args.length ≤ exprMaxSize then
    callNum g F .float (.evalExpr args ⟨postfixBytes bs, h.1⟩ h.2)
  else orWrong none

/-- The function of an operator. -/
def Op.function : Op → EncFloat → EncFloat → Sends EncFloat
  | .add => encFloat4Add g F
  | .sub => encFloat4Subs g F
  | .mul => encFloat4Mult g F
  | .div => encFloat4Div g F
  | .mod => encFloat4Mod g F
  | .pow => encFloat4Exp g F

/-- The expression in SQL, over the columns `args`: the operands from left to right, and one call
for each operator. There is no negation. -/
def Expr.inSql (args : List EncFloat) : Expr → Sends EncFloat
  | index i => orWrong args[i.val]?
  | paren e => e.inSql args
  | neg _ => orWrong none
  | bin op l r => do op.function g F (← l.inSql args) (← r.inSql args)

end Functions

/-- There is no unary minus, for which `enc_float4` has no function. -/
def Expr.NegFree : Expr → Prop
  | index _ => True
  | paren e => e.NegFree
  | neg _ => False
  | bin _ l r => l.NegFree ∧ r.NegFree

theorem Expr.NegFree.negAlone {e : Expr} (h : e.NegFree) (group : Bool) : e.NegAlone group := by
  induction e generalizing group with
  | index => trivial
  | paren e ih => exact ih h true
  | neg => exact h.elim
  | bin op l r ihl ihr => exact ⟨ihl h.1 false, ihr h.2 false⟩

variable {g : Gcm} {F : FloatOps}

/-! ## The two ways -/

section Simulations

variable {args : List EncFloat} {xs : List UInt32} {e : Expr} {text : List Char}

/-- A ciphertext and the `float` in it. -/
def CarriesFloat (g : Gcm) (c : EncFloat) (x : UInt32) : Prop := Carries g c (floatBytes x)

/-- **One call computes the expression on the stack of the child.** -/
theorem simulates_encFloat4EvalExpr (hprint : removeSpace text = e.print) (hwf : e.WellFormed)
    (hneg : e.NegAlone true) (hminus : e.MinusAfterIndex) (hd : e.opDepth ≤ exprStackMaxSize)
    (hsize : e.bytes.length < exprStackMaxSize) (hle : args.length ≤ exprMaxSize)
    (hargs : List.Forall₂ (CarriesFloat g) args xs) (hidx : e.Below xs.length) :
    Simulates (CarriesFloat g) (encFloat4EvalExpr g F text args)
      (e.value F (Op.onStack F) xs) := by
  have hstr : (postfixBytes e.bytes).length ≤ stringLength := by
    rw [postfixBytes, List.length_map]
    simp only [exprStackMaxSize, stringLength] at hsize ⊢
    omega
  have hcall : encFloat4EvalExpr g F text args =
      callNum g F .float (.evalExpr args ⟨postfixBytes e.bytes, hstr⟩ hle) := by
    rw [encFloat4EvalExpr, hprint, convertExpr_print hwf hneg hminus hd hsize]
    exact dif_pos ⟨hstr, hle⟩
  have hholds : List.Forall₂ (Carries g) args (xs.map floatBytes) :=
    List.forall₂_map_right_iff.2 hargs
  rw [hcall]
  intro c
  have hin := in_sent (.evalExpr args ⟨postfixBytes e.bytes, hstr⟩ hle) c.process
  cases hx : e.value F (Op.onStack F) xs with
  | none =>
    refine callNum_none ?_
    have hexpr := encFloat32EvalExpr_eq (F := F) hin hholds hidx rfl hsize
    rw [hx, Option.bind_none] at hexpr
    simp only [handleCmd_eq, operation, hexpr]
    rfl
  | some x =>
    obtain ⟨v, c', hcall, hv, -⟩ := callNum_ok (n := .float) (c := c)
      (answers_evalExpr hin hholds hidx rfl hsize hx) fun _ => Mem.length_read ..
    exact ⟨v, c', hcall, hv⟩

theorem simulates_function (op : Op) {left right : EncFloat} {x y : UInt32}
    (hl : CarriesFloat g left x) (hr : CarriesFloat g right y) :
    Simulates (CarriesFloat g) (op.function g F left right) (op.onRequest F x y) := by
  have hcalc := simulates_encCalc (n := .float) (F := F) hl hr op.calcOp
  rw [plainCalc, bytesFloat_floatBytes, bytesFloat_floatBytes, simulates_map] at hcalc
  cases op <;> exact hcalc

/-- **The functions of the operators compute the expression one request at a time.** -/
theorem simulates_inSql (hargs : List.Forall₂ (CarriesFloat g) args xs) (hneg : e.NegFree) :
    Simulates (CarriesFloat g) (e.inSql g F args) (e.value F (Op.onRequest F) xs) := by
  induction e with
  | index i => exact simulates_orWrong (rel_getElem? hargs i.val)
  | paren e ih => exact ih hneg
  | neg e _ => exact hneg.elim
  | bin op l r ihl ihr =>
    refine (ihl hneg.1).bind fun left x hl => ?_
    refine (ihr hneg.2).bind fun right y hr => ?_
    exact simulates_function op hl hr

end Simulations

/-! ## They agree -/

/-- Equal floats, or two NaN. -/
def Alike (NaN : UInt32 → Prop) (x y : UInt32) : Prop := x = y ∨ NaN x ∧ NaN y

/-- The rules of arithmetic on `float`. They do not look into a NaN. -/
structure FloatRules (F : FloatOps) where
  NaN : UInt32 → Prop
  nan_of_nan : ∀ op ∈ [F.add, F.sub, F.mul, F.div], ∀ x y, NaN x ∨ NaN y → NaN (op x y)
  add_comm : ∀ x y, Alike NaN (F.add y x) (F.add x y)
  toInt_nan : ∀ x, NaN x → F.toInt x = none
  isInt_toInt : ∀ x v, F.toInt x = some v → IsInt v
  /-- A `double` stores every `float`. -/
  narrow_widen : ∀ x, Alike NaN (F.narrow (F.widen x)) x
  /-- A `double` stores every `int`. -/
  narrow_doubleOfInt : ∀ v, IsInt v → F.narrow (F.doubleOfInt v) = F.ofInt v
  narrow_pow : ∀ x x' y y', Alike NaN x x' → Alike NaN y y' →
    Alike NaN (F.narrow (F.powDouble (F.widen x) (F.widen y)))
      (F.narrow (F.powDouble (F.widen x') (F.widen y')))

section Alike

variable {NaN : UInt32 → Prop} {x x' y y' z : UInt32}

theorem Alike.trans (h₁ : Alike NaN x y) (h₂ : Alike NaN y z) : Alike NaN x z := by
  rcases h₁ with rfl | ⟨hx, hy⟩
  · exact h₂
  · rcases h₂ with rfl | ⟨-, hz⟩
    · exact .inr ⟨hx, hy⟩
    · exact .inr ⟨hx, hz⟩

theorem Alike.symm (h : Alike NaN x y) : Alike NaN y x := h.imp Eq.symm And.symm

/-- An operation that returns NaN for NaN. -/
theorem Alike.congr {op : UInt32 → UInt32 → UInt32} (hop : ∀ x y, NaN x ∨ NaN y → NaN (op x y))
    (hx : Alike NaN x x') (hy : Alike NaN y y') : Alike NaN (op x y) (op x' y') := by
  rcases hx with rfl | ⟨hx, hx'⟩
  · rcases hy with rfl | ⟨hy, hy'⟩
    · exact .inl rfl
    · exact .inr ⟨hop _ _ (.inr hy), hop _ _ (.inr hy')⟩
  · exact .inr ⟨hop _ _ (.inl hx), hop _ _ (.inl hx')⟩

end Alike

theorem isInt_tmod {left : ℤ} (h : IsInt left) (right : ℤ) : IsInt (left.tmod right) := by
  have hnat : (left.tmod right).natAbs ≤ left.natAbs := by
    rw [Int.natAbs_tmod]
    exact Nat.mod_le _ _
  rcases le_total 0 left with hleft | hleft
  · have := Int.tmod_nonneg right hleft
    unfold IsInt at h ⊢
    omega
  · have := Int.tmod_nonneg right (neg_nonneg.2 hleft)
    rw [Int.neg_tmod] at this
    unfold IsInt at h ⊢
    omega

section Agreement

variable (L : FloatRules F) {x x' y y' : UInt32} {xs : List UInt32}

theorem rel_toInt (h : Alike L.NaN x x') : F.toInt x = F.toInt x' := by
  rcases h with rfl | ⟨hx, hx'⟩
  · rfl
  · rw [L.toInt_nan x hx, L.toInt_nan x' hx']

/-- An operator on the stack and in a request of its own. -/
theorem rel_onStack_onRequest (op : Op) (hx : Alike L.NaN x x') (hy : Alike L.NaN y y') :
    Option.Rel (Alike L.NaN) (op.onStack F x y) (op.onRequest F x' y') := by
  have hthrough : ∀ f ∈ [F.add, F.sub, F.mul, F.div],
      Alike L.NaN (f x y) (F.narrow (F.widen (f x' y'))) := fun f hf =>
    (Alike.congr (L.nan_of_nan f hf) hx hy).trans (L.narrow_widen _).symm
  cases op with
  | add => exact .some ((L.add_comm x y).trans (hthrough F.add (by simp)))
  | sub => exact .some (hthrough F.sub (by simp))
  | mul => exact .some (hthrough F.mul (by simp))
  | div => exact .some (hthrough F.div (by simp))
  | pow => exact .some (L.narrow_pow _ _ _ _ hx hy)
  | mod =>
    show Option.Rel _
      ((F.toInt x).bind fun v => (F.toInt y).bind fun w => (modInt v w).bind fun res => _)
      ((F.toInt x').bind fun v => (F.toInt y').bind fun w => (modInt v w).bind fun res => _)
    rw [rel_toInt L hx, rel_toInt L hy]
    cases hv : F.toInt x' with
    | none => exact .none
    | some v =>
      rw [Option.bind_some, Option.bind_some]
      refine rel_bind (rel_refl (R := Eq) (fun _ => rfl) (F.toInt y')) ?_
      rintro w _ rfl
      have hres := isInt_tmod (L.isInt_toInt x' v hv) w
      simp only [modInt]
      split_ifs
      · exact .none
      · exact .some (.inl (L.narrow_doubleOfInt _ hres).symm)

theorem rel_value (e : Expr) (hneg : e.NegFree) :
    Option.Rel (Alike L.NaN) (e.value F (Op.onStack F) xs) (e.value F (Op.onRequest F) xs) := by
  induction e with
  | index i =>
    exact rel_refl (fun x => .inl rfl) _
  | paren e ih => exact ih hneg
  | neg e _ => exact hneg.elim
  | bin op l r ihl ihr =>
    refine rel_bind (ihl hneg.1) fun x x' hx => ?_
    refine rel_bind (ihr hneg.2) fun y y' hy => ?_
    exact rel_onStack_onRequest L op hx hy

end Agreement

/-- **An expression in one call agrees with its operators one by one.** They are undefined together,
or return ciphertexts of the same float. -/
theorem fused_agrees (g : Gcm) (F : FloatOps) (L : FloatRules F) (text : List Char) (e : Expr)
    (args : List EncFloat) (xs : List UInt32) (hprint : removeSpace text = e.print)
    (hwf : e.WellFormed) (hneg : e.NegFree) (hminus : e.MinusAfterIndex)
    (hd : e.opDepth ≤ exprStackMaxSize) (hsize : e.bytes.length < exprStackMaxSize)
    (hle : args.length ≤ exprMaxSize) (hargs : List.Forall₂ (CarriesFloat g) args xs)
    (hidx : e.Below args.length) (c c' : Client) :
    (e.value F (Op.onRequest F) xs = none →
      encFloat4EvalExpr g F text args c = none ∧ e.inSql g F args c' = none) ∧
    ∀ x', e.value F (Op.onRequest F) xs = some x' → ∃ v d v' d' x,
      encFloat4EvalExpr g F text args c = some (.ok v, d) ∧
      e.inSql g F args c' = some (.ok v', d') ∧ CarriesFloat g v x ∧ CarriesFloat g v' x' ∧
      Alike L.NaN x x' :=
  (simulates_encFloat4EvalExpr hprint hwf (hneg.negAlone true) hminus hd hsize hle hargs
    (hargs.length_eq ▸ hidx)).agree (simulates_inSql hargs hneg) (rel_value L e hneg) c c'

/-- The rules hold in binary32. -/
def ieeeRules : FloatRules FloatOps.ieee where
  NaN := Binary32.IsNaN
  nan_of_nan op hop x y h := by
    obtain ⟨hadd, hsub, hmul, hdiv⟩ := Binary32.isNaN_op h
    simp only [List.mem_cons, List.not_mem_nil, or_false] at hop
    rcases hop with rfl | rfl | rfl | rfl <;> assumption
  add_comm x y := .inl (congrArg Binary32.narrow (Binary32.Wide.add_comm _ _))
  toInt_nan x hx := by
    show (Binary32.wide x).truncate.bind checkedInt = none
    rw [Binary32.wide_eq_nan_iff.2 hx]
    rfl
  isInt_toInt x v h := by
    obtain ⟨w, -, hw⟩ := Option.bind_eq_some_iff.1 h
    exact isInt_of_checkedInt hw
  narrow_widen x := by
    by_cases hx : Binary32.IsNaN x
    · refine .inr ⟨?_, hx⟩
      show Binary32.IsNaN (Binary32.narrow (Binary32.wide x))
      rw [Binary32.wide_eq_nan_iff.2 hx]
      exact Binary32.isNaN_quietNaN
    · exact .inl (Binary32.narrow_wide hx)
  narrow_doubleOfInt _ _ := rfl
  narrow_pow _ _ _ _ _ _ := .inl rfl

/-- `1 + 2 * (1 - 2)` over `{5, 3}` is 11. -/
theorem fused_agrees_eleven : ∃ (e : Expr) (args : List EncFloat) (v v' : EncFloat)
    (d d' : Client), e.print = "1+2*(1-2)".toList ∧
    List.Forall₂ (CarriesFloat .identity) args [0x40a00000, 0x40400000] ∧
    encFloat4EvalExpr .identity .ieee "1 + 2 * (1 - 2)".toList args .zero = some (.ok v, d) ∧
    e.inSql .identity .ieee args .zero = some (.ok v', d') ∧
    CarriesFloat .identity v 0x41300000 ∧ CarriesFloat .identity v' 0x41300000 := by
  obtain ⟨a, ha⟩ := exists_cipher_float .identity 0x40a00000
  obtain ⟨b, hb⟩ := exists_cipher_float .identity 0x40400000
  let one : Expr := .index ⟨0, by decide⟩
  let two : Expr := .index ⟨1, by decide⟩
  let e : Expr := .bin .add one (.bin .mul two (.paren (.bin .sub one two)))
  have hargs : List.Forall₂ (CarriesFloat .identity) [a, b] [0x40a00000, 0x40400000] :=
    .cons ha (.cons hb .nil)
  have hvalue : e.value .ieee (Op.onRequest .ieee) [0x40a00000, 0x40400000] = some 0x41300000 := by
    decide +kernel
  obtain ⟨v, d, v', d', x, hcall, hsql, hv, hv', hx⟩ :=
    (fused_agrees .identity .ieee ieeeRules "1 + 2 * (1 - 2)".toList e [a, b]
      [0x40a00000, 0x40400000] (by decide) (by decide) (by simp [e, one, two, Expr.NegFree])
      (by decide) (by decide) (by decide) (show 2 ≤ 8 by decide) hargs
      (by simp [e, one, two, Expr.Below]) .zero .zero).2 0x41300000 hvalue
  obtain rfl : x = 0x41300000 := hx.resolve_right fun h =>
    absurd (show Binary32.IsNaN 0x41300000 from h.2) (by decide)
  exact ⟨e, [a, b], v, v', d, d', by decide, hargs, hcall, hsql, hv, hv'⟩

end EvalExpr

end HEDB
