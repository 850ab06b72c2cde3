import HEDB.EvalExpr.Compile

/-!
# Where the compiler is wrong

A binary minus directly after a closing parenthesis is read as a unary minus, and the expression
then loses a binary operator for good. Three facts make this visible in the result:

* the compiler neither loses nor invents binary operators, the ones that it misreads apart
  (`convertLoop_weight`);
* on a carrier where the operators count themselves, the evaluator returns no more than the number
  of binary operators in its string (`sum_le_of_evalBytes`);
* on the same carrier the value of an expression is the number of its binary operators
  (`Expr.eval_tally`).

The other limit is `op_stack`: an expression that needs more entries than it has is written past its
end (`convertLoop_overflow`).
-/

namespace HEDB

namespace EvalExpr

/-! ## The binary operators of the compiler -/

/-- The evaluator takes the byte for a binary operator. -/
def isBinaryByte (b : ℤ) : Bool := b ≤ 0 ∧ Char.ofNat (-b).toNat ≠ '#'

/-- A character on `op_stack` that stands for a binary operator. -/
def isBinaryChar (c : Char) : Bool := c ≠ '#' ∧ c ≠ '('

theorem isBinaryByte_code {c : Char} (hc : c ≠ '(') : isBinaryByte (code c) = isBinaryChar c := by
  simp [isBinaryByte, isBinaryChar, hc, code, Char.ofNat_toNat]

/-- The binary operators that have been read. -/
def weight (ops : List Char) (out : List ℤ) : ℕ :=
  out.countP isBinaryByte + ops.countP isBinaryChar

theorem weight_out {c : Char} (hc : c ≠ '(') (ops : List Char) (out : List ℤ) :
    weight ops (out ++ [code c]) = weight (c :: ops) out := by
  simp only [weight, List.countP_append, List.countP_cons, List.countP_nil, isBinaryByte_code hc]
  omega

theorem weight_popOps (c : Char) (ops : List Char) (out : List ℤ) :
    weight (popOps c ops out).1 (popOps c ops out).2 = weight ops out := by
  induction ops generalizing out with
  | nil => rfl
  | cons top ops ih =>
    unfold popOps
    split_ifs with h
    · rw [ih, weight_out h.1]
    · rfl

theorem weight_popParen {ops ops' : List Char} {out out' : List ℤ}
    (h : popParen ops out = some (ops', out')) : weight ops' out' = weight ops out := by
  induction ops generalizing out with
  | nil => cases h
  | cons top ops ih =>
    unfold popParen at h
    split_ifs at h with htop
    · cases h
      simp [weight, htop, isBinaryChar]
    · rw [ih h, weight_out htop]

theorem countP_popAll {ops : List Char} {out out' : List ℤ} (h : popAll ops out = some out') :
    out'.countP isBinaryByte = weight ops out := by
  induction ops generalizing out with
  | nil =>
    cases h
    rfl
  | cons top ops ih =>
    unfold popAll at h
    split_ifs at h with htop
    rw [ih h, weight_out htop]

namespace Expr

def binops : Expr → ℕ
  | index _ => 0
  | paren e => e.binops
  | neg e => e.binops
  | bin _ l r => l.binops + r.binops + 1

/-- The binary minuses directly after a closing parenthesis. -/
def misreads : Expr → ℕ
  | index _ => 0
  | paren e => e.misreads
  | neg e => e.misreads
  | bin op l r => l.misreads + r.misreads + if op = .sub ∧ l.endsIndex = false then 1 else 0

theorem minusAfterIndex_of_misreads {e : Expr} (h : e.misreads = 0) : e.MinusAfterIndex := by
  induction e with
  | index i => trivial
  | paren e ih => exact ih h
  | neg e ih => exact ih h
  | bin op l r ihl ihr =>
    simp only [misreads, Nat.add_eq_zero_iff] at h
    obtain ⟨⟨hl, hr⟩, hop⟩ := h
    refine ⟨ihl hl, ihr hr, fun hsub => ?_⟩
    by_contra hne
    rw [if_pos ⟨hsub, Bool.eq_false_iff.2 hne⟩] at hop
    exact one_ne_zero hop

end Expr

open EvalExpr.Expr

/-- An operator character adds one binary operator, a misread minus none. -/
theorem weight_convertChar {c : Char} (hc : isOperator c = true) {s s' : Conv}
    (h : convertChar c s = some s') : s'.expectOp = false ∧
      weight s'.ops s'.out + (if c = '-' ∧ s.expectOp = false then 1 else 0) =
        weight s.ops s.out + 1 := by
  have hpop := weight_popOps c s.ops s.out
  simp only [convertChar, hc, if_true, pushOp, Option.map_eq_some_iff] at h
  obtain ⟨ops, hpush, rfl⟩ := h
  split_ifs at hpush with hlen hminus
  · cases hpush
    refine ⟨rfl, ?_⟩
    have hm : c = '-' ∧ s.expectOp = false := ⟨hminus.2, by simpa using hminus.1⟩
    rw [if_pos hm, ← hpop]
    simp [weight, isBinaryChar]
  · cases hpush
    refine ⟨rfl, ?_⟩
    have hm : ¬ (c = '-' ∧ s.expectOp = false) := fun h => hminus ⟨by simp [h.2], h.1⟩
    have hb : isBinaryChar c = true := by
      have hne : c ≠ '#' ∧ c ≠ '(' := by
        constructor
        all_goals
          rintro rfl
          exact absurd hc (by decide)
      simpa [isBinaryChar] using hne
    rw [if_neg hm, ← hpop]
    simp [weight, hb]
    omega

theorem convertLoop_char_some {c : Char} (hc : isDigit c = false) {cs : List Char} {s u : Conv}
    (h : convertLoop (c :: cs) s = some u) :
    ∃ s', convertChar c s = some s' ∧ convertLoop cs s' = some u := by
  rw [convertLoop_char hc] at h
  exact Option.bind_eq_some_iff.1 h

/-- **The binary operators of an expression, without the misread ones, are read.** -/
theorem convertLoop_weight (e : Expr) {s u : Conv} {t : List Char} (hrest : NoDigit t)
    (hs : s.expectOp = false) (h : convertLoop (e.print ++ t) s = some u) :
    ∃ s', convertLoop t s' = some u ∧ s'.expectOp = e.endsIndex ∧
      weight s'.ops s'.out + e.misreads = weight s.ops s.out + e.binops := by
  induction e generalizing s t with
  | index i =>
    rw [convertLoop_index i hrest] at h
    refine ⟨_, h, rfl, ?_⟩
    have hi : isBinaryByte ((i : ℤ) + 1) = false := by
      have hpos : ¬ (i : ℤ) + 1 ≤ 0 := by omega
      simp [isBinaryByte, hpos]
    simp [weight, Expr.bytes, misreads, binops, hi]
  | paren e ih =>
    simp only [print, List.cons_append, List.append_assoc, List.nil_append] at h
    obtain ⟨s₁, hopen, h⟩ := convertLoop_char_some rfl h
    have hs₁ : s₁.expectOp = false ∧ weight s₁.ops s₁.out = weight s.ops s.out := by
      have hlt : s.ops.length < exprStackMaxSize := by
        by_contra hge
        simp [convertChar, isOperator, pushOp_of_le (not_lt.1 hge)] at hopen
      rw [convertChar_open hlt] at hopen
      cases hopen
      simp [weight, isBinaryChar]
    obtain ⟨s₂, h, -, hw⟩ := ih (noDigit_cons rfl _) hs₁.1 h
    obtain ⟨s₃, hclose, h⟩ := convertLoop_char_some rfl h
    simp only [convertChar, isOperator] at hclose
    simp at hclose
    obtain ⟨ops, out, hpop, rfl⟩ := hclose
    refine ⟨_, h, rfl, ?_⟩
    simp only [misreads, binops, weight_popParen hpop]
    omega
  | neg e ih =>
    simp only [print, List.cons_append] at h
    obtain ⟨s₁, hminus, h⟩ := convertLoop_char_some rfl h
    obtain ⟨hs₁, hw₁⟩ := weight_convertChar rfl hminus
    rw [if_pos ⟨rfl, hs⟩] at hw₁
    obtain ⟨s₂, h, hend, hw₂⟩ := ih hrest hs₁ h
    refine ⟨s₂, h, hend, ?_⟩
    simp only [misreads, binops]
    omega
  | bin op l r ihl ihr =>
    simp only [print, List.cons_append, List.append_assoc] at h
    obtain ⟨s₁, h, hend₁, hw₁⟩ := ihl (noDigit_cons op.isDigit_char _) hs h
    obtain ⟨s₂, hop, h⟩ := convertLoop_char_some op.isDigit_char h
    obtain ⟨hs₂, hw₂⟩ := weight_convertChar op.isOperator_char hop
    obtain ⟨s₃, h, hend₃, hw₃⟩ := ihr hrest hs₂ h
    refine ⟨s₃, h, hend₃, ?_⟩
    have hiff : (op.char = '-' ∧ s₁.expectOp = false) ↔ (op = .sub ∧ l.endsIndex = false) := by
      rw [hend₁]
      cases op <;> simp [Op.char]
    simp only [hiff] at hw₂
    simp only [misreads, binops]
    omega

theorem countP_convertExpr {e : Expr} {bs : List ℤ} (h : convertExpr e.print = some bs) :
    bs.countP isBinaryByte + e.misreads ≤ e.binops := by
  simp only [convertExpr, Option.bind_eq_bind, Option.bind_eq_some_iff] at h
  obtain ⟨u, hloop, out, hall, h⟩ := h
  split_ifs at h
  cases h
  obtain ⟨s, hs, -, hw⟩ := convertLoop_weight e (t := []) (by rintro _ ⟨⟩) rfl
    (by rwa [List.append_nil])
  rw [convertLoop] at hs
  cases hs
  have hsub := (List.takeWhile_sublist (fun b : ℤ => decide (b ≠ 0)) (l := out)).countP_le
    (p := isBinaryByte)
  rw [countP_popAll hall] at hsub
  simp only [weight, List.countP_nil] at hw hsub
  omega

/-! ## A carrier that counts -/

/-- A binary operator adds one to the values of its operands. -/
def tally : Arith ℕ where
  neg x := x
  add x y := x + y + 1
  sub x y := x + y + 1
  mul x y := x + y + 1
  div x y := x + y + 1
  mod x y := x + y + 1
  pow x y := x + y + 1

theorem Expr.eval_tally (e : Expr) : e.eval tally (fun _ => 0) = e.binops := by
  induction e with
  | index i => rfl
  | paren e ih => exact ih
  | neg e ih => exact ih
  | bin op l r ihl ihr =>
    rw [eval, ihl, ihr]
    cases op <;> rfl

theorem applyOp_tally (c : Char) (op1 op2 : ℕ) : applyOp tally c op1 op2 ≤ op1 + op2 + 1 := by
  simp only [applyOp, tally]
  split_ifs <;> omega

theorem sum_le_of_evalByte {c : ℤ} {stack stack' : List ℕ}
    (h : evalByte tally (fun _ => 0) c stack = some stack') :
    stack'.sum ≤ stack.sum + [c].countP isBinaryByte := by
  unfold evalByte at h
  split_ifs at h with hpos hidx hlen hneg
  · cases h
    simp
  · cases stack with
    | nil => cases h
    | cons x stack =>
      cases h
      simp [tally]
  · have hb : isBinaryByte c = true := by
      have hle : c ≤ 0 := not_lt.1 hpos
      simp [isBinaryByte, hle, hneg]
    rcases stack with _ | ⟨op1, _ | ⟨op2, stack⟩⟩
    · cases h
    · cases h
    · cases h
      have happ := applyOp_tally (Char.ofNat (-c).toNat) op1 op2
      simp only [List.sum_cons, List.countP_singleton, hb, if_true]
      omega

theorem sum_le_of_evalBytes {cs : List ℤ} {stack stack' : List ℕ}
    (h : evalBytes tally (fun _ => 0) cs stack = some stack') :
    stack'.sum ≤ stack.sum + cs.countP isBinaryByte := by
  induction cs generalizing stack with
  | nil =>
    cases h
    simp
  | cons c cs ih =>
    unfold evalBytes at h
    cases hstep : evalByte tally (fun _ => 0) c stack with
    | none =>
      rw [hstep] at h
      cases h
    | some stack₁ =>
      rw [hstep] at h
      have hhead := sum_le_of_evalByte hstep
      have htail := ih h
      rw [← List.singleton_append, List.countP_append]
      omega

/-- An expression with a misread minus gets a wrong value on the counting carrier. -/
theorem misreads_eq_zero {e : Expr} {text : List Char} (htext : removeSpace text = e.print)
    (h : evalExpr tally text (fun _ => 0) = some (e.eval tally fun _ => 0)) : e.misreads = 0 := by
  rw [evalExpr, htext, eval_tally] at h
  obtain ⟨bs, hconv, heval⟩ := Option.bind_eq_some_iff.1 h
  obtain ⟨stack, hstack, hhead⟩ := Option.bind_eq_some_iff.1 heval
  have hcount := countP_convertExpr hconv
  have hsum := sum_le_of_evalBytes hstack
  have htop := List.single_le_sum (l := stack) (by simp) _ (List.mem_of_head? hhead)
  simp only [List.sum_nil] at hsum
  omega

/-! ## Overflow of the operator stack -/

/-- **An expression that needs more entries than `op_stack` has is not compiled.** -/
theorem convertLoop_overflow (e : Expr) {g : Bool} (hwf : e.WellFormed) (hneg : e.NegAlone g)
    (hminus : e.MinusAfterIndex) {s : Conv} {t : List Char}
    (hb : Blocks s.ops e.level) (hgroup : g = true → GroupStart s)
    (hs : s.ops.length ≤ exprStackMaxSize) (hd : exprStackMaxSize < s.ops.length + e.opDepth) :
    convertLoop (e.print ++ t) s = none := by
  induction e generalizing g s t with
  | index i =>
    simp only [opDepth] at hd
    omega
  | paren e ih =>
    simp only [opDepth] at hd
    simp only [print, List.cons_append, List.append_assoc, List.nil_append]
    rw [convertLoop_char rfl]
    rcases hs.eq_or_lt with hfull | hlt
    · simp [convertChar, isOperator, pushOp_of_le hfull.ge]
    · rw [convertChar_open hlt, Option.bind_some]
      exact ih (g := true) hwf hneg hminus (.inr fun top htop => .inl (Option.some.inj htop).symm)
        (fun _ => ⟨rfl, fun top htop => (Option.some.inj htop).symm⟩)
        (by simp only [List.length_cons]; omega) (by simp only [List.length_cons]; omega)
  | neg e ih =>
    obtain ⟨rfl, hneg⟩ := hneg
    obtain ⟨hatom, hwf⟩ := hwf
    have hlevel : e.level = 3 := by
      cases e <;> first | rfl | exact hatom.elim
    simp only [opDepth] at hd
    rw [print, List.cons_append, convertLoop_char rfl]
    rcases hs.eq_or_lt with hfull | hlt
    · have hpop : popOps '-' s.ops s.out = (s.ops, s.out) :=
        popOps_blocks .sub (.inr fun top htop => .inl ((hgroup rfl).2 top htop)) s.out
      simp [convertChar, isOperator, hpop, pushOp_of_le hfull.ge]
    · rw [convertChar_neg (hgroup rfl) hlt, Option.bind_some]
      exact ih (g := false) hwf hneg hminus (.inl (by omega)) (by rintro ⟨⟩)
        (by simp only [List.length_cons]; omega) (by simp only [List.length_cons]; omega)
  | bin op l r ihl ihr =>
    obtain ⟨hwfl, hwfr, hassoc⟩ := hwf
    obtain ⟨hnegl, hnegr⟩ := hneg
    obtain ⟨hml, hmr, hsub⟩ := hminus
    simp only [opDepth] at hd
    have hbl : Blocks s.ops l.level := hb.mono hassoc.levels.1
    simp only [print, List.cons_append, List.append_assoc]
    by_cases hdl : exprStackMaxSize < s.ops.length + l.opDepth
    · exact ihl (g := false) hwfl hnegl hml hbl (by rintro ⟨⟩) hs hdl
    obtain ⟨pend, o, hloop, hread⟩ := convertLoop_print l (g := false) (s := s)
      (t := op.char :: (r.print ++ t)) hwfl hnegl hml (noDigit_cons op.isDigit_char _) hbl
      (by rintro ⟨⟩) (by omega)
    have hpop := hread.popOps hassoc hb s.out
    rw [hloop, convertLoop_char op.isDigit_char]
    rcases hs.eq_or_lt with hfull | hlt
    · simp [convertChar, op.isOperator_char, hpop, pushOp_of_le hfull.ge]
    · rw [convertChar_op (s := ⟨pend ++ s.ops, s.out ++ o, l.endsIndex⟩) hpop hlt hsub,
        Option.bind_some]
      exact ihr (g := false) hwfr hnegr hmr (hassoc.blocks s.ops) (by rintro ⟨⟩)
        (by simp only [List.length_cons]; omega) (by simp only [List.length_cons]; omega)

theorem opDepth_le {e : Expr} (hwf : e.WellFormed) (hneg : e.NegAlone true)
    (hminus : e.MinusAfterIndex) {bs : List ℤ} (h : convertExpr e.print = some bs) :
    e.opDepth ≤ exprStackMaxSize := by
  by_contra hd
  have hnone := convertLoop_overflow e (s := ⟨[], [], false⟩) (t := []) hwf hneg hminus
    (.inr (by rintro _ ⟨⟩)) (fun _ => ⟨rfl, by rintro _ ⟨⟩⟩) (by simp) (by simpa using hd)
  rw [List.append_nil] at hnone
  simp [convertExpr, hnone] at h

/-! ## When an expression is evaluated right -/

/-- The expression is evaluated right over every carrier with a commutative sum. -/
def Preserved (e : Expr) (text : List Char) : Prop :=
  ∀ (α : Type) (A : Arith α) (arr : Fin exprMaxSize → α), (∀ x y, A.add x y = A.add y x) →
    evalExpr A text arr = some (e.eval A arr)

/-- **An expression is evaluated right if and only if no binary minus follows a closing parenthesis
and the operator stack suffices**, as long as every unary minus is alone in its group. -/
theorem preserved_iff {e : Expr} {text : List Char} (hwf : e.WellFormed) (hneg : e.NegAlone true)
    (hsize : e.bytes.length < exprStackMaxSize) (htext : removeSpace text = e.print) :
    Preserved e text ↔ e.MinusAfterIndex ∧ e.opDepth ≤ exprStackMaxSize := by
  constructor
  · intro h
    have htally := h ℕ tally (fun _ => 0) fun x y => by simp only [tally]; omega
    have hminus := minusAfterIndex_of_misreads (misreads_eq_zero htext htally)
    refine ⟨hminus, ?_⟩
    rw [evalExpr, htext] at htally
    obtain ⟨bs, hconv, -⟩ := Option.bind_eq_some_iff.1 htally
    exact opDepth_le hwf hneg hminus hconv
  · rintro ⟨hminus, hd⟩ α A arr hcomm
    exact evalExpr_of_good hcomm arr hwf hneg hminus hd hsize htext

/-- The argument that the text calls `i + 1`. -/
def arg (i : Fin 8) : Expr := index i

theorem preserved_difference_in_product :
    Preserved (bin .mul (arg 0) (paren (bin .sub (arg 1) (arg 2)))) "1 * (2 - 3)".toList :=
  (preserved_iff (by decide) (by decide) (by decide) (by decide +kernel)).2 (by decide)

/-! ## The expression of Q9 -/

/-- The integers as a carrier. -/
def intArith : Arith ℤ :=
  ⟨Neg.neg, (· + ·), (· - ·), (· * ·), Int.tdiv, Int.tmod, fun x y => x ^ y.toNat⟩

def q9Text : List Char := "(1*(2-3))-(4*5)".toList

def q9Expr : Expr :=
  bin .sub (paren (bin .mul (arg 0) (paren (bin .sub (arg 1) (arg 2)))))
    (paren (bin .mul (arg 3) (arg 4)))

/-- A price, one, a discount, a cost and a quantity. -/
def q9Args : Fin exprMaxSize → ℤ := ![100, 1, 0, 2, 3, 0, 0, 0]

/-- **The profit that Q9 computes is minus the cost.** The minus between the two parentheses is read
as a unary minus, so the value of the first parenthesis stays on the stack. And a unary minus that
is not alone in its group swallows the operators after it: `-1+2` is minus the sum. -/
theorem q9_minus_misread :
    q9Expr.WellFormed ∧ q9Expr.NegAlone true ∧ removeSpace q9Text = q9Expr.print ∧
      q9Expr.bytes.length = 9 ∧
      convertExpr q9Expr.print = some [1, 2, 3, code '-', code '*', 4, 5, code '*', code '#'] ∧
      evalExpr intArith q9Text q9Args = some (-6) ∧ q9Expr.eval intArith q9Args = 94 ∧
      evalExpr intArith "-1+2".toList q9Args = some (-101) ∧
      (bin .add (neg (arg 0)) (arg 1)).eval intArith q9Args = -99 := by
  refine ⟨by decide, by decide, ?_, by decide, ?_, ?_, by decide, ?_, by decide⟩
  all_goals decide +kernel

end EvalExpr

end HEDB
