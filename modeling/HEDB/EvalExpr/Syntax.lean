import HEDB.EvalExpr.Model

/-!
# Expressions

The expressions of the source language: argument indices, parentheses, six binary operators, and a
unary minus in front of an index or a parenthesised expression. A tree carries its parentheses, and
`WellFormed` says that it is the tree that the usual precedences give to its text: `+ - * / %`
associate to the left and `^` to the right.

* `Expr.eval` is the direct recursive evaluation.
* `Expr.bytes` is the postfix form, and the evaluator computes the value from it
  (`evalBytes_bytes`).
-/

namespace HEDB

namespace EvalExpr

/-- The binary operators. -/
inductive Op
  | add | sub | mul | div | mod | pow
  deriving DecidableEq, Repr

namespace Op

def char : Op → Char
  | add => '+'
  | sub => '-'
  | mul => '*'
  | div => '/'
  | mod => '%'
  | pow => '^'

def prec : Op → ℕ
  | add => 0
  | sub => 0
  | mul => 1
  | div => 1
  | mod => 1
  | pow => 2

/-- The operation of a carrier. -/
def apply {α : Type} (A : Arith α) : Op → α → α → α
  | add => A.add
  | sub => A.sub
  | mul => A.mul
  | div => A.div
  | mod => A.mod
  | pow => A.pow

theorem getPrecedance_char (op : Op) : getPrecedance op.char = op.prec := by
  cases op <;> rfl

theorem prec_le (op : Op) : op.prec ≤ 2 := by
  cases op <;> decide

theorem isOperator_char (op : Op) : isOperator op.char = true := by
  cases op <;> rfl

theorem isDigit_char (op : Op) : isDigit op.char = false := by
  cases op <;> rfl

end Op

/-- Expressions, with their parentheses. -/
inductive Expr
  | index (i : Fin exprMaxSize)
  | paren (e : Expr)
  | neg (e : Expr)
  | bin (op : Op) (l r : Expr)
  deriving DecidableEq, Repr

namespace Expr

/-- The text of an expression, without spaces. -/
def print : Expr → List Char
  | index i => [Char.ofNat ('1'.toNat + i)]
  | paren e => '(' :: e.print ++ [')']
  | neg e => '-' :: e.print
  | bin op l r => l.print ++ op.char :: r.print

/-- The precedence of an expression: that of its outermost operator. -/
def level : Expr → ℕ
  | index _ => 3
  | paren _ => 3
  | neg _ => 3
  | bin op _ _ => op.prec

/-- An index or a parenthesised expression. -/
def IsAtom : Expr → Prop
  | index _ => True
  | paren _ => True
  | _ => False

/-- The operands have the precedences that the operator asks for: `^` associates to the right and
the others to the left. -/
def Assoc (op : Op) (l r : Expr) : Prop :=
  if op = .pow then op.prec < l.level ∧ op.prec ≤ r.level
  else op.prec ≤ l.level ∧ op.prec < r.level

/-- The tree is the one of its text. -/
def WellFormed : Expr → Prop
  | index _ => True
  | paren e => e.WellFormed
  | neg e => e.IsAtom ∧ e.WellFormed
  | bin op l r => l.WellFormed ∧ r.WellFormed ∧ Assoc op l r

instance decidableIsAtom : (e : Expr) → Decidable e.IsAtom
  | index _ => isTrue trivial
  | paren _ => isTrue trivial
  | neg _ => isFalse id
  | bin _ _ _ => isFalse id

instance (op : Op) (l r : Expr) : Decidable (Assoc op l r) := by
  unfold Assoc
  infer_instance

instance decidableWellFormed : (e : Expr) → Decidable e.WellFormed
  | index _ => isTrue trivial
  | paren e => decidableWellFormed e
  | neg e => @instDecidableAnd _ _ _ (decidableWellFormed e)
  | bin _ l r => @instDecidableAnd _ _ (decidableWellFormed l)
      (@instDecidableAnd _ _ (decidableWellFormed r) _)

/-- Direct evaluation. -/
def eval {α : Type} (A : Arith α) (arr : Fin exprMaxSize → α) : Expr → α
  | index i => arr i
  | paren e => e.eval A arr
  | neg e => A.neg (e.eval A arr)
  | bin op l r => op.apply A (l.eval A arr) (r.eval A arr)

/-- The postfix form. -/
def bytes : Expr → List ℤ
  | index i => [(i : ℤ) + 1]
  | paren e => e.bytes
  | neg e => e.bytes ++ [code '#']
  | bin op l r => l.bytes ++ r.bytes ++ [code op.char]

/-! ## The value of the postfix form -/

section Value

variable {α : Type} {A : Arith α} {arr : Fin exprMaxSize → α}

theorem evalBytes_append (cs ds : List ℤ) (stack : List α) :
    evalBytes A arr (cs ++ ds) stack = (evalBytes A arr cs stack).bind (evalBytes A arr ds) := by
  induction cs generalizing stack with
  | nil => rfl
  | cons c cs ih =>
    simp only [List.cons_append, evalBytes]
    cases evalByte A arr c stack with
    | none => rfl
    | some stack => exact ih stack

theorem evalByte_index (i : Fin exprMaxSize) {stack : List α}
    (hl : stack.length < exprStackMaxSize) :
    evalByte A arr ((i : ℤ) + 1) stack = some (arr i :: stack) := by
  have hi : (0 : ℤ) < (i : ℤ) + 1 := by omega
  have hn : ((i : ℤ) + 1 - 1).toNat = i := by omega
  simp only [evalByte, if_pos hi, hn, i.isLt, dif_pos, if_pos hl]

theorem evalByte_op (hcomm : ∀ x y, A.add x y = A.add y x) (op : Op) (x y : α) (stack : List α) :
    evalByte A arr (code op.char) (y :: x :: stack) = some (op.apply A x y :: stack) := by
  cases op
  case add => exact congrArg (fun z => some (z :: stack)) (hcomm y x)
  all_goals rfl

/-- **The evaluator computes the value of an expression from its postfix form.** -/
theorem evalBytes_bytes (hcomm : ∀ x y, A.add x y = A.add y x) (e : Expr) {stack : List α}
    (hl : stack.length + e.bytes.length ≤ exprStackMaxSize) :
    evalBytes A arr e.bytes stack = some (e.eval A arr :: stack) := by
  induction e generalizing stack with
  | index i =>
    simp only [bytes, List.length_singleton] at hl
    simp only [bytes, evalBytes, evalByte_index i (show stack.length < exprStackMaxSize by omega),
      eval]
  | paren e ih => exact ih hl
  | neg e ih =>
    simp only [bytes, List.length_append] at hl
    rw [bytes, evalBytes_append, ih (by omega)]
    rfl
  | bin op l r ihl ihr =>
    simp only [bytes, List.length_append, List.length_singleton] at hl
    rw [bytes, evalBytes_append, evalBytes_append, ihl (by omega), Option.bind_some,
      ihr (by simp only [List.length_cons]; omega), Option.bind_some]
    simp only [evalBytes, evalByte_op hcomm, eval]

end Value

end Expr

end EvalExpr

end HEDB
