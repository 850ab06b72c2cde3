import HEDB.Types.Defs

/-!
# Compiling and evaluating expressions

`pg_enc_float4_eval_expr` sends an arithmetic expression over its arguments to the trusted side in
postfix form. `convert_expr` of `enc_float4.cpp` compiles it, by the shunting yard algorithm, into a
string of signed bytes: an argument is its index, from one on, and an operator is minus its
character, with `#` for the unary minus. `plain_float_eval_expr` of `plain_float_ops.c` runs this
string on a stack.

The two arrays of `convert_expr` and the stack of the evaluator have sixteen entries. An access out
of their bounds, or `exit`, is `none`.
-/

namespace HEDB

namespace EvalExpr

/-! ## The compiler -/

/-- `remove_space`. It moves the characters to the front of the same array and never passes the
character that it reads. -/
def removeSpace (expr : List Char) : List Char := expr.filter (· ≠ ' ')

/-- `get_precedance`. -/
def getPrecedance (op : Char) : ℤ :=
  if op = '+' ∨ op = '-' then 0
  else if op = '*' ∨ op = '/' ∨ op = '%' then 1
  else if op = '^' then 2
  else -1

def isDigit (c : Char) : Bool := '0' ≤ c ∧ c ≤ '9'

def isOperator (c : Char) : Bool :=
  c = '+' ∨ c = '-' ∨ c = '*' ∨ c = '/' ∨ c = '%' ∨ c = '^'

/-- The number that a run of digits denotes, as an `int8_t`. -/
def number (ds : List Char) : ℤ :=
  (BitVec.ofInt 8 (ds.foldl (fun num d => 10 * num + ((d.toNat : ℤ) - '0'.toNat)) 0)).toInt

/-- The byte of an operator in the output queue. -/
def code (op : Char) : ℤ := -(op.toNat : ℤ)

/-- The state of `convert_expr`. -/
structure Conv where
  /-- `op_stack`, from the top. -/
  ops : List Char
  /-- `out_queue`, from the front. It only grows, so its bound is checked at the end. -/
  out : List ℤ
  expectOp : Bool

/-- The loop that pops the operators of higher or equal precedence when operator `c` is read. When
it has popped the last one it reads below the stack, and stops whatever it finds. -/
def popOps (c : Char) : List Char → List ℤ → List Char × List ℤ
  | [], out => ([], out)
  | top :: ops, out =>
    if top ≠ '(' ∧ c ≠ '^' ∧ getPrecedance top ≥ getPrecedance c then
      popOps c ops (out ++ [code top])
    else (top :: ops, out)

/-- The loop that pops the operators up to the opening parenthesis. -/
def popParen : List Char → List ℤ → Option (List Char × List ℤ)
  | [], _ => none
  | top :: ops, out => if top = '(' then some (ops, out) else popParen ops (out ++ [code top])

/-- The loop that pops the operators at the end. -/
def popAll : List Char → List ℤ → Option (List ℤ)
  | [], out => some out
  | top :: ops, out => if top = '(' then none else popAll ops (out ++ [code top])

/-- Push on `op_stack`. -/
def pushOp (c : Char) (ops : List Char) : Option (List Char) :=
  if ops.length < exprStackMaxSize then some (c :: ops) else none

/-- A character other than a digit. Characters that are not part of expressions are passed over. -/
def convertChar (c : Char) (s : Conv) : Option Conv :=
  if isOperator c then
    let (ops, out) := popOps c s.ops s.out
    (pushOp (if !s.expectOp ∧ c = '-' then '#' else c) ops).map fun ops => ⟨ops, out, false⟩
  else if c = '(' then (pushOp c s.ops).map fun ops => ⟨ops, s.out, false⟩
  else if c = ')' then (popParen s.ops s.out).map fun (ops, out) => ⟨ops, out, false⟩
  else some s

/-- The main loop of `convert_expr`. -/
def convertLoop : List Char → Conv → Option Conv
  | [], s => some s
  | c :: cs, s =>
    if isDigit c then
      convertLoop (cs.dropWhile isDigit)
        ⟨s.ops, s.out ++ [number (c :: cs.takeWhile isDigit)], true⟩
    else
      match convertChar c s with
      | none => none
      | some s => convertLoop cs s
termination_by cs => cs.length
decreasing_by
  · exact Nat.lt_succ_of_le (List.dropWhile_sublist _).length_le
  · exact Nat.lt_succ_self _

/-- `convert_expr`: the string that it leaves in `out_expr`. The copy takes one byte more than the
queue has, and a zero byte in the queue ends the string. -/
def convertExpr (expr : List Char) : Option (List ℤ) := do
  let s ← convertLoop expr ⟨[], [], false⟩
  let out ← popAll s.ops s.out
  if out.length < exprStackMaxSize then some (out.takeWhile (· ≠ 0)) else none

/-! ## The evaluator -/

/-- The operations of a carrier. -/
structure Arith (α : Type) where
  neg : α → α
  add : α → α → α
  sub : α → α → α
  mul : α → α → α
  div : α → α → α
  mod : α → α → α
  pow : α → α → α

variable {α : Type}

/-- The two `switch`es on a binary operator. A sum is computed a second time, with its operands in
the other order, and an unknown operator leaves its first operand. -/
def applyOp (A : Arith α) (c : Char) (op1 op2 : α) : α :=
  if c = '+' then A.add op1 op2
  else if c = '-' then A.sub op2 op1
  else if c = '*' then A.mul op2 op1
  else if c = '/' then A.div op2 op1
  else if c = '%' then A.mod op2 op1
  else if c = '^' then A.pow op2 op1
  else op2

/-- One byte of the postfix string, on the stack from its top. -/
def evalByte (A : Arith α) (arr : Fin exprMaxSize → α) (c : ℤ) (stack : List α) : Option (List α) :=
  if 0 < c then
    if hc : (c - 1).toNat < exprMaxSize then
      if stack.length < exprStackMaxSize then some (arr ⟨(c - 1).toNat, hc⟩ :: stack) else none
    else none
  else if Char.ofNat (-c).toNat = '#' then
    match stack with
    | [] => none
    | x :: stack => some (A.neg x :: stack)
  else
    match stack with
    | op1 :: op2 :: stack => some (applyOp A (Char.ofNat (-c).toNat) op1 op2 :: stack)
    | _ => none

/-- The main loop of `plain_float_eval_expr`. -/
def evalBytes (A : Arith α) (arr : Fin exprMaxSize → α) : List ℤ → List α → Option (List α)
  | [], stack => some stack
  | c :: cs, stack =>
    match evalByte A arr c stack with
    | none => none
    | some stack => evalBytes A arr cs stack

/-- `plain_float_eval_expr`. -/
def plainFloatEvalExpr (A : Arith α) (expr : List ℤ) (arr : Fin exprMaxSize → α) : Option α :=
  (evalBytes A arr expr []).bind List.head?

/-- An expression, from its text to its value. -/
def evalExpr (A : Arith α) (expr : List Char) (arr : Fin exprMaxSize → α) : Option α :=
  (convertExpr (removeSpace expr)).bind fun bytes => plainFloatEvalExpr A bytes arr

end EvalExpr

end HEDB
