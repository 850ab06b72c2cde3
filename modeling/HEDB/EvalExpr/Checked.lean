import HEDB.EvalExpr.Model

/-!
# Where expressions index their arrays

The accesses of `convert_expr` and `plain_float_eval_expr`, one by one. `op_stack`, `out_queue` and
the stack of the evaluator have sixteen entries, the array of arguments has eight, and only the
entries of the arguments that were supplied may be read. A run stops at the first index outside, and
when `convert_expr` prints that the parentheses do not match and calls `exit`.

The main loops are those of the model, which checks less: it lets `convert_expr` read below
`op_stack`, and counts the bytes of `out_queue` at the end. A run that does not stop is a run of the
model (`Checked.convertExpr_of_ok`, `Checked.plainFloatEvalExpr_of_some`).
-/

namespace HEDB

namespace EvalExpr

/-- Why a run of `convert_expr` stops: an index outside of an array, or `exit`. -/
inductive Stop
  | outside
  | exit
  deriving DecidableEq, Repr

namespace Checked

/-! ## The compiler -/

/-- Write to `out_queue[out_len]`. -/
def write (b : ℤ) (out : List ℤ) : Except Stop (List ℤ) :=
  if out.length < exprStackMaxSize then .ok (out ++ [b]) else .error .outside

/-- Write to `op_stack[op_top_pos]`. -/
def pushOp (c : Char) (ops : List Char) : Except Stop (List Char) :=
  if ops.length < exprStackMaxSize then .ok (c :: ops) else .error .outside

/-- The loop that pops operators when operator `c` is read. It reads the top of the stack again
before it tests whether there is one. -/
def popLoop (c : Char) : List Char → List ℤ → Except Stop (List Char × List ℤ)
  | [], _ => .error .outside
  | top :: ops, out =>
    if top ≠ '(' ∧ c ≠ '^' ∧ getPrecedance top ≥ getPrecedance c then do
      popLoop c ops (← write (code top) out)
    else .ok (top :: ops, out)

/-- The loop is entered when the stack is not empty. -/
def popOps (c : Char) (ops : List Char) (out : List ℤ) : Except Stop (List Char × List ℤ) :=
  if ops = [] then .ok ([], out) else popLoop c ops out

/-- The loop that pops the operators up to the opening parenthesis. -/
def popParen : List Char → List ℤ → Except Stop (List Char × List ℤ)
  | [], _ => .error .exit
  | top :: ops, out =>
    if top = '(' then .ok (ops, out) else do popParen ops (← write (code top) out)

/-- The loop that pops the operators at the end. -/
def popAll : List Char → List ℤ → Except Stop (List ℤ)
  | [], out => .ok out
  | top :: ops, out =>
    if top = '(' then .error .exit else do popAll ops (← write (code top) out)

/-- A character other than a digit. -/
def convertChar (c : Char) (s : Conv) : Except Stop Conv :=
  if isOperator c then do
    let (ops, out) ← popOps c s.ops s.out
    return ⟨← pushOp (if !s.expectOp ∧ c = '-' then '#' else c) ops, out, false⟩
  else if c = '(' then do return ⟨← pushOp c s.ops, s.out, false⟩
  else if c = ')' then do
    let (ops, out) ← popParen s.ops s.out
    return ⟨ops, out, false⟩
  else .ok s

/-- The main loop of `convert_expr`. -/
def convertLoop : List Char → Conv → Except Stop Conv
  | [], s => .ok s
  | c :: cs, s =>
    if isDigit c then do
      let out ← write (number (c :: cs.takeWhile isDigit)) s.out
      convertLoop (cs.dropWhile isDigit) ⟨s.ops, out, true⟩
    else do convertLoop cs (← convertChar c s)
termination_by cs => cs.length
decreasing_by
  · exact Nat.lt_succ_of_le (List.dropWhile_sublist _).length_le
  · exact Nat.lt_succ_self _

/-- The end of `convert_expr`: the rest of the stack, and the copy of the queue with one byte
more. -/
def finish (s : Conv) : Except Stop (List ℤ) := do
  let out ← popAll s.ops s.out
  if out.length < exprStackMaxSize then return out.takeWhile (· ≠ 0) else .error .outside

/-- `convert_expr`. -/
def convertExpr (expr : List Char) : Except Stop (List ℤ) := do
  finish (← convertLoop expr ⟨[], [], false⟩)

/-! ## The evaluator -/

section Evaluator

variable {α : Type} [Inhabited α] (A : Arith α) (args : List α)

/-- One byte of the postfix string, with the arguments that were supplied. -/
def evalByte (c : ℤ) (stack : List α) : Option (List α) :=
  if (args.length : ℤ) < c then none
  else EvalExpr.evalByte A (fun i => args.getD i default) c stack

/-- The main loop of `plain_float_eval_expr`. -/
def evalBytes : List ℤ → List α → Option (List α)
  | [], stack => some stack
  | c :: cs, stack => (evalByte A args c stack).bind (evalBytes cs)

/-- `plain_float_eval_expr`. -/
def plainFloatEvalExpr (expr : List ℤ) : Option α := (evalBytes A args expr []).bind List.head?

/-! ## The function of the database -/

/-- How a call of `enc_float4_eval_expr` ends. -/
inductive Outcome (α : Type)
  /-- The result is the value of the expression. -/
  | value (x : α)
  /-- The expression was not evaluated, and the result is what the region held. -/
  | kept
  /-- `convert_expr` has printed a message and called `exit`. -/
  | exit
  /-- An index was outside of its array. -/
  | outside
  deriving DecidableEq, Repr

/-- `enc_float4_eval_expr` on a text and the plaintexts of its other arguments. `decrypts` says
whether the item that the server decrypts last can be decrypted: that of the last argument, or the
first item of the region if there is no argument. When it cannot, its code in `resp` is overwritten
by the branch of `CMD_FLOAT_ENC` that comes next, so the call does not fail. -/
def encFloat4EvalExpr (text : List Char) (decrypts : Bool) : Outcome α :=
  match convertExpr (removeSpace text) with
  | .error .exit => .exit
  | .error .outside => .outside
  | .ok expr =>
    if exprMaxSize < args.length then .outside
    else if decrypts then
      match plainFloatEvalExpr A args expr with
      | some x => .value x
      | none => .outside
    else .kept

end Evaluator

/-! ## The model -/

theorem write_eq_ok {b : ℤ} {out out' : List ℤ} (h : write b out = .ok out') :
    out' = out ++ [b] ∧ out.length < exprStackMaxSize := by
  unfold write at h
  split_ifs at h with hlt
  cases h
  exact ⟨rfl, hlt⟩

theorem bind_eq_ok {ε β γ : Type} {x : Except ε β} {f : β → Except ε γ} {z : γ}
    (h : x >>= f = .ok z) : ∃ y, x = .ok y ∧ f y = .ok z := by
  cases x with
  | error e => cases h
  | ok y => exact ⟨y, rfl, h⟩

theorem popLoop_of_ok {c : Char} {ops : List Char} {out : List ℤ} {z : List Char × List ℤ}
    (h : popLoop c ops out = .ok z) : EvalExpr.popOps c ops out = z := by
  induction ops generalizing out with
  | nil => cases h
  | cons top ops ih =>
    rw [popLoop] at h
    rw [EvalExpr.popOps]
    split_ifs at h ⊢ with hpop
    · obtain ⟨out', hw, hrest⟩ := bind_eq_ok h
      rw [← (write_eq_ok hw).1]
      exact ih hrest
    · exact Except.ok.inj h

theorem popOps_of_ok {c : Char} {ops : List Char} {out : List ℤ} {z : List Char × List ℤ}
    (h : popOps c ops out = .ok z) : EvalExpr.popOps c ops out = z := by
  unfold popOps at h
  split_ifs at h with hops
  · subst hops
    exact Except.ok.inj h
  · exact popLoop_of_ok h

theorem popParen_of_ok {ops : List Char} {out : List ℤ} {z : List Char × List ℤ}
    (h : popParen ops out = .ok z) : EvalExpr.popParen ops out = some z := by
  induction ops generalizing out with
  | nil => cases h
  | cons top ops ih =>
    rw [popParen] at h
    rw [EvalExpr.popParen]
    split_ifs at h ⊢ with htop
    · exact congrArg some (Except.ok.inj h)
    · obtain ⟨out', hw, hrest⟩ := bind_eq_ok h
      rw [← (write_eq_ok hw).1]
      exact ih hrest

theorem popAll_of_ok {ops : List Char} {out out' : List ℤ} (h : popAll ops out = .ok out') :
    EvalExpr.popAll ops out = some out' := by
  induction ops generalizing out with
  | nil => exact congrArg some (Except.ok.inj h)
  | cons top ops ih =>
    rw [popAll] at h
    rw [EvalExpr.popAll]
    split_ifs at h ⊢ with htop
    obtain ⟨out₁, hw, hrest⟩ := bind_eq_ok h
    rw [← (write_eq_ok hw).1]
    exact ih hrest

theorem pushOp_of_ok {c : Char} {ops ops' : List Char} (h : pushOp c ops = .ok ops') :
    EvalExpr.pushOp c ops = some ops' := by
  unfold pushOp at h
  unfold EvalExpr.pushOp
  split_ifs at h ⊢ with hlt
  exact congrArg some (Except.ok.inj h)

theorem convertChar_of_ok {c : Char} {s s' : Conv} (h : convertChar c s = .ok s') :
    EvalExpr.convertChar c s = some s' := by
  unfold convertChar at h
  unfold EvalExpr.convertChar
  by_cases hop : isOperator c = true
  · rw [if_pos hop] at h ⊢
    obtain ⟨⟨ops, out⟩, hpop, hrest⟩ := bind_eq_ok h
    obtain ⟨ops', hpush, hs⟩ := bind_eq_ok hrest
    cases hs
    simp only [popOps_of_ok hpop, pushOp_of_ok hpush, Option.map_some]
  rw [if_neg hop] at h ⊢
  split_ifs at h ⊢
  · obtain ⟨ops, hpush, hs⟩ := bind_eq_ok h
    cases hs
    rw [pushOp_of_ok hpush, Option.map_some]
  · obtain ⟨⟨ops, out⟩, hpop, hs⟩ := bind_eq_ok h
    cases hs
    rw [popParen_of_ok hpop, Option.map_some]
  · exact congrArg some (Except.ok.inj h)

theorem convertLoop_of_ok {cs : List Char} {s s' : Conv} (h : convertLoop cs s = .ok s') :
    EvalExpr.convertLoop cs s = some s' := by
  fun_induction convertLoop cs s with
  | case1 s =>
    rw [EvalExpr.convertLoop]
    exact congrArg some (Except.ok.inj h)
  | case2 c cs s hdigit ih =>
    obtain ⟨out, hw, hrest⟩ := bind_eq_ok h
    rw [EvalExpr.convertLoop, if_pos hdigit, ← (write_eq_ok hw).1]
    exact ih out hrest
  | case3 c cs s hdigit ih =>
    obtain ⟨s₁, hchar, hrest⟩ := bind_eq_ok h
    rw [EvalExpr.convertLoop, if_neg hdigit, convertChar_of_ok hchar]
    exact ih s₁ hrest

/-- **A run of the compiler that stays inside is a run of the model.** -/
theorem convertExpr_of_ok {expr : List Char} {bs : List ℤ} (h : convertExpr expr = .ok bs) :
    EvalExpr.convertExpr expr = some bs := by
  obtain ⟨s, hloop, hfinish⟩ := bind_eq_ok h
  obtain ⟨out, hall, hcopy⟩ := bind_eq_ok hfinish
  split_ifs at hcopy with hlt
  cases hcopy
  simp only [EvalExpr.convertExpr, convertLoop_of_ok hloop, popAll_of_ok hall, Option.bind_eq_bind,
    Option.bind_some, if_pos hlt]

section Evaluator

variable {α : Type} [Inhabited α] {A : Arith α} {args : List α}

theorem evalBytes_of_some {cs : List ℤ} {stack stack' : List α}
    (h : evalBytes A args cs stack = some stack') :
    EvalExpr.evalBytes A (fun i => args.getD i default) cs stack = some stack' := by
  induction cs generalizing stack with
  | nil => exact h
  | cons c cs ih =>
    obtain ⟨st, hst, hrest⟩ := Option.bind_eq_some_iff.mp h
    unfold evalByte at hst
    split_ifs at hst
    rw [EvalExpr.evalBytes, hst]
    exact ih hrest

/-- **An evaluation that stays inside is one of the model.** -/
theorem plainFloatEvalExpr_of_some {expr : List ℤ} {x : α}
    (h : plainFloatEvalExpr A args expr = some x) :
    EvalExpr.plainFloatEvalExpr A expr (fun i => args.getD i default) = some x := by
  obtain ⟨st, hst, hhead⟩ := Option.bind_eq_some_iff.mp h
  rw [EvalExpr.plainFloatEvalExpr, evalBytes_of_some hst]
  exact hhead

end Evaluator

end Checked

end EvalExpr

end HEDB
