import HEDB.EvalExpr.Misread
import HEDB.EvalExpr.Operands

/-!
# Expressions that stay inside their arrays

Which calls of `enc_float4_eval_expr` keep to the arrays of the compiler, of the arguments and of
the evaluator, and report what is wrong with the text? The compiler stays inside on the texts of
`Inside` and `EndsInside`, and the evaluator if there are enough operands. Nothing but unmatched
parentheses is reported, so the text must be an expression over the arguments that were supplied
(`handled_iff`).
-/

namespace HEDB

namespace EvalExpr

/-! ## Texts that are expressions -/

/-- The parts of an expression. -/
inductive Part
  | atom
  | operand
  | expr

/-- The tokens are an expression, or a part of one: operands joined by operators, where an operand
is a number or a parenthesised expression, with at most one minus in front. -/
inductive Parses : Part → List Token → Prop
  | num (n : ℕ) : Parses .atom [.num n]
  | paren {ts : List Token} : Parses .expr ts → Parses .atom (.opening :: ts ++ [.closing])
  | plain {ts : List Token} : Parses .atom ts → Parses .operand ts
  | minus {ts : List Token} : Parses .atom ts → Parses .operand (.op .sub :: ts)
  | single {ts : List Token} : Parses .operand ts → Parses .expr ts
  | binary {ts us : List Token} (o : Op) : Parses .expr ts → Parses .operand us →
      Parses .expr (ts ++ .op o :: us)

/-- The tokens are an expression over `m` arguments. -/
def Proper (ts : List Token) (m : ℕ) : Prop :=
  Parses .expr ts ∧ ∀ n, .num n ∈ ts → 1 ≤ n ∧ n ≤ m

theorem Parses.append {ts us : List Token} (o : Op) (hts : Parses .expr ts)
    (hus : Parses .expr us) : Parses .expr (ts ++ .op o :: us) := by
  generalize hk : Part.expr = k at hus
  induction hus with
  | num | paren | plain | minus => cases hk
  | single hus => exact .binary o hts hus
  | binary o' _ hvs ih _ =>
    have h := Parses.binary o' (ih rfl) hvs
    rwa [List.append_assoc] at h

theorem tokensFrom_append (o : Option ℕ) (cs : List Char) {c : Char} (hc : isDigit c = false)
    (ds : List Char) :
    tokensFrom o (cs ++ c :: ds) = tokensFrom o cs ++ .ofChar c :: tokens ds := by
  have hnot : ¬ isDigit c = true := by rw [hc]; exact Bool.false_ne_true
  induction cs generalizing o with
  | nil =>
    cases o with
    | none => exact if_neg hnot
    | some n => exact if_neg hnot
  | cons d cs ih =>
    cases o with
    | none =>
      rw [List.cons_append, tokensFrom, tokensFrom, ih, ih]
      split_ifs <;> rfl
    | some n =>
      rw [List.cons_append, tokensFrom, tokensFrom, ih, ih]
      split_ifs <;> rfl

theorem tokens_index (i : Fin exprMaxSize) : tokens (Expr.index i).print = [.num (i + 1)] := by
  revert i
  decide

/-- **The expressions of the language are expressions.** -/
theorem parses_print {e : Expr} (h : e.WellFormed) :
    Parses .expr (tokens e.print) ∧ (e.IsAtom → Parses .atom (tokens e.print)) := by
  induction e with
  | index i =>
    rw [tokens_index]
    exact ⟨.single (.plain (.num _)), fun _ => .num _⟩
  | paren e ih =>
    have hprint : tokens (Expr.paren e).print = .opening :: tokens e.print ++ [.closing] := by
      show Token.opening :: tokensFrom none (e.print ++ [')']) = _
      rw [tokensFrom_append none e.print rfl []]
      rfl
    have hatom := Parses.paren (ih h).1
    rw [hprint]
    exact ⟨.single (.plain hatom), fun _ => hatom⟩
  | neg e ih => exact ⟨.single (.minus ((ih h.2).2 h.1)), False.elim⟩
  | bin op l r ihl ihr =>
    have hprint : tokens (Expr.bin op l r).print = tokens l.print ++ .op op :: tokens r.print := by
      rw [Expr.print, tokens, tokensFrom_append none l.print op.isDigit_char]
      cases op <;> rfl
    rw [hprint]
    exact ⟨(ihl h.1).1.append op (ihr h.2.1).1, False.elim⟩

/-! ## Calls -/

section Calls

variable {α : Type} [Inhabited α]

/-- The call keeps to its arrays, and it reports a text that is not an expression over the arguments
that were supplied. -/
def Handled (A : Arith α) (args : List α) (text : List Char) (decrypts : Bool) : Prop :=
  Checked.encFloat4EvalExpr A args text decrypts ≠ .outside ∧
    (¬ Proper (tokens (removeSpace text)) args.length →
      Checked.encFloat4EvalExpr A args text decrypts = .exit)

/-- **The calls that stay inside and report what is wrong.** -/
theorem handled_iff (A : Arith α) (args : List α) (text : List Char) (decrypts : Bool) :
    Handled A args text decrypts ↔
      (Inside (tokens (removeSpace text)) ∧ EndsInside (tokens (removeSpace text))) ∧
      (Balanced (tokens (removeSpace text)) → args.length ≤ exprMaxSize ∧
        Proper (tokens (removeSpace text)) args.length ∧
        (decrypts = true → EnoughOperands (tokens (removeSpace text)))) := by
  generalize hcs : removeSpace text = cs
  unfold Handled Checked.encFloat4EvalExpr
  rw [hcs]
  by_cases hfits : Inside (tokens cs) ∧ EndsInside (tokens cs)
  swap
  · rw [convertExpr_eq_outside hfits]
    exact iff_of_false (fun h => h.1 rfl) fun h => hfits h.1
  rw [and_iff_right hfits]
  obtain ⟨hin, hends⟩ := hfits
  by_cases hbal : Balanced (tokens cs)
  swap
  · rw [convertExpr_eq_exit hin hends hbal]
    exact iff_of_true ⟨fun h => (nomatch h), fun _ => rfl⟩ fun h => absurd h hbal
  rw [imp_iff_right hbal]
  by_cases hproper : Proper (tokens cs) args.length
  swap
  · -- the text is not an expression, and the call does not end with a report
    obtain ⟨R, hread, houter⟩ := hbal
    obtain ⟨s, hrun, hfollows⟩ := run_of_inside hread hin
    rw [convertExpr_eq_ok hin hends hread houter hrun hfollows]
    refine iff_of_false (fun h => ?_) fun h => hproper h.2.1
    have hexit := h.2 hproper
    dsimp only at hexit
    split_ifs at hexit
    split at hexit <;> cases hexit
  by_cases hm : args.length ≤ exprMaxSize
  swap
  · obtain ⟨R, hread, houter⟩ := hbal
    obtain ⟨s, hrun, hfollows⟩ := run_of_inside hread hin
    rw [convertExpr_eq_ok hin hends hread houter hrun hfollows]
    refine iff_of_false (fun h => h.1 (if_pos (not_le.mp hm))) fun h => hm h.1
  obtain ⟨expr, hexpr, heval⟩ := @plainFloatEvalExpr_ne_none_iff α _ A args cs hin hends hbal hm
    hproper.2
  rw [hexpr, and_iff_right hm, and_iff_right hproper, ← heval]
  refine (and_iff_left fun h => absurd hproper h).trans ?_
  dsimp only
  rw [if_neg (not_lt.mpr hm)]
  cases decrypts with
  | false => exact iff_of_true (fun h => (nomatch h)) fun h => (nomatch h)
  | true =>
    rw [if_pos rfl, imp_iff_right rfl]
    cases Checked.plainFloatEvalExpr A args expr with
    | none => exact iff_of_false (fun h => h rfl) fun h => h rfl
    | some x => exact iff_of_true (fun h => (nomatch h)) (Option.some_ne_none x)

end Calls

/-- The expression of `sum_charge` in Q1.sql. -/
def q1Text : List Char := "1*(2-3)*(2+4)".toList

theorem q1Text_eq : q1Text =
    (Expr.bin .mul (.bin .mul (arg 0) (.paren (.bin .sub (arg 1) (arg 2))))
      (.paren (.bin .add (arg 1) (arg 3)))).print := by
  decide

/-- **A shipped expression is read below the stack**: the second product takes the first one from
`op_stack`, and then its top is read again. Nested parentheses leave it at its other end. -/
theorem q1_outside : Proper (tokens q1Text) 4 ∧
    Checked.encFloat4EvalExpr intArith [100, 1, 0, 2] q1Text true = .outside ∧
    Checked.encFloat4EvalExpr intArith [1]
      (List.replicate 17 '(' ++ '1' :: List.replicate 17 ')') true = .outside ∧
    Checked.encFloat4EvalExpr intArith [1] "2".toList true = .outside ∧
    Checked.encFloat4EvalExpr intArith [1, 2] "1a2".toList true = .value 2 := by
  have htokens : tokens q1Text = [.num 1, .op .mul, .opening, .num 2, .op .sub, .num 3, .closing,
      .op .mul, .opening, .num 2, .op .add, .num 4, .closing] := by decide
  refine ⟨⟨?_, fun n hn => ?_⟩, ?_, ?_, ?_, ?_⟩
  · rw [q1Text_eq]
    exact (parses_print (by decide)).1
  · rw [htokens] at hn
    simp only [List.mem_cons, Token.num.injEq, reduceCtorEq, List.not_mem_nil, false_or,
      or_false] at hn
    omega
  all_goals
    rw [Checked.encFloat4EvalExpr, convertExpr_eq]
    rfl

end EvalExpr

end HEDB
