import Mathlib.Data.List.TakeWhile
import HEDB.EvalExpr.Syntax

/-!
# Where the compiler is right

The compiler classifies a minus by its last character: it is binary after a digit and unary after
anything else, a closing parenthesis too. And it gives the unary minus the lowest precedence, and
pops the operators before it as if it were binary. So it is right when

* no binary minus stands directly after a closing parenthesis (`Expr.MinusAfterIndex`), and
* a unary minus is alone in its group, the whole expression or a parenthesis (`Expr.NegAlone`),

as long as the operator stack does not overflow (`Expr.opDepth`). The proof follows the text of the
expression: after a subexpression some of its operators are in the output and the others, `pend`,
are on the stack, and together they are its postfix form (`convertLoop_print`).
-/

namespace HEDB

namespace EvalExpr

/-! ## Steps of the compiler -/

/-- What follows does not continue a number. -/
def NoDigit (cs : List Char) : Prop := ∀ c ∈ cs.head?, isDigit c = false

theorem noDigit_cons {c : Char} (hc : isDigit c = false) (cs : List Char) : NoDigit (c :: cs) := by
  rintro d ⟨⟩
  exact hc

theorem convertLoop_char {c : Char} (hc : isDigit c = false) (cs : List Char) (s : Conv) :
    convertLoop (c :: cs) s = (convertChar c s).bind (convertLoop cs) := by
  rw [convertLoop, if_neg (by rw [hc]; exact Bool.false_ne_true)]
  cases convertChar c s <;> rfl

theorem isDigit_index (i : Fin exprMaxSize) : isDigit (Char.ofNat ('1'.toNat + i)) = true := by
  revert i
  decide

theorem number_index (i : Fin exprMaxSize) : number [Char.ofNat ('1'.toNat + i)] = (i : ℤ) + 1 := by
  revert i
  decide

theorem convertLoop_index (i : Fin exprMaxSize) {rest : List Char} (hrest : NoDigit rest)
    (s : Conv) :
    convertLoop ((Expr.index i).print ++ rest) s =
      convertLoop rest ⟨s.ops, s.out ++ (Expr.index i).bytes, true⟩ := by
  have htake : rest.takeWhile isDigit = [] ∧ rest.dropWhile isDigit = rest := by
    cases rest with
    | nil => exact ⟨rfl, rfl⟩
    | cons c cs =>
      have hc : isDigit c = false := hrest c rfl
      simp [hc]
  rw [Expr.print, List.singleton_append, convertLoop, if_pos (isDigit_index i), htake.1, htake.2,
    number_index]
  rfl

/-- The operators of the context that operator of precedence `k` does not pop. Operators of
precedence two and more pop nothing. -/
def Blocks (ops : List Char) (k : ℕ) : Prop :=
  2 ≤ k ∨ ∀ top ∈ ops.head?, top = '(' ∨ getPrecedance top < k

theorem popOps_blocks (op : Op) {ops : List Char} (hb : Blocks ops op.prec) (out : List ℤ) :
    popOps op.char ops out = (ops, out) := by
  cases ops with
  | nil => rfl
  | cons top ops =>
    rw [popOps, if_neg]
    rintro ⟨h₁, h₂, h₃⟩
    rcases hb with h2 | hb
    · cases op <;> first | exact h₂ rfl | exact absurd h2 (by decide)
    · rw [op.getPrecedance_char] at h₃
      rcases hb top rfl with h | h
      · exact h₁ h
      · omega

/-- An operator pops the operators of the operand before it. -/
theorem popOps_append {op : Op} {pend ops : List Char} (hb : Blocks ops op.prec)
    (hop : op ≠ .pow) (hp : ∀ c ∈ pend, c ≠ '(' ∧ (op.prec : ℤ) ≤ getPrecedance c) (out : List ℤ) :
    popOps op.char (pend ++ ops) out = (ops, out ++ pend.map code) := by
  induction pend generalizing out with
  | nil => simpa using popOps_blocks op hb out
  | cons c pend ih =>
    obtain ⟨hc, hprec⟩ := hp c List.mem_cons_self
    rw [List.cons_append, popOps, if_pos, ih fun c hc => hp c (List.mem_cons_of_mem _ hc)]
    · simp
    · refine ⟨hc, ?_, by rw [op.getPrecedance_char]; exact hprec⟩
      intro hpow
      cases op <;> first | exact hop rfl | exact absurd hpow (by decide)

theorem popParen_append {pend : List Char} (hp : '(' ∉ pend) (ops : List Char) (out : List ℤ) :
    popParen (pend ++ '(' :: ops) out = some (ops, out ++ pend.map code) := by
  induction pend generalizing out with
  | nil => simp [popParen]
  | cons c pend ih =>
    have hc : c ≠ '(' := fun h => hp (h ▸ List.mem_cons_self)
    rw [List.cons_append, popParen, if_neg hc, ih fun h => hp (List.mem_cons_of_mem _ h)]
    simp

theorem popAll_eq {pend : List Char} (hp : '(' ∉ pend) (out : List ℤ) :
    popAll pend out = some (out ++ pend.map code) := by
  induction pend generalizing out with
  | nil => simp [popAll]
  | cons c pend ih =>
    have hc : c ≠ '(' := fun h => hp (h ▸ List.mem_cons_self)
    rw [popAll, if_neg hc, ih fun h => hp (List.mem_cons_of_mem _ h)]
    simp

theorem pushOp_of_lt {c : Char} {ops : List Char} (h : ops.length < exprStackMaxSize) :
    pushOp c ops = some (c :: ops) := if_pos h

theorem pushOp_of_le {c : Char} {ops : List Char} (h : exprStackMaxSize ≤ ops.length) :
    pushOp c ops = none := if_neg (not_lt.2 h)

/-! ## Expressions that are compiled -/

namespace Expr

/-- The text of the expression ends in an index. -/
def endsIndex : Expr → Bool
  | index _ => true
  | paren _ => false
  | neg e => e.endsIndex
  | bin _ _ r => r.endsIndex

/-- No binary minus stands directly after a closing parenthesis. -/
def MinusAfterIndex : Expr → Prop
  | index _ => True
  | paren e => e.MinusAfterIndex
  | neg e => e.MinusAfterIndex
  | bin op l r => l.MinusAfterIndex ∧ r.MinusAfterIndex ∧ (op = .sub → l.endsIndex = true)

instance decidableMinusAfterIndex : (e : Expr) → Decidable e.MinusAfterIndex
  | index _ => isTrue trivial
  | paren e => decidableMinusAfterIndex e
  | neg e => decidableMinusAfterIndex e
  | bin _ l r => @instDecidableAnd _ _ (decidableMinusAfterIndex l)
      (@instDecidableAnd _ _ (decidableMinusAfterIndex r) _)

/-- A unary minus and its operand are a whole group. The first argument says whether the expression
is a group. -/
def NegAlone : Bool → Expr → Prop
  | _, index _ => True
  | _, paren e => e.NegAlone true
  | group, neg e => group = true ∧ e.NegAlone false
  | _, bin _ l r => l.NegAlone false ∧ r.NegAlone false

instance decidableNegAlone : (g : Bool) → (e : Expr) → Decidable (e.NegAlone g)
  | _, index _ => isTrue trivial
  | _, paren e => decidableNegAlone true e
  | _, neg e => @instDecidableAnd _ _ _ (decidableNegAlone false e)
  | _, bin _ l r => @instDecidableAnd _ _ (decidableNegAlone false l) (decidableNegAlone false r)

/-- The entries of the operator stack that the expression takes. -/
def opDepth : Expr → ℕ
  | index _ => 0
  | paren e => 1 + e.opDepth
  | neg e => 1 + e.opDepth
  | bin _ l r => max l.opDepth (1 + r.opDepth)

end Expr

open EvalExpr.Expr

/-- The compiler stands at the start of a group. -/
def GroupStart (s : Conv) : Prop := s.expectOp = false ∧ ∀ top ∈ s.ops.head?, top = '('

theorem convertChar_op {op : Op} {s : Conv} {ops : List Char} {out : List ℤ}
    (hpop : popOps op.char s.ops s.out = (ops, out)) (hl : ops.length < exprStackMaxSize)
    (he : op = .sub → s.expectOp = true) :
    convertChar op.char s = some ⟨op.char :: ops, out, false⟩ := by
  have hc : ¬ ((!s.expectOp) = true ∧ op.char = '-') := by
    rintro ⟨h₁, h₂⟩
    have hsub : op = .sub := by cases op <;> first | rfl | exact absurd h₂ (by decide)
    simp [he hsub] at h₁
  simp only [convertChar, op.isOperator_char, if_true, hpop, if_neg hc, pushOp_of_lt hl,
    Option.map_some]

theorem convertChar_neg {s : Conv} (hs : GroupStart s) (hl : s.ops.length < exprStackMaxSize) :
    convertChar '-' s = some ⟨'#' :: s.ops, s.out, false⟩ := by
  have hpop : popOps '-' s.ops s.out = (s.ops, s.out) :=
    popOps_blocks .sub (.inr fun top htop => .inl (hs.2 top htop)) s.out
  simp [convertChar, isOperator, hpop, hs.1, pushOp_of_lt hl]

theorem convertChar_open {s : Conv} (hl : s.ops.length < exprStackMaxSize) :
    convertChar '(' s = some ⟨'(' :: s.ops, s.out, false⟩ := by
  simp [convertChar, isOperator, pushOp_of_lt hl]

theorem convertChar_close {pend ops : List Char} (hp : '(' ∉ pend) (out : List ℤ) (b : Bool) :
    convertChar ')' ⟨pend ++ '(' :: ops, out, b⟩ = some ⟨ops, out ++ pend.map code, false⟩ := by
  simp [convertChar, isOperator, popParen_append hp]

/-- The compiler has read an expression: its operators `pend` are on the stack, and with what is in
the output they are its postfix form. -/
structure Read (e : Expr) (group : Bool) (pend : List Char) (o : List ℤ) : Prop where
  bytes : o ++ pend.map code = e.bytes
  noParen : '(' ∉ pend
  level : group = false → ∀ c ∈ pend, (e.level : ℤ) ≤ getPrecedance c

theorem getPrecedance_lt (c : Char) : getPrecedance c < 3 := by
  unfold getPrecedance
  split_ifs <;> decide

theorem Expr.level_eq_three {e : Expr} (h : 2 < e.level) : e.level = 3 := by
  cases e with
  | bin op l r =>
    have hop := op.prec_le
    simp only [Expr.level] at h
    omega
  | _ => rfl

/-- The precedences of the operands, whichever way the operator associates. -/
theorem Expr.Assoc.levels {op : Op} {l r : Expr} (ha : Expr.Assoc op l r) :
    op.prec ≤ l.level ∧ op.prec ≤ r.level := by
  unfold Assoc at ha
  split_ifs at ha
  · exact ⟨ha.1.le, ha.2⟩
  · exact ⟨ha.1, ha.2.le⟩

/-- The right operand does not pop the operator. -/
theorem Expr.Assoc.blocks {op : Op} {l r : Expr} (ha : Expr.Assoc op l r) (ops : List Char) :
    Blocks (op.char :: ops) r.level := by
  unfold Assoc at ha
  split_ifs at ha with hpow
  · subst hpow
    exact .inl ha.2
  · refine .inr fun top htop => .inr ?_
    cases htop
    rw [op.getPrecedance_char]
    exact_mod_cast ha.2

theorem Blocks.mono {ops : List Char} {j k : ℕ} (hb : Blocks ops j) (hjk : j ≤ k) :
    Blocks ops k := by
  rcases hb with h2 | hb
  · exact .inl (h2.trans hjk)
  · refine .inr fun top htop => (hb top htop).imp_right fun hlt => ?_
    exact hlt.trans_le (by exact_mod_cast hjk)

/-- Nothing is pending after an index or a parenthesis. -/
theorem Read.pend_eq_nil {e : Expr} {pend : List Char} {o : List ℤ} (h : Read e false pend o)
    (hl : e.level = 3) : pend = [] := by
  cases pend with
  | nil => rfl
  | cons c pend =>
    have h₁ := h.level rfl c List.mem_cons_self
    have h₂ := getPrecedance_lt c
    rw [hl] at h₁
    norm_num at h₁
    omega

/-- An operator pops what is pending of its left operand. -/
theorem Read.popOps {op : Op} {l r : Expr} {pend ops : List Char} {o : List ℤ}
    (h : Read l false pend o) (ha : Expr.Assoc op l r) (hb : Blocks ops op.prec) (out : List ℤ) :
    popOps op.char (pend ++ ops) (out ++ o) = (ops, out ++ l.bytes) := by
  rw [← h.bytes, ← List.append_assoc]
  by_cases hpow : op = .pow
  · subst hpow
    obtain rfl := h.pend_eq_nil (level_eq_three ha.1)
    simpa using popOps_blocks .pow (.inl le_rfl) (out ++ o)
  · refine popOps_append hb hpow (fun c hc => ⟨?_, ?_⟩) _
    · rintro rfl
      exact h.noParen hc
    · exact le_trans (by exact_mod_cast ha.levels.1) (h.level rfl c hc)

/-- **Reading the text of an expression.** -/
theorem convertLoop_print (e : Expr) {g : Bool} (hwf : e.WellFormed) (hneg : e.NegAlone g)
    (hminus : e.MinusAfterIndex) {s : Conv} {t : List Char} (hrest : NoDigit t)
    (hb : Blocks s.ops e.level) (hgroup : g = true → GroupStart s)
    (hd : s.ops.length + e.opDepth ≤ exprStackMaxSize) :
    ∃ pend o, convertLoop (e.print ++ t) s =
      convertLoop t ⟨pend ++ s.ops, s.out ++ o, e.endsIndex⟩ ∧ Read e g pend o := by
  induction e generalizing g s t with
  | index i => exact ⟨[], _, convertLoop_index i hrest s, by simp, by simp, by simp⟩
  | paren e ih =>
    simp only [opDepth] at hd
    have hlt : s.ops.length < exprStackMaxSize := by omega
    obtain ⟨pend, o, hloop, hread⟩ := ih (g := true) (s := ⟨'(' :: s.ops, s.out, false⟩)
      (t := ')' :: t) hwf hneg hminus (noDigit_cons rfl _)
      (.inr fun top htop => .inl (Option.some.inj htop).symm)
      (fun _ => ⟨rfl, fun top htop => (Option.some.inj htop).symm⟩)
      (by simp only [List.length_cons]; omega)
    refine ⟨[], o ++ pend.map code, ?_, (List.append_nil _).trans hread.bytes, by simp, by simp⟩
    simp only [print, List.cons_append, List.append_assoc, List.nil_append]
    rw [convertLoop_char rfl, convertChar_open hlt, Option.bind_some, hloop, convertLoop_char rfl,
      convertChar_close hread.noParen, Option.bind_some, List.append_assoc]
    rfl
  | neg e ih =>
    obtain ⟨rfl, hneg⟩ := hneg
    obtain ⟨hatom, hwf⟩ := hwf
    have hlevel : e.level = 3 := by
      cases e <;> first | rfl | exact hatom.elim
    simp only [opDepth] at hd
    have hlt : s.ops.length < exprStackMaxSize := by omega
    obtain ⟨pend, o, hloop, hread⟩ := ih (g := false) (s := ⟨'#' :: s.ops, s.out, false⟩)
      hwf hneg hminus hrest (.inl (by omega)) (by rintro ⟨⟩)
        (by simp only [List.length_cons]; omega)
    obtain rfl := hread.pend_eq_nil hlevel
    refine ⟨['#'], o, ?_, ?_, by decide, by rintro ⟨⟩⟩
    · rw [print, List.cons_append, convertLoop_char rfl, convertChar_neg (hgroup rfl) hlt,
        Option.bind_some, hloop]
      rfl
    · rw [bytes, ← hread.bytes]
      simp
  | bin op l r ihl ihr =>
    obtain ⟨hwfl, hwfr, hassoc⟩ := hwf
    obtain ⟨hnegl, hnegr⟩ := hneg
    obtain ⟨hml, hmr, hsub⟩ := hminus
    simp only [opDepth] at hd
    obtain ⟨hl, hr⟩ := hassoc.levels
    obtain ⟨pendl, ol, hloopl, hreadl⟩ := ihl (g := false) (s := s)
      (t := op.char :: (r.print ++ t)) hwfl hnegl hml (noDigit_cons op.isDigit_char _)
      (hb.mono hl) (by rintro ⟨⟩) (by omega)
    have hpop := hreadl.popOps hassoc hb s.out
    obtain ⟨pendr, or, hloopr, hreadr⟩ := ihr (g := false)
      (s := ⟨op.char :: s.ops, s.out ++ l.bytes, false⟩) hwfr hnegr hmr hrest (hassoc.blocks s.ops)
      (by rintro ⟨⟩) (by simp only [List.length_cons]; omega)
    refine ⟨pendr ++ [op.char], l.bytes ++ or, ?_, ?_, ?_, ?_⟩
    · simp only [print, List.cons_append, List.append_assoc]
      rw [hloopl, convertLoop_char op.isDigit_char,
        convertChar_op (s := ⟨pendl ++ s.ops, s.out ++ ol, l.endsIndex⟩) hpop (by omega) hsub,
        Option.bind_some, hloopr]
      simp [endsIndex]
    · rw [bytes, ← hreadr.bytes]
      simp
    · rw [List.mem_append, not_or]
      refine ⟨hreadr.noParen, ?_⟩
      cases op <;> decide
    · intro _ c hc
      rcases List.mem_append.1 hc with hc | hc
      · exact le_trans (by exact_mod_cast hr) (hreadr.level rfl c hc)
      · rw [List.mem_singleton.1 hc, op.getPrecedance_char]
        rfl

theorem bytes_ne_zero (e : Expr) : ∀ b ∈ e.bytes, b ≠ 0 := by
  have hcode : ∀ c : Char, 0 < c.toNat → code c ≠ 0 := by
    intro c hc
    unfold code
    omega
  induction e with
  | index i =>
    intro b hb
    rw [List.mem_singleton.1 hb]
    omega
  | paren e ih => exact ih
  | neg e ih =>
    intro b hb
    rcases List.mem_append.1 hb with hb | hb
    · exact ih b hb
    · rw [List.mem_singleton.1 hb]
      exact hcode '#' (by decide)
  | bin op l r ihl ihr =>
    intro b hb
    rcases List.mem_append.1 hb with hb | hb
    · rcases List.mem_append.1 hb with hb | hb
      · exact ihl b hb
      · exact ihr b hb
    · rw [List.mem_singleton.1 hb]
      exact hcode op.char (by cases op <;> decide)

/-- **The compiler produces the postfix form.** -/
theorem convertExpr_print {e : Expr} (hwf : e.WellFormed) (hneg : e.NegAlone true)
    (hminus : e.MinusAfterIndex) (hd : e.opDepth ≤ exprStackMaxSize)
    (hsize : e.bytes.length < exprStackMaxSize) : convertExpr e.print = some e.bytes := by
  obtain ⟨pend, o, hloop, hread⟩ := convertLoop_print e (s := ⟨[], [], false⟩) (t := []) hwf hneg
    hminus (by rintro _ ⟨⟩) (.inr (by rintro _ ⟨⟩)) (fun _ => ⟨rfl, by rintro _ ⟨⟩⟩)
      (by simpa using hd)
  rw [List.append_nil] at hloop
  have hall : popAll (pend ++ []) ([] ++ o) = some e.bytes := by
    rw [List.append_nil, List.nil_append, popAll_eq hread.noParen, hread.bytes]
  simp only [convertExpr, hloop, convertLoop, hall, Option.bind_eq_bind, Option.bind_some,
    if_pos hsize]
  rw [List.takeWhile_eq_self_iff.2]
  intro b hb
  exact decide_eq_true (bytes_ne_zero e b hb)

/-- The expression is evaluated right. -/
theorem evalExpr_of_good {α : Type} {A : Arith α} (hcomm : ∀ x y, A.add x y = A.add y x)
    (arr : Fin exprMaxSize → α) {e : Expr} (hwf : e.WellFormed) (hneg : e.NegAlone true)
    (hminus : e.MinusAfterIndex) (hd : e.opDepth ≤ exprStackMaxSize)
    (hsize : e.bytes.length < exprStackMaxSize) {text : List Char}
    (htext : removeSpace text = e.print) : evalExpr A text arr = some (e.eval A arr) := by
  rw [evalExpr, htext, convertExpr_print hwf hneg hminus hd hsize, Option.bind_some,
    plainFloatEvalExpr, evalBytes_bytes hcomm e (by simpa using hsize.le)]
  rfl

end EvalExpr

end HEDB
