import Mathlib.Data.List.TakeWhile
import HEDB.EvalExpr.Checked
import HEDB.EvalExpr.Syntax

/-!
# What the text of an expression asks of the arrays

What `convert_expr` has on `op_stack` can be told from the text that it has read. In every group
that is still open, the whole text or a parenthesis, an operator *waits* if all later operators of
the group are `^` or bind tighter; a minus that is read as unary waits in any case. The stack
consists of the operators that wait and of the open parentheses, and all other operators have been
written to `out_queue`.

So the compiler stays inside its arrays as long as no part of the text that it has read asks for
more (`Reading.Fits`): the first operator of the outermost group waits, since the stack is read once
more when it is taken, the stack has sixteen entries and the queue sixteen bytes.
-/

namespace HEDB

namespace EvalExpr

/-! ## Tokens -/

/-- The tokens of a text without spaces. -/
inductive Token
  | num (n : ℕ)
  | op (o : Op)
  | opening
  | closing
  /-- A character that is passed over. -/
  | other
  deriving DecidableEq, Repr

/-- The token of a character that is not a digit. -/
def Token.ofChar (c : Char) : Token :=
  if c = '+' then .op .add
  else if c = '-' then .op .sub
  else if c = '*' then .op .mul
  else if c = '/' then .op .div
  else if c = '%' then .op .mod
  else if c = '^' then .op .pow
  else if c = '(' then .opening
  else if c = ')' then .closing
  else .other

/-- The number, with one digit more. -/
def addDigit (n : ℕ) (c : Char) : ℕ := 10 * n + (c.toNat - '0'.toNat)

/-- The tokens of a text, with the number that has been read. -/
def tokensFrom : Option ℕ → List Char → List Token
  | none, [] => []
  | some n, [] => [.num n]
  | none, c :: cs =>
    if isDigit c then tokensFrom (some (addDigit 0 c)) cs else .ofChar c :: tokensFrom none cs
  | some n, c :: cs =>
    if isDigit c then tokensFrom (some (addDigit n c)) cs
    else .num n :: .ofChar c :: tokensFrom none cs

/-- The tokens of a text. -/
def tokens (cs : List Char) : List Token := tokensFrom none cs

/-- The byte of a number in the output queue. -/
def numByte (n : ℕ) : ℤ := (BitVec.ofInt 8 n).toInt

/-- One token of `convert_expr`. -/
def readToken (s : Conv) : Token → Except Stop Conv
  | .num n => do return ⟨s.ops, ← Checked.write (numByte n) s.out, true⟩
  | .op o => Checked.convertChar o.char s
  | .opening => Checked.convertChar '(' s
  | .closing => Checked.convertChar ')' s
  | .other => .ok s

/-- The main loop of `convert_expr`, on tokens. -/
def run (ts : List Token) (s : Conv) : Except Stop Conv := ts.foldlM readToken s

theorem tokensFrom_some (n : ℕ) (cs : List Char) : tokensFrom (some n) cs =
    .num ((cs.takeWhile isDigit).foldl addDigit n) :: tokens (cs.dropWhile isDigit) := by
  induction cs generalizing n with
  | nil => rfl
  | cons c cs ih =>
    rw [tokensFrom]
    by_cases hc : isDigit c = true
    · rw [if_pos hc, ih, List.takeWhile_cons_of_pos hc, List.dropWhile_cons_of_pos hc,
        List.foldl_cons]
    · rw [if_neg hc, List.takeWhile_cons_of_neg hc, List.dropWhile_cons_of_neg hc, tokens,
        tokensFrom, if_neg hc]
      rfl

theorem cast_foldl_addDigit {ds : List Char} (hds : ∀ d ∈ ds, isDigit d = true) (n : ℕ) :
    ds.foldl (fun num d => 10 * num + ((d.toNat : ℤ) - '0'.toNat)) (n : ℤ) =
      (ds.foldl addDigit n : ℕ) := by
  induction ds generalizing n with
  | nil => rfl
  | cons d ds ih =>
    have hd : '0'.toNat ≤ d.toNat := by
      have h := hds d List.mem_cons_self
      simp only [isDigit, decide_eq_true_eq] at h
      exact h.1
    have hcast : 10 * (n : ℤ) + ((d.toNat : ℤ) - '0'.toNat) = (addDigit n d : ℕ) := by
      rw [addDigit]
      omega
    rw [List.foldl_cons, List.foldl_cons, hcast]
    exact ih (fun d hd => hds d (List.mem_cons_of_mem _ hd)) _

theorem number_eq {ds : List Char} (hds : ∀ d ∈ ds, isDigit d = true) :
    number ds = numByte (ds.foldl addDigit 0) := by
  rw [number, numByte, ← cast_foldl_addDigit hds 0]
  rfl

theorem convertChar_eq (c : Char) (s : Conv) :
    Checked.convertChar c s = readToken s (.ofChar c) := by
  unfold Token.ofChar
  split_ifs with h₁ h₂ h₃ h₄ h₅ h₆ h₇ h₈
  case neg =>
    have hop : ¬ isOperator c = true := by simp [isOperator, h₁, h₂, h₃, h₄, h₅, h₆]
    rw [Checked.convertChar, if_neg hop, if_neg h₇, if_neg h₈]
    rfl
  all_goals
    subst_vars
    rfl

/-- **The compiler reads tokens.** -/
theorem convertLoop_eq_run (cs : List Char) (s : Conv) :
    Checked.convertLoop cs s = run (tokens cs) s := by
  fun_induction Checked.convertLoop cs s with
  | case1 s => rfl
  | case2 c cs s hdigit ih =>
    have hds : ∀ d ∈ c :: cs.takeWhile isDigit, isDigit d = true := by
      rintro d (_ | ⟨_, hd⟩)
      · exact hdigit
      · exact List.mem_takeWhile_imp hd
    rw [tokens, tokensFrom, if_pos hdigit, tokensFrom_some, run, List.foldlM_cons, readToken,
      number_eq hds, List.foldl_cons, bind_assoc]
    refine bind_congr fun out => ?_
    rw [ih out]
    rfl
  | case3 c cs s hdigit ih =>
    rw [tokens, tokensFrom, if_neg hdigit, run, List.foldlM_cons, convertChar_eq]
    exact bind_congr ih

/-! ## Operators that wait -/

/-- An operator, as `convert_expr` reads it: a minus is unary unless it follows a number. -/
inductive Sign
  | neg
  | bin (o : Op)
  deriving DecidableEq, Repr

namespace Sign

/-- The character on the stack. -/
def char : Sign → Char
  | neg => '#'
  | bin o => o.char

/-- The operator whose precedence counts when it is read. -/
def op : Sign → Op
  | neg => .sub
  | bin o => o

def isBin : Sign → Bool
  | neg => false
  | bin _ => true

/-- Reading `s` takes `t` from the stack. -/
def takes (s : Sign) : Sign → Bool
  | neg => false
  | bin p => s.op ≠ .pow ∧ s.op.prec ≤ p.prec

/-- None of the later operators takes it from the stack. -/
def waits (t : Sign) (later : List Sign) : Bool := later.all fun s => !s.takes t

theorem takes_bin {s : Sign} {p : Op} :
    s.takes (bin p) = true ↔ s.op ≠ .pow ∧ s.op.prec ≤ p.prec := decide_eq_true_iff

theorem takes_iff (s t : Sign) : s.takes t = true ↔
    t.char ≠ '(' ∧ s.op.char ≠ '^' ∧ getPrecedance t.char ≥ getPrecedance s.op.char := by
  rcases s with _ | p <;> rcases t with _ | q
  · decide
  · cases q <;> decide
  · cases p <;> decide
  · cases p <;> cases q <;> decide

theorem char_ne_opening (t : Sign) : t.char ≠ '(' := by
  rcases t with _ | o
  · decide
  · cases o <;> decide

end Sign

/-- The operators of a group that wait. -/
def waiting : List Sign → List Sign
  | [] => []
  | t :: later => if t.waits later then t :: waiting later else waiting later

theorem waiting_append_singleton (l : List Sign) (s : Sign) :
    waiting (l ++ [s]) = (waiting l).filter (fun t => !s.takes t) ++ [s] := by
  induction l with
  | nil => rfl
  | cons t l ih =>
    rw [List.cons_append, waiting, waiting, ih, Sign.waits, Sign.waits, List.all_append,
      List.all_cons, List.all_nil, Bool.and_true]
    by_cases hl : (l.all fun s => !s.takes t) = true
    · by_cases hs : s.takes t = true
      · simp [hl, hs]
      · simp [hl, hs]
    · simp [hl]

theorem mem_of_mem_waiting {l : List Sign} {t : Sign} (h : t ∈ waiting l) : t ∈ l := by
  induction l with
  | nil => exact h
  | cons a l ih =>
    rw [waiting] at h
    split_ifs at h
    · rcases List.mem_cons.mp h with rfl | h
      · exact List.mem_cons_self
      · exact List.mem_cons_of_mem _ (ih h)
    · exact List.mem_cons_of_mem _ (ih h)

/-- An operator that takes one that waits takes all that wait after it. -/
theorem pairwise_waiting (s : Sign) (l : List Sign) :
    (waiting l).Pairwise fun a b => s.takes a = true → s.takes b = true := by
  induction l with
  | nil => exact .nil
  | cons t l ih =>
    rw [waiting]
    split_ifs with hwaits
    · refine .cons (fun b hb ha => ?_) ih
      have hb' : ¬ b.takes t = true := by
        simpa using List.all_eq_true.mp hwaits b (mem_of_mem_waiting hb)
      -- `t` is binary, as it is taken, and `b` binds tighter or is `^`
      rcases t with _ | p
      · cases ha
      rcases b with _ | q
      · exact absurd (by cases p <;> rfl) hb'
      obtain ⟨hpow, hprec⟩ := Sign.takes_bin.mp ha
      rw [Sign.takes_bin, not_and, not_le] at hb'
      refine Sign.takes_bin.mpr ⟨hpow, ?_⟩
      by_cases hq : q = .pow
      · rw [hq]
        exact s.op.prec_le
      · exact hprec.trans (hb' hq).le
    · exact ih

/-- So the operators that wait are those that are left and then those that are taken. -/
theorem filter_append_filter {l : List Sign} {p : Sign → Bool}
    (h : l.Pairwise fun a b => p a = true → p b = true) :
    l.filter (fun t => !p t) ++ l.filter p = l := by
  induction l with
  | nil => rfl
  | cons t l ih =>
    obtain ⟨ht, hl⟩ := List.pairwise_cons.mp h
    by_cases hp : p t = true
    · have hall : ∀ b ∈ l, p b = true := fun b hb => ht b hb hp
      have hnone : l.filter (fun t => !p t) = [] := by
        rw [List.filter_eq_nil_iff]
        intro b hb
        simp [hall b hb]
      simp [hp, hnone, List.filter_eq_self.mpr hall]
    · simp [hp, ih hl]

/-! ## What has been read -/

/-- The innermost group that is open: its operators, and whether its last token is a number. -/
structure Group where
  ops : List Sign
  afterNum : Bool

/-- How the compiler reads an operator. -/
def Group.sign (g : Group) (o : Op) : Sign := if o = .sub ∧ g.afterNum = false then .neg else .bin o

/-- What has been read of a text. -/
structure Reading where
  inner : Group
  /-- The operators of the groups around it, from the inside. -/
  outer : List (List Sign)
  /-- How many numbers have been read. -/
  nums : ℕ
  /-- The operators that have been read, in closed groups too. -/
  signs : List Sign

namespace Reading

def start : Reading := ⟨⟨[], false⟩, [], 0, []⟩

/-- Read an operator. -/
def readSign (R : Reading) (s : Sign) : Reading :=
  ⟨⟨R.inner.ops ++ [s], false⟩, R.outer, R.nums, R.signs ++ [s]⟩

/-- Read a token. A parenthesis that closes no group has no reading. -/
def read (R : Reading) : Token → Option Reading
  | .num _ => some ⟨⟨R.inner.ops, true⟩, R.outer, R.nums + 1, R.signs⟩
  | .op o => some (R.readSign (R.inner.sign o))
  | .opening => some ⟨⟨[], false⟩, R.inner.ops :: R.outer, R.nums, R.signs⟩
  | .closing =>
    match R.outer with
    | [] => none
    | ops :: outer => some ⟨⟨ops, false⟩, outer, R.nums, R.signs⟩
  | .other => some R

/-- The operators that wait in the groups around the innermost one. -/
def outerWaiting (R : Reading) : List Sign := R.outer.flatMap waiting

/-- The operators that wait. -/
def allWaiting (R : Reading) : List Sign := waiting R.inner.ops ++ R.outerWaiting

/-- The operators of the outermost group. -/
def outermost (R : Reading) : List Sign := R.outer.getLastD R.inner.ops

/-- The first operator of the outermost group waits. -/
def FirstWaits (R : Reading) : Prop :=
  ∀ t later, R.outermost = t :: later → t.waits later = true

/-- The arrays are large enough for what has been read: nothing is read below the stack, the stack
holds the operators that wait and the parentheses, and the queue the numbers and the operators that
do not wait. -/
structure Fits (R : Reading) : Prop where
  firstWaits : R.FirstWaits
  stack : R.allWaiting.length + R.outer.length ≤ exprStackMaxSize
  queue : R.nums + R.signs.length ≤ exprStackMaxSize + R.allWaiting.length

end Reading

/-- The reading of a text, up to its end. -/
def reading (ts : List Token) : Option Reading := ts.foldlM Reading.read .start

end EvalExpr

end HEDB
