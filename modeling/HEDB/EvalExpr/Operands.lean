import HEDB.EvalExpr.Texts

/-!
# Operands of the evaluator

`plain_float_eval_expr` runs an operator where it stands in `out_queue`, that is, when it leaves the
stack of the compiler. It needs operands for it: as soon as an operator has left the stack, there
must be more numbers than binary operators that have left it (`Reading.Enough`). On a text that the
compiler accepts and whose numbers are arguments, the evaluator stays inside its arrays exactly if
this is so in every part of the text and at the end (`plainFloatEvalExpr_ne_none_iff`).
-/

namespace HEDB

namespace EvalExpr

/-! ## Operands -/

/-- How many of the operators are binary. -/
def bins (l : List Sign) : ℕ := l.countP Sign.isBin

/-- When operators have left the stack, there are more numbers than binary operators among them. -/
def Reading.Enough (R : Reading) : Prop :=
  R.signs.length ≤ R.allWaiting.length ∨ bins R.signs < R.nums + bins R.allWaiting

/-- There have been enough operands in every part of the text. -/
def EnoughSoFar (ts : List Token) : Prop :=
  ∀ pre R, pre <+: ts → reading pre = some R → R.Enough

/-- The evaluator has operands for every operator, when it leaves the stack of the compiler and at
the end. -/
def EnoughOperands (ts : List Token) : Prop :=
  EnoughSoFar ts ∧ ∀ R, reading ts = some R → bins R.signs < R.nums

section Evaluator

variable {α : Type} [Inhabited α] {A : Arith α} {args : List α}

theorem evalBytes_append (cs ds : List ℤ) (stack : List α) :
    Checked.evalBytes A args (cs ++ ds) stack =
      (Checked.evalBytes A args cs stack).bind (Checked.evalBytes A args ds) := by
  induction cs generalizing stack with
  | nil => rfl
  | cons c cs ih =>
    rw [List.cons_append, Checked.evalBytes, Checked.evalBytes, Option.bind_assoc]
    exact Option.bind_congr fun stack _ => ih stack

theorem evalByte_neg (stack : List α) : Checked.evalByte A args (code Sign.neg.char) stack =
    match stack with
    | [] => none
    | x :: stack => some (A.neg x :: stack) := by
  have hle : ¬ (args.length : ℤ) < code Sign.neg.char := by
    rw [code]
    omega
  rw [Checked.evalByte, if_neg hle]
  cases stack <;> rfl

theorem evalByte_bin (o : Op) (stack : List α) :
    Checked.evalByte A args (code (Sign.bin o).char) stack =
      match stack with
      | op1 :: op2 :: stack => some (applyOp A o.char op1 op2 :: stack)
      | _ => none := by
  have hle : ¬ (args.length : ℤ) < code (Sign.bin o).char := by
    rw [code]
    omega
  rw [Checked.evalByte, if_neg hle]
  cases o <;> (match stack with | [] | [_] | _ :: _ :: _ => rfl)

/-- **Operators on a stack**: they are run as long as a value is left. -/
theorem evalBytes_codes (l : List Sign) (stack : List α) :
    (l = [] ∨ bins l < stack.length →
      ∃ stack', Checked.evalBytes A args (codes l) stack = some stack' ∧
        stack'.length + bins l = stack.length) ∧
    (¬ (l = [] ∨ bins l < stack.length) → Checked.evalBytes A args (codes l) stack = none) := by
  induction l generalizing stack with
  | nil => exact ⟨fun _ => ⟨stack, rfl, rfl⟩, fun h => absurd (.inl rfl) h⟩
  | cons t l ih =>
    have hcons : codes (t :: l) = code t.char :: codes l := rfl
    rw [hcons, Checked.evalBytes]
    simp only [reduceCtorEq, false_or, not_lt]
    -- the rest runs on the stack that the first operator leaves
    have hrest : ∀ rest : List α, rest.length ≠ 0 → ∀ k, rest.length + k = stack.length →
        bins (t :: l) = bins l + k →
        (bins (t :: l) < stack.length →
          ∃ stack', Checked.evalBytes A args (codes l) rest = some stack' ∧
            stack'.length + bins (t :: l) = stack.length) ∧
        (stack.length ≤ bins (t :: l) → Checked.evalBytes A args (codes l) rest = none) := by
      intro rest hne k hk hbins
      have hlt : bins (t :: l) < stack.length → bins l < rest.length := by omega
      have hle : stack.length ≤ bins (t :: l) → ¬ (l = [] ∨ bins l < rest.length) := by
        rintro hle (hnil | hlt)
        · have hzero : bins l = 0 := by rw [hnil]; rfl
          omega
        · omega
      refine ⟨fun h => ?_, fun h => (ih rest).2 (hle h)⟩
      obtain ⟨stack', hstack', hlen⟩ := (ih rest).1 (.inr (hlt h))
      exact ⟨stack', hstack', by omega⟩
    cases t with
    | neg =>
      have hbins : bins (.neg :: l) = bins l := List.countP_cons_of_neg Bool.false_ne_true
      rw [evalByte_neg]
      match stack with
      | [] => exact ⟨fun h => absurd h (Nat.not_lt_zero _), fun _ => rfl⟩
      | x :: stack => exact hrest (A.neg x :: stack) (Nat.succ_ne_zero _) 0 rfl hbins
    | bin o =>
      have hbins : bins (.bin o :: l) = bins l + 1 := List.countP_cons_of_pos rfl
      rw [evalByte_bin]
      match stack with
      | [] => exact ⟨fun h => absurd h (Nat.not_lt_zero _), fun _ => rfl⟩
      | [_] =>
        refine ⟨fun h => ?_, fun _ => rfl⟩
        rw [hbins, List.length_singleton] at h
        omega
      | x :: y :: stack =>
        exact hrest (applyOp A o.char x y :: stack) (Nat.succ_ne_zero _) 1 rfl hbins

theorem numByte_eq {n : ℕ} (hn : n ≤ exprMaxSize) : numByte n = n := by
  have h8 : n ≤ 8 := hn
  interval_cases n <;> rfl

/-- A number pushes its argument. -/
theorem evalByte_num {n : ℕ} (h1 : 1 ≤ n) (hn : n ≤ args.length) (hm : args.length ≤ exprMaxSize)
    {stack : List α} (hl : stack.length < exprStackMaxSize) :
    ∃ x, Checked.evalByte A args (numByte n) stack = some (x :: stack) := by
  have hbyte := numByte_eq (hn.trans hm)
  have hle : ¬ (args.length : ℤ) < numByte n := by rw [hbyte]; omega
  have hpos : 0 < numByte n := by rw [hbyte]; omega
  have hidx : (numByte n - 1).toNat < exprMaxSize := by rw [hbyte]; omega
  rw [Checked.evalByte, if_neg hle, EvalExpr.evalByte.eq_def, if_pos hpos, dif_pos hidx, if_pos hl]
  exact ⟨_, rfl⟩

/-- A byte pushes at most one value. -/
theorem length_evalByte_le {c : ℤ} {stack stack' : List α}
    (h : Checked.evalByte A args c stack = some stack') : stack'.length ≤ stack.length + 1 := by
  unfold Checked.evalByte EvalExpr.evalByte at h
  split_ifs at h
  · cases h
    exact le_rfl
  · split at h
    · cases h
    · cases h
      exact Nat.le_succ _
  · split at h
    · cases h
      simp only [List.length_cons]
      omega
    · cases h

theorem length_evalBytes_le {cs : List ℤ} {stack stack' : List α}
    (h : Checked.evalBytes A args cs stack = some stack') :
    stack'.length ≤ stack.length + cs.length := by
  induction cs generalizing stack with
  | nil =>
    cases h
    exact le_rfl
  | cons c cs ih =>
    obtain ⟨st, hst, hrest⟩ := Option.bind_eq_some_iff.mp h
    have hfirst := length_evalByte_le hst
    have hlast := ih hrest
    rw [List.length_cons]
    omega

variable {R R' : Reading}

/-- Operators that leave the stack of the compiler are run exactly if there are still enough
operands. -/
theorem evalBytes_emitted {l : List Sign} {stack : List α}
    (hstack : stack.length + bins R.signs = R.nums + bins R.allWaiting) (henough : R.Enough)
    (hle : R.allWaiting.length ≤ R.signs.length) (hnums : R'.nums = R.nums)
    (hlen : R'.signs.length + R.allWaiting.length =
      R.signs.length + R'.allWaiting.length + l.length)
    (hbins : bins R'.signs + bins R.allWaiting = bins R.signs + bins R'.allWaiting + bins l) :
    (R'.Enough → ∃ stack', Checked.evalBytes A args (codes l) stack = some stack' ∧
      stack'.length + bins R'.signs = R'.nums + bins R'.allWaiting) ∧
    (¬ R'.Enough → Checked.evalBytes A args (codes l) stack = none) := by
  have hiff : R'.Enough ↔ l = [] ∨ bins l < stack.length := by
    unfold Reading.Enough at henough ⊢
    cases l with
    | nil =>
      have hzero : bins [] = 0 := rfl
      rw [List.length_nil] at hlen
      refine iff_of_true ?_ (.inl rfl)
      omega
    | cons t l =>
      rw [List.length_cons] at hlen
      simp only [reduceCtorEq, false_or]
      omega
  obtain ⟨hsome, hnone⟩ := @evalBytes_codes α _ A args l stack
  rw [hiff]
  refine ⟨fun h => ?_, hnone⟩
  obtain ⟨stack', hstack', hlen'⟩ := hsome h
  exact ⟨stack', hstack', by omega⟩

theorem enoughSoFar_append_singleton {ts : List Token} {t : Token} : EnoughSoFar (ts ++ [t]) ↔
    EnoughSoFar ts ∧ ∀ R, reading (ts ++ [t]) = some R → R.Enough := by
  constructor
  · intro h
    exact ⟨fun pre R hpre hR => h pre R (hpre.trans (List.prefix_append ..)) hR,
      fun R hR => h _ R List.prefix_rfl hR⟩
  · rintro ⟨hts, hlast⟩ pre R hpre hR
    rcases List.prefix_concat_iff.mp hpre with rfl | hpre
    · exact hlast R hR
    · exact hts pre R hpre hR

/-- What the evaluator makes of the bytes that the compiler has written. -/
structure Evaluates (A : Arith α) (args : List α) (ts : List Token) (R : Reading) (s : Conv) :
    Prop where
  nonzero : 0 ∉ s.out
  runs : EnoughSoFar ts → ∃ stack, Checked.evalBytes A args s.out [] = some stack ∧
    stack.length + bins R.signs = R.nums + bins R.allWaiting
  stops : ¬ EnoughSoFar ts → Checked.evalBytes A args s.out [] = none

theorem zero_notMem_codes (l : List Sign) : (0 : ℤ) ∉ codes l := by
  rw [codes, List.mem_map]
  rintro ⟨t, -, ht⟩
  rcases t with _ | o
  · cases ht
  · cases o <;> cases ht

variable {s s' : Conv} {t : Token}

/-- The bytes of one token. -/
theorem Follows.evalBytes_emits (h : Follows R s) (hfits : R'.Fits) (hread : R.read t = some R')
    (hm : args.length ≤ exprMaxSize) (hnum : ∀ n, t = .num n → 1 ≤ n ∧ n ≤ args.length)
    (henough : R.Enough) {stack : List α} (hlen : stack.length ≤ s.out.length)
    (hstack : stack.length + bins R.signs = R.nums + bins R.allWaiting) :
    (R'.Enough → ∃ stack', Checked.evalBytes A args (R.emits t) stack = some stack' ∧
      stack'.length + bins R'.signs = R'.nums + bins R'.allWaiting) ∧
    (¬ R'.Enough → Checked.evalBytes A args (R.emits t) stack = none) := by
  cases t with
  | num n =>
    cases hread
    obtain ⟨h1, hn⟩ := hnum n rfl
    have hroom : stack.length < exprStackMaxSize := by
      have hqueue : R.nums + 1 + R.signs.length ≤ exprStackMaxSize + R.allWaiting.length :=
        hfits.queue
      have hout := h.length
      omega
    obtain ⟨x, hx⟩ := @evalByte_num α _ A args n h1 hn hm stack hroom
    have hrun : Checked.evalBytes A args (R.emits (.num n)) stack = some (x :: stack) := by
      rw [Reading.emits, Checked.evalBytes, hx]
      rfl
    refine ⟨fun _ => ⟨x :: stack, hrun, ?_⟩, fun hnot => absurd ?_ hnot⟩
    · show stack.length + 1 + bins R.signs = R.nums + 1 + bins R.allWaiting
      omega
    · exact henough.imp id fun hlt => hlt.trans (Nat.add_lt_add_right (Nat.lt_succ_self _) _)
  | op o =>
    cases hread
    generalize hσ : R.inner.sign o = σ
    have hemits : R.emits (.op o) = codes (R.taken σ).reverse := by
      rw [Reading.emits, hσ]
      rfl
    rw [hemits]
    refine evalBytes_emitted hstack henough h.waiting_le rfl ?_ ?_
    · have hw := R.length_allWaiting σ
      have hw' := R.length_allWaiting_readSign σ
      have hsigns := R.length_signs_readSign σ
      rw [List.length_reverse]
      omega
    · show bins (R.signs ++ [σ]) + bins R.allWaiting =
        bins R.signs + bins (R.readSign σ).allWaiting + bins (R.taken σ).reverse
      rw [Reading.allWaiting, Reading.allWaiting, R.waiting_readSign, ← R.kept_append_taken σ,
        show (R.readSign σ).outerWaiting = R.outerWaiting from rfl]
      simp only [bins, List.countP_append, List.countP_reverse]
      omega
  | opening =>
    cases hread
    have hwaiting : Reading.allWaiting ⟨⟨[], false⟩, R.inner.ops :: R.outer, R.nums, R.signs⟩ =
        R.allWaiting := by
      rw [Reading.allWaiting, Reading.outerWaiting, List.flatMap_cons]
      rfl
    exact evalBytes_emitted (l := []) hstack henough h.waiting_le rfl (by rw [hwaiting]; rfl)
      (by rw [hwaiting]; rfl)
  | closing =>
    obtain ⟨ops, outer, houter, rfl⟩ := Reading.read_closing_eq_some hread
    have hwaiting : R.allWaiting = waiting R.inner.ops ++
        Reading.allWaiting ⟨⟨ops, false⟩, outer, R.nums, R.signs⟩ := by
      rw [Reading.allWaiting, Reading.outerWaiting, houter, List.flatMap_cons]
      rfl
    refine evalBytes_emitted hstack henough h.waiting_le rfl ?_ ?_
    · show R.signs.length + R.allWaiting.length = _
      rw [hwaiting, List.length_append, List.length_reverse]
      omega
    · rw [hwaiting]
      simp only [bins, List.countP_append, List.countP_reverse]
      omega
  | other =>
    cases hread
    exact evalBytes_emitted (l := []) hstack henough h.waiting_le rfl rfl rfl

theorem Reading.zero_notMem_emits (hnum : ∀ n, t = .num n → 1 ≤ n ∧ n ≤ exprMaxSize) :
    (0 : ℤ) ∉ R.emits t := by
  cases t with
  | num n =>
    obtain ⟨h1, hn⟩ := hnum n rfl
    rw [emits, numByte_eq hn, List.mem_singleton]
    omega
  | op => exact zero_notMem_codes _
  | opening => exact List.not_mem_nil
  | closing => exact zero_notMem_codes _
  | other => exact List.not_mem_nil

/-- **One token more.** -/
theorem Evaluates.step {ts : List Token} (h : Evaluates A args ts R s) (hts : reading ts = some R)
    (hfollows : Follows R s) (hfits : R'.Fits) (hread : R.read t = some R')
    (hout : s'.out = s.out ++ R.emits t) (hm : args.length ≤ exprMaxSize)
    (hnum : ∀ n, t = .num n → 1 ≤ n ∧ n ≤ args.length) : Evaluates A args (ts ++ [t]) R' s' := by
  have hread' : reading (ts ++ [t]) = some R' := by
    rw [reading_append_singleton, hts]
    exact hread
  have hsofar : EnoughSoFar (ts ++ [t]) ↔ EnoughSoFar ts ∧ R'.Enough := by
    rw [enoughSoFar_append_singleton, hread']
    exact and_congr_right fun _ => ⟨fun h => h R' rfl, fun h R hR => Option.some_inj.mp hR ▸ h⟩
  have hnonzero : (0 : ℤ) ∉ R.emits t :=
    R.zero_notMem_emits fun n ht => ⟨(hnum n ht).1, (hnum n ht).2.trans hm⟩
  refine ⟨?_, ?_, ?_⟩
  · rw [hout, List.mem_append]
    exact not_or.mpr ⟨h.nonzero, hnonzero⟩
  · rw [hsofar, hout, evalBytes_append]
    rintro ⟨henough, henough'⟩
    obtain ⟨stack, hrun, hstack⟩ := h.runs henough
    have hlen := length_evalBytes_le hrun
    rw [List.length_nil, Nat.zero_add] at hlen
    rw [hrun, Option.bind_some]
    exact (hfollows.evalBytes_emits hfits hread hm hnum (henough ts R List.prefix_rfl hts) hlen
      hstack).1 henough'
  · rw [hsofar, hout, evalBytes_append]
    intro hnot
    by_cases henough : EnoughSoFar ts
    · obtain ⟨stack, hrun, hstack⟩ := h.runs henough
      have hlen := length_evalBytes_le hrun
      rw [List.length_nil, Nat.zero_add] at hlen
      rw [hrun, Option.bind_some]
      exact (hfollows.evalBytes_emits hfits hread hm hnum (henough ts R List.prefix_rfl hts) hlen
        hstack).2 fun henough' => hnot ⟨henough, henough'⟩
    · rw [h.stops henough, Option.bind_none]

theorem evaluates_start (A : Arith α) (args : List α) : Evaluates A args [] .start .start := by
  refine ⟨List.not_mem_nil, fun _ => ⟨[], rfl, rfl⟩,
    fun hnot => absurd (fun pre R hpre hR => ?_) hnot⟩
  cases List.prefix_nil.mp hpre
  cases hR
  exact .inl le_rfl

/-- The end of the string: the operators that wait. -/
theorem Evaluates.finish {ts : List Token} (h : Evaluates A args ts R s) (hts : reading ts = some R)
    (hwaiting : R.allWaiting = waiting R.inner.ops) :
    Checked.plainFloatEvalExpr A args (s.out ++ codes (waiting R.inner.ops).reverse) ≠ none ↔
      EnoughOperands ts := by
  have hlast : (∀ R, reading ts = some R → bins R.signs < R.nums) ↔ bins R.signs < R.nums := by
    rw [hts]
    exact ⟨fun h => h R rfl, fun h R hR => Option.some_inj.mp hR ▸ h⟩
  rw [Checked.plainFloatEvalExpr, evalBytes_append, EnoughOperands, hlast]
  by_cases henough : EnoughSoFar ts
  · obtain ⟨stack, hrun, hstack⟩ := h.runs henough
    obtain ⟨hsome, hnone⟩ := @evalBytes_codes α _ A args (waiting R.inner.ops).reverse stack
    have hbins : bins (waiting R.inner.ops).reverse = bins (waiting R.inner.ops) :=
      List.countP_reverse
    rw [hwaiting] at hstack
    rw [hrun, Option.bind_some, and_iff_right henough]
    by_cases hcodes : (waiting R.inner.ops).reverse = [] ∨
        bins (waiting R.inner.ops).reverse < stack.length
    · obtain ⟨stack', hrun', hlen⟩ := hsome hcodes
      have hpos : bins R.signs < R.nums ↔ stack' ≠ [] := by
        rw [← List.length_pos_iff]
        omega
      rw [hrun', Option.bind_some, hpos, ne_eq, List.head?_eq_none_iff]
    · rw [hnone hcodes, Option.bind_none]
      refine iff_of_false (fun hne => hne rfl) ?_
      have hle := (not_or.mp hcodes).2
      omega
  · rw [h.stops henough, Option.bind_none, Option.bind_none]
    exact iff_of_false (fun hne => hne rfl) fun h => henough h.1

/-- **The evaluator stays inside exactly if it has enough operands**, on a text that the compiler
accepts and whose numbers are arguments. -/
theorem plainFloatEvalExpr_ne_none_iff {cs : List Char} (hin : Inside (tokens cs))
    (hends : EndsInside (tokens cs)) (hbal : Balanced (tokens cs))
    (hm : args.length ≤ exprMaxSize)
    (hnum : ∀ n, .num n ∈ tokens cs → 1 ≤ n ∧ n ≤ args.length) :
    ∃ expr, Checked.convertExpr cs = .ok expr ∧
      (Checked.plainFloatEvalExpr A args expr ≠ none ↔ EnoughOperands (tokens cs)) := by
  obtain ⟨R, hread, houter⟩ := hbal
  obtain ⟨s, hrun, hfollows, heval⟩ := run_induction
    (p := fun ts R s => (∀ n, .num n ∈ ts → 1 ≤ n ∧ n ≤ args.length) → Evaluates A args ts R s)
    (fun _ => evaluates_start A args)
    (fun ts t R R' s s' hts hfollows hfits hread hout hp hnum =>
      (hp fun n hn => hnum n (List.mem_append_left _ hn)).step hts hfollows hfits hread hout hm
        fun n ht => hnum n (by rw [ht]; exact List.mem_append_right _ List.mem_cons_self))
    hread hin
  have heval := heval hnum
  have hwaiting : R.allWaiting = waiting R.inner.ops := by
    rw [Reading.allWaiting, Reading.outerWaiting, houter, List.flatMap_nil, List.append_nil]
  have hall : (s.out ++ codes (waiting R.inner.ops).reverse).takeWhile (· ≠ 0) =
      s.out ++ codes (waiting R.inner.ops).reverse := by
    rw [List.takeWhile_eq_self_iff]
    intro b hb
    refine decide_eq_true fun hzero => ?_
    rw [hzero] at hb
    exact (List.mem_append.mp hb).elim heval.nonzero (zero_notMem_codes _)
  refine ⟨s.out ++ codes (waiting R.inner.ops).reverse, ?_, heval.finish hread hwaiting⟩
  rw [convertExpr_eq_ok hin hends hread houter hrun hfollows, hall]

end Evaluator

end EvalExpr

end HEDB
