import HEDB.EvalExpr.Reading

/-!
# The compiler follows the text

The state of `convert_expr` is that of what it has read (`Follows`): its stack consists of the
operators that wait and of the open parentheses, and everything else is in the queue. One token
keeps this as long as the arrays are large enough, and otherwise the compiler leaves them
(`Follows.read`).
-/

namespace HEDB

namespace EvalExpr

/-! ## States -/

/-- The part of `op_stack` that belongs to the groups around the innermost one. -/
def Reading.outerStack (R : Reading) : List Char :=
  R.outer.flatMap fun ops => '(' :: ((waiting ops).map Sign.char).reverse

/-- What is on `op_stack`. -/
def Reading.stackOf (R : Reading) : List Char :=
  ((waiting R.inner.ops).map Sign.char).reverse ++ R.outerStack

/-- The state of the compiler is that of the reading. -/
structure Follows (R : Reading) (s : Conv) : Prop where
  ops : s.ops = R.stackOf
  expectOp : s.expectOp = R.inner.afterNum
  length : s.out.length + R.allWaiting.length = R.nums + R.signs.length
  waiting_le : R.allWaiting.length ≤ R.signs.length

/-- The bytes of operators. -/
def codes (l : List Sign) : List ℤ := l.map fun t => code t.char

/-- The bytes that a token adds to the queue. -/
def Reading.emits (R : Reading) : Token → List ℤ
  | .num n => [numByte n]
  | .op o => codes ((waiting R.inner.ops).filter (R.inner.sign o).takes).reverse
  | .opening => []
  | .closing => codes (waiting R.inner.ops).reverse
  | .other => []

/-- A loop that writes the operators that it pops, as far as there is room. -/
theorem pops_append {β : Type} {f : List Char → List ℤ → Except Stop β} {p : Sign → Prop}
    (hf : ∀ (t : Sign) ops out, p t → f (t.char :: ops) out =
      Checked.write (code t.char) out >>= f ops)
    {l : List Sign} (hl : ∀ t ∈ l, p t) (below : List Char) {out : List ℤ}
    (hout : out.length ≤ exprStackMaxSize) : f (l.map Sign.char ++ below) out =
      if out.length + l.length ≤ exprStackMaxSize then f below (out ++ codes l)
      else .error .outside := by
  induction l generalizing out with
  | nil =>
    rw [List.length_nil, Nat.add_zero, if_pos hout, codes, List.map_nil, List.map_nil,
      List.append_nil]
    rfl
  | cons t l ih =>
    rw [List.map_cons, List.cons_append, hf _ _ _ (hl t List.mem_cons_self), Checked.write]
    by_cases hlt : out.length < exprStackMaxSize
    · have hlen : (out ++ [code t.char]).length = out.length + 1 := by simp
      have hstep : (.ok (out ++ [code t.char]) : Except Stop (List ℤ)) >>=
          f (l.map Sign.char ++ below) = f (l.map Sign.char ++ below) (out ++ [code t.char]) := rfl
      rw [if_pos hlt, hstep, ih (fun t ht => hl t (List.mem_cons_of_mem _ ht)) (by omega), hlen,
        List.length_cons, Nat.add_right_comm, Nat.add_assoc, codes, codes, List.map_cons,
        List.append_assoc]
      rfl
    · rw [if_neg hlt, if_neg (by rw [List.length_cons]; omega)]
      rfl

variable {R R' : Reading} {s : Conv}

theorem Reading.outermost_eq_of_outer (R : Reading) {ops : List Sign} {outer : List (List Sign)}
    (h : R.outer = ops :: outer) : R.outermost = outer.getLastD ops := by
  rw [outermost, h, List.getLastD_cons]

/-- The state of the compiler is within its arrays. -/
theorem Follows.length_le (h : Follows R s) (hfits : R.Fits) : s.out.length ≤ exprStackMaxSize := by
  have hlen := h.length
  have hqueue := hfits.queue
  omega

theorem Reading.length_outerStack (R : Reading) :
    R.outerStack.length = R.outerWaiting.length + R.outer.length := by
  rw [outerStack, outerWaiting]
  induction R.outer with
  | nil => rfl
  | cons g gs ih =>
    simp only [List.flatMap_cons, List.length_append, ih, List.length_cons, List.length_reverse,
      List.length_map]
    omega

theorem Reading.length_stackOf (R : Reading) :
    R.stackOf.length = R.allWaiting.length + R.outer.length := by
  rw [stackOf, allWaiting, List.length_append, R.length_outerStack, List.length_reverse,
    List.length_map, List.length_append]
  omega

theorem Reading.stackOf_eq_nil (R : Reading) :
    R.stackOf = [] ↔ waiting R.inner.ops = [] ∧ R.outer = [] := by
  rw [← List.length_eq_zero_iff, R.length_stackOf, ← List.length_eq_zero_iff,
    ← List.length_eq_zero_iff, allWaiting, List.length_append]
  constructor
  · intro h
    omega
  · rintro ⟨hw, houter⟩
    rw [outerWaiting, List.length_eq_zero_iff.mp houter, hw]
    rfl

/-! ### Operators -/

theorem Group.sign_op (g : Group) (o : Op) : (g.sign o).op = o := by
  unfold sign
  split_ifs with h
  · exact h.1.symm
  · rfl

theorem Group.sign_char (g : Group) (o : Op) :
    (if !g.afterNum ∧ o.char = '-' then '#' else o.char) = (g.sign o).char := by
  unfold sign
  cases o <;> cases g.afterNum <;> rfl

section Operator

variable (R) (σ : Sign)

/-- The operators of the innermost group that are left when `σ` is read. -/
def Reading.kept : List Sign := (waiting R.inner.ops).filter fun t => !σ.takes t

/-- The operators that are taken when `σ` is read. -/
def Reading.taken : List Sign := (waiting R.inner.ops).filter σ.takes

theorem Reading.kept_append_taken : R.kept σ ++ R.taken σ = waiting R.inner.ops :=
  filter_append_filter (pairwise_waiting σ _)

theorem Reading.waiting_readSign : waiting (R.readSign σ).inner.ops = R.kept σ ++ [σ] :=
  waiting_append_singleton ..

theorem Reading.length_allWaiting_readSign : (R.readSign σ).allWaiting.length =
    (R.kept σ).length + 1 + R.outerWaiting.length := by
  rw [allWaiting, R.waiting_readSign, List.length_append, List.length_append]
  rfl

theorem Reading.length_allWaiting : R.allWaiting.length =
    (R.kept σ).length + (R.taken σ).length + R.outerWaiting.length := by
  rw [allWaiting, ← R.kept_append_taken σ, List.length_append, List.length_append]

theorem Reading.length_signs_readSign : (R.readSign σ).signs.length = R.signs.length + 1 := by
  rw [readSign, List.length_append, List.length_singleton]

variable {R σ}

/-- The first operator of the outermost group still waits unless `σ` takes all that there is. -/
theorem Reading.FirstWaits.readSign_iff (h : R.FirstWaits) :
    (R.readSign σ).FirstWaits ↔ R.outer ≠ [] ∨ R.kept σ ≠ [] ∨ waiting R.inner.ops = [] := by
  cases houter : R.outer with
  | cons g gs =>
    refine iff_of_true ?_ (.inl (List.cons_ne_nil _ _))
    intro t later hfirst
    refine h t later ?_
    rw [R.outermost_eq_of_outer houter, ← hfirst, (R.readSign σ).outermost_eq_of_outer houter]
  | nil =>
    have hout : R.outermost = R.inner.ops := by rw [outermost, houter]; rfl
    have hout' : (R.readSign σ).outermost = R.inner.ops ++ [σ] := by
      rw [outermost, readSign, houter]
      rfl
    unfold FirstWaits
    rw [hout']
    cases hops : R.inner.ops with
    | nil =>
      refine iff_of_true ?_ (.inr (.inr rfl))
      rintro t later ⟨⟩
      rfl
    | cons f later =>
      have hf : f.waits later = true := h f later (hout.trans hops)
      have hw : waiting (f :: later) = f :: waiting later := by rw [waiting, if_pos hf]
      have hkept : R.kept σ ≠ [] ↔ ¬ σ.takes f = true := by
        constructor
        · rintro hne htakes
          refine hne (List.filter_eq_nil_iff.mpr fun t ht => ?_)
          have hpair := pairwise_waiting σ R.inner.ops
          rw [hops, hw] at hpair ht
          rcases List.mem_cons.mp ht with rfl | ht
          · simp [htakes]
          · simp [(List.pairwise_cons.mp hpair).1 t ht htakes]
        · intro htakes
          rw [kept, hops, hw, List.filter_cons_of_pos (by simpa using htakes)]
          exact List.cons_ne_nil _ _
      rw [hw, hkept]
      simp only [ne_eq, not_true_eq_false, reduceCtorEq, or_false, false_or]
      constructor
      · intro hall htakes
        have hwaits := hall f (later ++ [σ]) rfl
        simp [Sign.waits, htakes] at hwaits
      · rintro htakes t rest ⟨⟩
        simpa [Sign.waits, htakes] using hf

theorem Follows.fits_readSign_iff (h : Follows R s) (hfits : R.Fits) : (R.readSign σ).Fits ↔
    (R.outer ≠ [] ∨ R.kept σ ≠ [] ∨ waiting R.inner.ops = []) ∧
      s.out.length + (R.taken σ).length ≤ exprStackMaxSize ∧
      (R.kept σ).length + R.outerWaiting.length + R.outer.length < exprStackMaxSize := by
  have hw := R.length_allWaiting σ
  have hw' := R.length_allWaiting_readSign σ
  have hsigns := R.length_signs_readSign σ
  have houter : (R.readSign σ).outer.length = R.outer.length := rfl
  have hnums : (R.readSign σ).nums = R.nums := rfl
  have hlen := h.length
  rw [← hfits.firstWaits.readSign_iff]
  constructor
  · rintro ⟨hfirst, hstack, hqueue⟩
    exact ⟨hfirst, by omega, by omega⟩
  · rintro ⟨hfirst, hqueue, hstack⟩
    exact ⟨hfirst, by omega, by omega⟩

end Operator

/-! ## Tokens -/

section Steps

theorem Reading.stackOf_eq (R : Reading) (σ : Sign) : R.stackOf =
    (R.taken σ).reverse.map Sign.char ++ (((R.kept σ).map Sign.char).reverse ++ R.outerStack) := by
  rw [stackOf, ← R.kept_append_taken σ, List.map_append, List.reverse_append, List.map_reverse,
    List.append_assoc]

/-- The loop stops at an operator that is left or at a parenthesis. -/
theorem popLoop_below {σ : Sign} {out : List ℤ}
    (h : R.outer ≠ [] ∨ R.kept σ ≠ []) :
    Checked.popLoop σ.op.char (((R.kept σ).map Sign.char).reverse ++ R.outerStack) out =
      .ok (((R.kept σ).map Sign.char).reverse ++ R.outerStack, out) := by
  rcases List.eq_nil_or_concat (R.kept σ) with hkept | ⟨l, t, hkept⟩
  · obtain ⟨g, gs, houter⟩ := List.exists_cons_of_ne_nil (h.resolve_right fun hne => hne hkept)
    rw [hkept, Reading.outerStack, houter, List.flatMap_cons]
    exact if_neg fun hpop => hpop.1 rfl
  · have ht : ¬ σ.takes t = true := by
      have hmem : t ∈ R.kept σ := by rw [hkept]; simp
      simpa using (List.mem_filter.mp hmem).2
    rw [hkept, List.concat_eq_append, List.map_append, List.reverse_append]
    exact if_neg fun hpop => ht ((σ.takes_iff t).mpr hpop)

theorem Follows.popOps (h : Follows R s) (hfits : R.Fits) (σ : Sign) :
    Checked.popOps σ.op.char s.ops s.out =
      if (R.outer ≠ [] ∨ R.kept σ ≠ [] ∨ waiting R.inner.ops = []) ∧
          s.out.length + (R.taken σ).length ≤ exprStackMaxSize then
        .ok (((R.kept σ).map Sign.char).reverse ++ R.outerStack, s.out ++ codes (R.taken σ).reverse)
      else .error .outside := by
  have hlen := h.length_le hfits
  have hloop : Checked.popLoop σ.op.char R.stackOf s.out =
      if s.out.length + (R.taken σ).length ≤ exprStackMaxSize then
        Checked.popLoop σ.op.char (((R.kept σ).map Sign.char).reverse ++ R.outerStack)
          (s.out ++ codes (R.taken σ).reverse)
      else .error .outside := by
    rw [R.stackOf_eq σ, pops_append (f := Checked.popLoop σ.op.char)
      (p := fun t => σ.takes t = true) _ _ _ hlen, List.length_reverse]
    · intro t ops out ht
      exact if_pos ((σ.takes_iff t).mp ht)
    · intro t ht
      exact (List.mem_filter.mp (List.mem_reverse.mp ht)).2
  rw [Checked.popOps, h.ops]
  by_cases hnil : R.stackOf = []
  · obtain ⟨hw, houter⟩ := R.stackOf_eq_nil.mp hnil
    have hkept : R.kept σ = [] := by rw [Reading.kept, hw, List.filter_nil]
    have htaken : R.taken σ = [] := by rw [Reading.taken, hw, List.filter_nil]
    rw [if_pos hnil, if_pos ⟨.inr (.inr hw), by rwa [htaken]⟩, hkept, htaken, Reading.outerStack,
      houter]
    simp [codes]
  rw [if_neg hnil, hloop]
  by_cases hroom : s.out.length + (R.taken σ).length ≤ exprStackMaxSize
  · rw [if_pos hroom]
    by_cases hbelow : R.outer ≠ [] ∨ R.kept σ ≠ []
    · rw [popLoop_below hbelow, if_pos ⟨hbelow.imp_right .inl, hroom⟩]
    · obtain ⟨houter, hkept⟩ := not_or.mp hbelow
      rw [not_not] at houter hkept
      have hw : ¬ waiting R.inner.ops = [] := fun hw => hnil (R.stackOf_eq_nil.mpr ⟨hw, houter⟩)
      rw [if_neg (by simp [houter, hkept, hw]), hkept, Reading.outerStack, houter]
      rfl
  · rw [if_neg hroom, if_neg fun h => hroom h.2]

/-- **An operator is read.** -/
theorem Follows.read_op (h : Follows R s) (hfits : R.Fits) (o : Op) :
    ((R.readSign (R.inner.sign o)).Fits → ∃ s', Checked.convertChar o.char s = .ok s' ∧
      Follows (R.readSign (R.inner.sign o)) s' ∧ s'.out = s.out ++ R.emits (.op o)) ∧
    (¬ (R.readSign (R.inner.sign o)).Fits →
      Checked.convertChar o.char s = .error .outside) := by
  generalize hσ : R.inner.sign o = σ
  have hpop := h.popOps hfits σ
  have hchar := R.inner.sign_char o
  rw [← hσ, R.inner.sign_op, hσ] at hpop
  rw [← h.expectOp, hσ] at hchar
  have hlen : (((R.kept σ).map Sign.char).reverse ++ R.outerStack).length =
      (R.kept σ).length + R.outerWaiting.length + R.outer.length := by
    rw [List.length_append, R.length_outerStack, List.length_reverse, List.length_map]
    omega
  rw [h.fits_readSign_iff hfits, Checked.convertChar, if_pos o.isOperator_char, hpop, hchar]
  constructor
  · rintro ⟨hfirst, hqueue, hstack⟩
    refine ⟨⟨σ.char :: (((R.kept σ).map Sign.char).reverse ++ R.outerStack),
      s.out ++ codes (R.taken σ).reverse, false⟩, ?_, ⟨?_, rfl, ?_, ?_⟩, ?_⟩
    · rw [if_pos ⟨hfirst, hqueue⟩]
      show (Checked.pushOp _ _ >>= fun ops => pure _) = _
      rw [Checked.pushOp, if_pos (by rw [hlen]; exact hstack)]
      rfl
    · rw [Reading.stackOf, R.waiting_readSign, List.map_append, List.reverse_append]
      rfl
    · have hw := R.length_allWaiting σ
      have hw' := R.length_allWaiting_readSign σ
      have hsigns := R.length_signs_readSign σ
      have hout := h.length
      have hnums : (R.readSign σ).nums = R.nums := rfl
      rw [List.length_append, codes, List.length_map, List.length_reverse]
      omega
    · have hw := R.length_allWaiting σ
      have hle := h.waiting_le
      rw [R.length_allWaiting_readSign, R.length_signs_readSign]
      omega
    · rw [Reading.emits, hσ]
      rfl
  · intro hnot
    by_cases hfirst : (R.outer ≠ [] ∨ R.kept σ ≠ [] ∨ waiting R.inner.ops = []) ∧
        s.out.length + (R.taken σ).length ≤ exprStackMaxSize
    · rw [if_pos hfirst]
      show (Checked.pushOp _ _ >>= fun ops => pure _) = _
      rw [Checked.pushOp, if_neg (by rw [hlen]; exact fun hlt => hnot ⟨hfirst.1, hfirst.2, hlt⟩)]
      rfl
    · rw [if_neg hfirst]
      rfl

/-- The loops that pop the innermost group. -/
theorem Follows.pops_inner (h : Follows R s) (hfits : R.Fits) {β : Type}
    {f : List Char → List ℤ → Except Stop β}
    (hf : ∀ (t : Sign) ops out, f (t.char :: ops) out =
      Checked.write (code t.char) out >>= f ops) :
    f s.ops s.out =
      if R.nums + R.signs.length ≤ exprStackMaxSize + R.outerWaiting.length then
        f R.outerStack (s.out ++ codes (waiting R.inner.ops).reverse)
      else .error .outside := by
  have hlen := h.length
  rw [Reading.allWaiting, List.length_append] at hlen
  rw [h.ops, Reading.stackOf, ← List.map_reverse, pops_append (f := f) (p := fun _ => True)
    (fun t ops out _ => hf t ops out) (fun _ _ => trivial) _ (h.length_le hfits),
    List.length_reverse]
  refine if_congr ?_ rfl rfl
  omega

theorem popParen_sign (t : Sign) (ops : List Char) (out : List ℤ) :
    Checked.popParen (t.char :: ops) out =
      Checked.write (code t.char) out >>= Checked.popParen ops :=
  if_neg t.char_ne_opening

theorem popAll_sign (t : Sign) (ops : List Char) (out : List ℤ) :
    Checked.popAll (t.char :: ops) out = Checked.write (code t.char) out >>= Checked.popAll ops :=
  if_neg t.char_ne_opening

theorem convertChar_opening (s : Conv) : Checked.convertChar '(' s =
    (Checked.pushOp '(' s.ops >>= fun ops => pure ⟨ops, s.out, false⟩) := rfl

theorem convertChar_closing (s : Conv) : Checked.convertChar ')' s =
    (Checked.popParen s.ops s.out >>= fun z => pure ⟨z.1, z.2, false⟩) := rfl

/-- A parenthesis that closes no group. -/
theorem Follows.read_unmatched (h : Follows R s) (hfits : R.Fits) (houter : R.outer = []) :
    readToken s .closing =
      .error (if R.nums + R.signs.length ≤ exprStackMaxSize then .exit else .outside) := by
  have hwaiting : R.outerWaiting = [] := by rw [Reading.outerWaiting, houter, List.flatMap_nil]
  have hstack : R.outerStack = [] := by rw [Reading.outerStack, houter, List.flatMap_nil]
  rw [readToken, convertChar_closing, h.pops_inner hfits popParen_sign, hwaiting, hstack,
    List.length_nil, Nat.add_zero]
  split_ifs <;> rfl

theorem Follows.read_num (h : Follows R s) (hfits : R.Fits) (n : ℕ)
    (hread : R.read (.num n) = some R') :
    (R'.Fits → ∃ s', readToken s (.num n) = .ok s' ∧ Follows R' s' ∧
      s'.out = s.out ++ R.emits (.num n)) ∧
    (¬ R'.Fits → readToken s (.num n) = .error .outside) := by
  cases hread
  have hlen := h.length
  have hiff : Reading.Fits ⟨⟨R.inner.ops, true⟩, R.outer, R.nums + 1, R.signs⟩ ↔
      s.out.length < exprStackMaxSize := by
    refine ⟨fun hfits' => ?_, fun hlt => ⟨hfits.firstWaits, hfits.stack, ?_⟩⟩
    · have hqueue : R.nums + 1 + R.signs.length ≤ exprStackMaxSize + R.allWaiting.length :=
        hfits'.queue
      omega
    · show R.nums + 1 + R.signs.length ≤ exprStackMaxSize + R.allWaiting.length
      omega
  rw [hiff, readToken, Checked.write]
  constructor
  · intro hlt
    refine ⟨⟨s.ops, s.out ++ [numByte n], true⟩, by rw [if_pos hlt]; rfl,
      ⟨h.ops, rfl, ?_, h.waiting_le⟩, rfl⟩
    show (s.out ++ [numByte n]).length + R.allWaiting.length = R.nums + 1 + R.signs.length
    rw [List.length_append, List.length_singleton]
    omega
  · intro hlt
    rw [if_neg hlt]
    rfl

theorem Follows.read_opening (h : Follows R s) (hfits : R.Fits)
    (hread : R.read .opening = some R') :
    (R'.Fits → ∃ s', readToken s .opening = .ok s' ∧ Follows R' s' ∧
      s'.out = s.out ++ R.emits .opening) ∧
    (¬ R'.Fits → readToken s .opening = .error .outside) := by
  cases hread
  generalize hR' : (⟨⟨[], false⟩, R.inner.ops :: R.outer, R.nums, R.signs⟩ : Reading) = R'
  have hwaiting : R'.allWaiting = R.allWaiting := by
    rw [← hR', Reading.allWaiting, Reading.outerWaiting, List.flatMap_cons]
    rfl
  have hstack : R'.stackOf = '(' :: R.stackOf := by
    rw [← hR', Reading.stackOf, Reading.outerStack, List.flatMap_cons]
    rfl
  have houtermost : R'.outermost = R.outermost := by
    rw [← hR', Reading.outermost, List.getLastD_cons]
    rfl
  have hiff : R'.Fits ↔ s.ops.length < exprStackMaxSize := by
    have hlen := R.length_stackOf
    have houter : R'.outer.length = R.outer.length + 1 := by rw [← hR', List.length_cons]
    rw [h.ops]
    refine ⟨fun hfits' => ?_, fun hlt => ⟨?_, ?_, ?_⟩⟩
    · have := hfits'.stack
      rw [hwaiting] at this
      omega
    · intro t later hfirst
      exact hfits.firstWaits t later (houtermost.symm.trans hfirst)
    · rw [hwaiting]
      omega
    · rw [hwaiting, ← hR']
      exact hfits.queue
  rw [hiff, readToken, convertChar_opening, Checked.pushOp]
  constructor
  · intro hlt
    refine ⟨⟨'(' :: s.ops, s.out, false⟩, by rw [if_pos hlt]; rfl, ⟨?_, ?_, ?_, ?_⟩,
      (List.append_nil _).symm⟩
    · rw [hstack, h.ops]
    · rw [← hR']
    · rw [hwaiting, ← hR']
      exact h.length
    · rw [hwaiting, ← hR']
      exact h.waiting_le
  · intro hlt
    rw [if_neg hlt]
    rfl

theorem Reading.read_closing_eq_some (hread : R.read .closing = some R') :
    ∃ ops outer, R.outer = ops :: outer ∧ ⟨⟨ops, false⟩, outer, R.nums, R.signs⟩ = R' := by
  cases houter : R.outer with
  | nil =>
    rw [Reading.read, houter] at hread
    cases hread
  | cons ops outer =>
    rw [Reading.read, houter] at hread
    exact ⟨ops, outer, rfl, Option.some_inj.mp hread⟩

theorem Follows.read_closing (h : Follows R s) (hfits : R.Fits)
    (hread : R.read .closing = some R') :
    (R'.Fits → ∃ s', readToken s .closing = .ok s' ∧ Follows R' s' ∧
      s'.out = s.out ++ R.emits .closing) ∧
    (¬ R'.Fits → readToken s .closing = .error .outside) := by
  obtain ⟨ops, outer, houter, hR'⟩ := Reading.read_closing_eq_some hread
  have hnums : R'.nums = R.nums := by rw [← hR']
  have hsigns : R'.signs = R.signs := by rw [← hR']
  have hwaiting : R.outerWaiting = R'.allWaiting := by
    rw [← hR', Reading.outerWaiting, houter, List.flatMap_cons]
    rfl
  have hstack : R.outerStack = '(' :: R'.stackOf := by
    rw [← hR', Reading.outerStack, houter, List.flatMap_cons]
    rfl
  have houtermost : R'.outermost = R.outermost := by
    rw [R.outermost_eq_of_outer houter, ← hR']
    rfl
  have hall : R.allWaiting.length = (waiting R.inner.ops).length + R'.allWaiting.length := by
    rw [Reading.allWaiting, List.length_append, hwaiting]
  have hiff : R'.Fits ↔ R.nums + R.signs.length ≤ exprStackMaxSize + R.outerWaiting.length := by
    rw [hwaiting]
    refine ⟨fun hfits' => ?_, fun hle => ⟨?_, ?_, ?_⟩⟩
    · have hqueue := hfits'.queue
      rwa [hnums, hsigns] at hqueue
    · intro t later hfirst
      exact hfits.firstWaits t later (houtermost.symm.trans hfirst)
    · have := hfits.stack
      have hlen : R.outer.length = R'.outer.length + 1 := by rw [houter, ← hR', List.length_cons]
      omega
    · rwa [hnums, hsigns]
  rw [hiff, readToken, convertChar_closing, h.pops_inner hfits popParen_sign, hstack]
  constructor
  · intro hle
    refine ⟨⟨R'.stackOf, s.out ++ codes (waiting R.inner.ops).reverse, false⟩,
      by rw [if_pos hle]; rfl, ⟨rfl, ?_, ?_, ?_⟩, rfl⟩
    · rw [← hR']
    · have hlen := h.length
      rw [List.length_append, codes, List.length_map, List.length_reverse, hnums, hsigns]
      omega
    · have hle := h.waiting_le
      rw [hsigns]
      omega
  · intro hle
    rw [if_neg hle]
    rfl

/-- **One token.** The compiler goes on as long as the arrays are large enough. -/
theorem Follows.read (h : Follows R s) (hfits : R.Fits) {t : Token} (hread : R.read t = some R') :
    (R'.Fits → ∃ s', readToken s t = .ok s' ∧ Follows R' s' ∧ s'.out = s.out ++ R.emits t) ∧
    (¬ R'.Fits → readToken s t = .error .outside) := by
  cases t with
  | num n => exact h.read_num hfits n hread
  | op o =>
    cases hread
    exact h.read_op hfits o
  | opening => exact h.read_opening hfits hread
  | closing => exact h.read_closing hfits hread
  | other =>
    cases hread
    exact ⟨fun _ => ⟨s, rfl, h, (List.append_nil _).symm⟩, fun hnot => absurd hfits hnot⟩

end Steps

end EvalExpr

end HEDB
