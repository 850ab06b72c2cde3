import HEDB.Pipeline.Failures
import HEDB.PlainOps.Faults
import HEDB.SharedMemory.Sessions

/-!
# Children that are killed by a signal

A child of the server that divides `int`s the wrong way is killed, and nobody answers the request
that it was serving: the backend waits for `DONE` for ever. Here the handler of the shared memory is
the one of a `Target`, on which such a division is the only thing that ends the process; what
becomes of a region when the handler leaves its arrays is an arbitrary function.

The handler of the target does what the model defines (`serveOn_of_some`). It kills the child
exactly on the operands of `CalcFaults` and on the expressions of `ExprRequestFaults`; the child
answers all other arithmetic requests and expressions (`answers_iff`).
-/

namespace HEDB

open Layout EvalExpr

namespace Target

/-! ## The handler on a target -/

section Service

variable (g : Gcm) {F : FloatOps} (T : Target F) (wild : OpsProcess → OpsProcess)

/-- `enc_int32_calc` on the target. -/
def encInt32Calc : OpsProcess → Option (ℤ × OpsProcess) :=
  encCalc g encInt32Length fun reqType l r =>
    (T.int32Calc reqType (bytesInt l) (bytesInt r)).map intBytes

/-- `enc_float32_calc` on the target. -/
def encFloat32Calc : OpsProcess → Option (ℤ × OpsProcess) :=
  encCalc g encFloat4Length fun reqType l r =>
    (T.floatCalc reqType (bytesFloat l) (bytesFloat r)).map floatBytes

/-- The index of the last argument of an expression. -/
def lastArg (m : Mem) : ℕ := (m.int exprArgCnt - 1).toNat

/-- The ciphertext of an argument. -/
def argCipher (m : Mem) (i : ℕ) : List UInt8 := m.read (exprItem i) encFloat4Length

/-- The array of arguments after the decryption. -/
def args (m : Mem) (i : Fin exprMaxSize) : UInt32 :=
  if i.val ≤ lastArg m then bytesFloat (g.gcmDecrypt (argCipher m i)).2 else T.junk i

/-- The branch of `CMD_FLOAT_EVAL_EXPR` runs on into that of `CMD_FLOAT_ENC`. -/
def thenFloatEnc (x : ℤ × OpsProcess) : Option OpsProcess :=
  (setResp (some x)).bind fun r => setResp (encEncrypt g .float r)

/-- The branch of `CMD_FLOAT_EVAL_EXPR` on the target. -/
def encFloat32EvalExpr (r : OpsProcess) : Option OpsProcess :=
  let code := (g.decryptBytes (argCipher r.mem (lastArg r.mem))).1
  if exprMaxSize ≤ lastArg r.mem then some (wild r)
  else if code ≠ 0 then thenFloatEnc g (code, r)
  else
    match signedString (r.mem.read (exprExpr + 4) stringLength) with
    | none => some (wild r)
    | some expr =>
      match T.evalRun (T.args g r.mem) expr [] with
      | .value x =>
        (encryptInto g r (floatBytes x) exprRes encFloat4Length).bind (thenFloatEnc g)
      | .outside => some (wild r)
      | .fault => none

/-- `handler` on the target: what it leaves, unless the process is killed. -/
def serveOn (r : OpsProcess) : Option OpsProcess :=
  match Cmd.ofCode (r.mem.int reqType) with
  | some .intPlus | some .intMinus | some .intMult | some .intDiv | some .intPow | some .intMod =>
    setResp (T.encInt32Calc g r)
  | some .floatPlus | some .floatMinus | some .floatMult | some .floatDiv | some .floatPow
  | some .floatMod => setResp (T.encFloat32Calc g r)
  | some .floatEvalExpr => T.encFloat32EvalExpr g wild r
  | _ => some ((handler g F r).getD (wild r))

end Service

variable {g : Gcm} {F : FloatOps} {T : Target F} {wild : OpsProcess → OpsProcess}
  {r r' : OpsProcess}

/-! ## The target and the model -/

theorem encCalc_mono {w : ℕ} {pc pc' : ℤ → List UInt8 → List UInt8 → Option (List UInt8)}
    (hpc : ∀ k x y v, pc k x y = some v → pc' k x y = some v) {z : ℤ × OpsProcess}
    (h : encCalc g w pc r = some z) : encCalc g w pc' r = some z := by
  unfold encCalc at h ⊢
  dsimp only at h ⊢
  split_ifs at h ⊢ with hcode
  · exact h
  · simp only [Option.bind_eq_bind, Option.bind_eq_some_iff] at h ⊢
    obtain ⟨x, hx, y, hy, res, hres, henc⟩ := h
    exact ⟨x, hx, y, hy, res, hpc _ _ _ _ hres, henc⟩

theorem encInt32Calc_of_some {z : ℤ × OpsProcess} (h : HEDB.encInt32Calc g F r = some z) :
    T.encInt32Calc g r = some z := by
  refine encCalc_mono (fun k x y v hv => ?_) h
  obtain ⟨w, hw, rfl⟩ := Option.map_eq_some_iff.mp hv
  exact Option.map_eq_some_iff.mpr ⟨w, T.int32Calc_of_some hw, rfl⟩

theorem encFloat32Calc_of_some {z : ℤ × OpsProcess} (h : HEDB.encFloat32Calc g F r = some z) :
    T.encFloat32Calc g r = some z := by
  refine encCalc_mono (fun k x y v hv => ?_) h
  obtain ⟨w, hw, rfl⟩ := Option.map_eq_some_iff.mp hv
  exact Option.map_eq_some_iff.mpr ⟨w, T.floatCalc_of_some hw, rfl⟩

theorem lt_length_argCipher (m : Mem) (i : ℕ) : ivSize + tagSize < (argCipher m i).length := by
  rw [argCipher, Mem.length_read]
  decide

theorem encFloat32EvalExpr_of_some {z : ℤ × OpsProcess}
    (h : HEDB.encFloat32EvalExpr g F r = some z) :
    T.encFloat32EvalExpr g wild r = thenFloatEnc g z := by
  unfold HEDB.encFloat32EvalExpr at h
  unfold encFloat32EvalExpr argCipher lastArg
  dsimp only at h ⊢
  by_cases hlast : exprMaxSize ≤ (r.mem.int exprArgCnt - 1).toNat
  · rw [if_pos hlast] at h
    split_ifs at h <;> cases h
  rw [if_neg hlast] at h ⊢
  split_ifs at h ⊢
  · cases h
    rfl
  · simp only [Option.bind_eq_bind, Option.bind_eq_some_iff] at h
    obtain ⟨expr, hexpr, res, hres, henc⟩ := h
    have hrun : T.evalRun (T.args g r.mem) expr [] = .value res := by
      refine evalRun_of_some (fun i v hv => ?_) hres
      split_ifs at hv with hi
      have hitem := Gcm.decryptBytes_of_lt (g := g) (lt_length_argCipher r.mem i)
      rw [argCipher] at hitem
      rw [hitem] at hv
      cases hv
      exact if_pos hi
    simp only [hexpr, hrun, henc, Option.bind_some]

/-- **The handler of a target does what the model defines.** -/
theorem serveOn_of_some (h : handler g F r = some r') : T.serveOn g wild r = some r' := by
  have hother : some ((handler g F r).getD (wild r)) = some r' := by rw [h, Option.getD_some]
  unfold serveOn
  unfold handler at h
  cases hcmd : Cmd.ofCode (r.mem.int reqType) with
  | none => exact hother
  | some cmd =>
    rw [hcmd] at h
    cases cmd
    case intPlus | intMinus | intMult | intDiv | intPow | intMod =>
      obtain ⟨z, hz, hset⟩ := Option.map_eq_some_iff.mp h
      exact Option.map_eq_some_iff.mpr ⟨z, encInt32Calc_of_some hz, hset⟩
    case floatPlus | floatMinus | floatMult | floatDiv | floatPow | floatMod =>
      obtain ⟨z, hz, hset⟩ := Option.map_eq_some_iff.mp h
      exact Option.map_eq_some_iff.mpr ⟨z, encFloat32Calc_of_some hz, hset⟩
    case floatEvalExpr =>
      obtain ⟨r₁, hr₁, henc⟩ := Option.bind_eq_some_iff.mp h
      obtain ⟨z, hz, hset⟩ := Option.map_eq_some_iff.mp hr₁
      refine (encFloat32EvalExpr_of_some hz).trans ?_
      rw [thenFloatEnc, setResp, Option.map_some, hset]
      exact henc
    all_goals exact hother

/-! ## What kills the child -/

/-- The operands of an arithmetic request fault. -/
def CalcFaults (T : Target F) : Num → CalcOp → List UInt8 → List UInt8 → Prop
  | .int, op, x, y => (op = .div ∨ op = .mod) ∧ DivFaults (bytesInt x) (bytesInt y)
  | .float, op, x, y => op = .mod ∧ DivFaults (T.toInt (bytesFloat x)) (T.toInt (bytesFloat y))

/-- The expression in the region is evaluated and faults on its arguments. -/
def ExprRequestFaults (g : Gcm) (T : Target F) (m : Mem) : Prop :=
  lastArg m < exprMaxSize ∧ g.Readable (argCipher m (lastArg m)) ∧
    ∃ expr, signedString (m.read (exprExpr + 4) stringLength) = some expr ∧
      T.EvalFaults (T.args g m) expr []

theorem encryptInto_ne_none {src : List UInt8} {o n : ℕ}
    (h : src.length + ivSize + tagSize = n) : encryptInto g r src o n ≠ none := by
  rw [encryptInto_eq h]
  exact Option.some_ne_none _

/-- An arithmetic request has no result when its right operand decrypts and the plain operation has
none. -/
theorem encCalc_eq_none_iff {w : ℕ}
    {pc : ℤ → List UInt8 → List UInt8 → Option (List UInt8)} (hw : ivSize + tagSize < w)
    (hpc : ∀ k x y v, pc k x y = some v → v.length + ivSize + tagSize = w) :
    encCalc g w pc r = none ↔ g.Readable (r.mem.read (calcRight w) w) ∧
      pc (r.mem.int reqType) (g.gcmDecrypt (r.mem.read calcLeft w)).2
        (g.gcmDecrypt (r.mem.read (calcRight w) w)).2 = none := by
  have hlen : ∀ o, ivSize + tagSize < (r.mem.read o w).length := by
    intro o
    rwa [Mem.length_read]
  unfold encCalc Gcm.decryptBytesPara Gcm.Readable
  rw [Gcm.decryptBytes_of_lt (hlen calcLeft), Gcm.decryptBytes_of_lt (hlen (calcRight w))]
  dsimp only
  split_ifs with hcode
  · exact iff_of_false id fun h => hcode h.1
  · rw [and_iff_right (not_not.mp hcode)]
    simp only [Option.bind_eq_bind, Option.bind_some]
    cases hres : pc (r.mem.int reqType) (g.gcmDecrypt (r.mem.read calcLeft w)).2
        (g.gcmDecrypt (r.mem.read (calcRight w) w)).2 with
    | none => exact iff_of_true rfl rfl
    | some v => exact iff_of_false (encryptInto_ne_none (hpc _ _ _ _ hres)) (Option.some_ne_none _)

/-- **The arithmetic requests that kill the child.** -/
theorem serveOn_calc_eq_none_iff {n : Num} {op : CalcOp} {a b : Bytes n.size}
    (h : (Request.calcNum n op a b).In r.mem) :
    T.serveOn g wild r = none ↔ g.Readable b.bytes ∧
      T.CalcFaults n op (g.gcmDecrypt a.bytes).2 (g.gcmDecrypt b.bytes).2 := by
  obtain ⟨ha, hb⟩ := h.calcNum
  have hreq : Cmd.ofCode (r.mem.int reqType) = some (n.calcCmd op) := by
    rw [h.reqType, Cmd.ofCode_code]
    rfl
  cases n with
  | int =>
    have hserve : T.serveOn g wild r = none ↔ T.encInt32Calc g r = none := by
      rw [serveOn, hreq]
      cases op <;> exact Option.map_eq_none_iff
    have hlen : ∀ k x y v, (T.int32Calc k (bytesInt x) (bytesInt y)).map intBytes = some v →
        v.length + ivSize + tagSize = encInt32Length := by
      intro k x y v hv
      obtain ⟨w, -, rfl⟩ := Option.map_eq_some_iff.mp hv
      rw [length_intBytes]
      rfl
    rw [hserve, encInt32Calc, encCalc_eq_none_iff (by decide) hlen, show encInt32Length =
      Num.int.size from rfl, ha, hb, Option.map_eq_none_iff, int32Calc_eq_none_iff, hreq]
    refine and_congr_right fun _ => and_congr_left fun _ => ?_
    cases op <;> decide
  | float =>
    have hserve : T.serveOn g wild r = none ↔ T.encFloat32Calc g r = none := by
      rw [serveOn, hreq]
      cases op <;> exact Option.map_eq_none_iff
    have hlen : ∀ k x y v, (T.floatCalc k (bytesFloat x) (bytesFloat y)).map floatBytes = some v →
        v.length + ivSize + tagSize = encFloat4Length := by
      intro k x y v hv
      obtain ⟨w, -, rfl⟩ := Option.map_eq_some_iff.mp hv
      rw [length_floatBytes]
      rfl
    rw [hserve, encFloat32Calc, encCalc_eq_none_iff (by decide) hlen, show encFloat4Length =
      Num.float.size from rfl, ha, hb, Option.map_eq_none_iff, floatCalc_eq_none_iff, hreq]
    refine and_congr_right fun _ => and_congr_left fun _ => ?_
    cases op <;> decide

theorem thenFloatEnc_ne_none (x : ℤ × OpsProcess) : thenFloatEnc g x ≠ none := by
  rw [thenFloatEnc, setResp, Option.map_some, Option.bind_some, ne_eq, setResp,
    Option.map_eq_none_iff]
  exact encryptInto_ne_none (by rw [Mem.length_read]; rfl)

/-- **The expressions that kill the child.** -/
theorem serveOn_expr_eq_none_iff (h : Cmd.ofCode (r.mem.int reqType) = some .floatEvalExpr) :
    T.serveOn g wild r = none ↔ T.ExprRequestFaults g r.mem := by
  rw [serveOn, h]
  show T.encFloat32EvalExpr g wild r = none ↔ _
  unfold encFloat32EvalExpr ExprRequestFaults Gcm.Readable
  dsimp only
  split_ifs with hlast hcode
  · exact iff_of_false id fun h => absurd h.1 (not_lt.mpr hlast)
  · exact iff_of_false (thenFloatEnc_ne_none _) fun h => hcode h.2.1
  · rw [and_iff_right (not_le.mp hlast), and_iff_right (not_not.mp hcode)]
    cases hexpr : signedString (r.mem.read (exprExpr + 4) stringLength) with
    | none => exact iff_of_false (Option.some_ne_none _) fun ⟨_, h, _⟩ => by cases h
    | some expr =>
      have hfault : (∃ e, some expr = some e ∧ T.EvalFaults (T.args g r.mem) e []) ↔
          T.evalRun (T.args g r.mem) expr [] = .fault := by
        rw [evalRun_eq_fault_iff]
        exact ⟨fun ⟨_, he, hf⟩ => Option.some_inj.mp he ▸ hf, fun hf => ⟨expr, rfl, hf⟩⟩
      rw [hfault]
      dsimp only
      cases T.evalRun (T.args g r.mem) expr [] with
      | value x =>
        have hlen : (floatBytes x).length + ivSize + tagSize = encFloat4Length := by
          rw [length_floatBytes]
          rfl
        simp only [encryptInto_eq hlen, Option.bind_some]
        exact iff_of_false (thenFloatEnc_ne_none _) EvalEnd.noConfusion
      | outside => exact iff_of_false (Option.some_ne_none _) EvalEnd.noConfusion
      | fault => exact iff_of_true rfl rfl

/-! ## The child and the backend -/

/-- Where a child is in the handler: before it, behind it, or killed in it. -/
inductive OpsLocal
  | running (iv : Bytes ivSize)
  | finished
  | killed

/-- The handler of the children of the server, on a target. -/
def opsHandler (g : Gcm) (T : Target F) (wild : OpsProcess → OpsProcess) :
    SharedMemory.Handler where
  Local := OpsLocal
  start seed := .running ⟨leBytes ivSize seed, length_leBytes ..⟩
  step := fun (l, m) =>
    match l with
    | .running iv =>
      match T.serveOn g wild ⟨m, iv⟩ with
      | some r => (.finished, r.mem)
      | none => (.killed, m)
    | l => (l, m)
  finished
    | .finished => true
    | _ => false

/-- A handler run ends unless the child is killed. -/
theorem endsOn_iff {m : Mem} : (opsHandler g T wild).EndsOn m ↔
    T.serveOn g wild ⟨m, ⟨leBytes ivSize 0, length_leBytes ..⟩⟩ ≠ none := by
  cases hserve : T.serveOn g wild ⟨m, ⟨leBytes ivSize 0, length_leBytes ..⟩⟩ with
  | some r =>
    refine iff_of_true ⟨1, ?_⟩ (Option.some_ne_none _)
    rw [Function.iterate_one]
    simp only [opsHandler, hserve]
  | none =>
    have hfirst : (opsHandler g T wild).step ((opsHandler g T wild).start 0, m) = (.killed, m) := by
      simp only [opsHandler, hserve]
    refine iff_of_false ?_ fun h => h rfl
    rintro ⟨n, hn⟩
    cases n with
    | zero => cases hn
    | succ n =>
      rw [Function.iterate_succ_apply, hfirst, Function.iterate_fixed rfl n] at hn
      cases hn

section Answers

open SharedMemory

/-- **The requests that are answered.** A child that polls its region answers an arithmetic request
unless the right operand decrypts and the operands fault, and an expression unless it faults on its
arguments. -/
theorem answers_iff (g : Gcm) (F : FloatOps) (T : Target F) (wild : OpsProcess → OpsProcess)
    (s : State (opsHandler g T wild)) (pid : ℕ) (r : Region) (c : ChildPc (opsHandler g T wild))
    (hch : s.children pid = some ⟨r, c⟩) (hc : c.Idle) (hsent : (s.regions r).status = .sent) :
    (∀ n op a b, (Request.calcNum n op a b).In (s.regions r).mem →
      (SharedMemory.Answers s pid r ↔ ¬ (g.Readable b.bytes ∧
        T.CalcFaults n op (g.gcmDecrypt a.bytes).2 (g.gcmDecrypt b.bytes).2))) ∧
    (∀ items expr h, (Request.evalExpr items expr h).In (s.regions r).mem →
      (SharedMemory.Answers s pid r ↔ ¬ T.ExprRequestFaults g (s.regions r).mem)) := by
  have hends : ∀ q : Request, q.In (s.regions r).mem →
      (SharedMemory.Answers s pid r ↔
        T.serveOn g wild ⟨(s.regions r).mem, ⟨leBytes ivSize 0, length_leBytes ..⟩⟩
        ≠ none) := by
    intro q hq
    rw [answers_iff_endsOn hch hc hsent (hq.reqType ▸ Cmd.code_pos _), endsOn_iff]
  constructor
  · intro n op a b hq
    rw [hends _ hq]
    exact not_congr (serveOn_calc_eq_none_iff hq)
  · intro items expr h hq
    rw [hends _ hq]
    exact not_congr (serveOn_expr_eq_none_iff (by rw [hq.reqType, Cmd.ofCode_code]; rfl))

/-! ## A backend that waits -/

/-- The handler on plaintexts in clear. -/
abbrev wrappingHandler : Handler := opsHandler Gcm.identity (wrapping FloatOps.null) id

/-- Encrypted `int`s. -/
theorem exists_operands (g : Gcm) (x y : ℤ) : ∃ a b : Bytes Num.int.size,
    g.Decrypts a.bytes (intBytes x) ∧ g.Decrypts b.bytes (intBytes y) := by
  have hcipher : ∀ v, ∃ c : Bytes Num.int.size, g.Decrypts c.bytes (intBytes v) :=
    fun v => g.exists_cipher (by rw [length_intBytes]; rfl)
  obtain ⟨a, ha⟩ := hcipher x
  obtain ⟨b, hb⟩ := hcipher y
  exact ⟨a, b, ha, hb⟩

theorem answers_iff_seven : ∃ (a b : Bytes Num.int.size) (s : State wrappingHandler),
    Gcm.identity.Decrypts a.bytes (intBytes 7) ∧ Gcm.identity.Decrypts b.bytes (intBytes 2) ∧
    Reach step (fun _ _ => True) (State.start wrappingHandler) s ∧
    s.backends 0 = .holding firstRegion (.waitDone (.calcNum .int .div a b)) ∧
    SharedMemory.Answers s 1 firstRegion := by
  obtain ⟨a, b, ha, hb⟩ := exists_operands Gcm.identity 7 2
  obtain ⟨s, hs, hwait, hch, hsent, hq⟩ :=
    exists_waiting (fun _ => True) wrappingHandler (.calcNum .int .div a b) trivial
      fun _ => trivial
  refine ⟨a, b, s, ha, hb, hs, hwait,
    ((answers_iff _ _ _ _ s 1 firstRegion _ hch .poll hsent).1 _ _ _ _ hq).mpr ?_⟩
  rw [ha, hb]
  rintro ⟨-, -, hdiv⟩
  exact absurd hdiv (by decide)

/-- **A backend that divides by zero waits for ever.** -/
theorem division_by_zero_unanswered : ∃ (a b : Bytes Num.int.size) (s : State wrappingHandler),
    Gcm.identity.Decrypts a.bytes (intBytes 1) ∧ Gcm.identity.Decrypts b.bytes (intBytes 0) ∧
    Reach step (fun _ _ => True) (State.start wrappingHandler) s ∧
    s.backends 0 = .holding firstRegion (.waitDone (.calcNum .int .div a b)) ∧
    s.children 1 = some ⟨firstRegion, .poll⟩ ∧ ¬ SharedMemory.Answers s 1 firstRegion := by
  obtain ⟨a, b, ha, hb⟩ := exists_operands Gcm.identity 1 0
  obtain ⟨s, hs, hwait, hch, hsent, hq⟩ :=
    exists_waiting (fun _ => True) wrappingHandler (.calcNum .int .div a b) trivial
      fun _ => trivial
  have hread : Gcm.identity.Readable b.bytes := by
    rw [Gcm.Readable, Gcm.decryptBytes_of_decrypts hb (by decide)]
  refine ⟨a, b, s, ha, hb, hs, hwait, hch, ?_⟩
  rw [answers_iff_endsOn hch .poll hsent (hq.reqType ▸ Cmd.code_pos _), endsOn_iff, not_not,
    serveOn_calc_eq_none_iff hq, ha, hb]
  exact ⟨hread, .inl rfl, by decide⟩

end Answers

end Target

end HEDB
