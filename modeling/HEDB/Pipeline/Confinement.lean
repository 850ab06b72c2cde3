import HEDB.Pipeline.Failures

/-!
# What the handler writes

A branch of the handler writes to the result field of its request and to `resp`
(`confined_operation`), with two exceptions (`Confines`):

* `CMD_FLOAT_EVAL_EXPR` runs on into `CMD_FLOAT_ENC`, whose ciphertext lies over the expression;
* `CMD_STRING_DEC` ends a plaintext of `STRING_LENGTH` bytes with a zero behind the result field.

Together with the failures that are detected this says for which requests the handler does what its
callers rely on (`handledWell_iff`).
-/

namespace HEDB

open Layout

/-- The buffers agree outside `n` bytes at offset `o`. -/
def Mem.SameOutside (o n : ℕ) (m m' : Mem) : Prop := ∀ a, a < o ∨ o + n ≤ a → m' a = m a

namespace Request

/-- The result field of a request: its offset and its size. -/
def resultSpan : Request → ℕ × ℕ
  | .cmp f _ _ => (cmpCmp f.size, 4)
  | .calcNum n _ _ _ => (calcRes n.size, n.size)
  | .bulk n _ _ => (bulkRes n.size, n.size)
  | .extractYear _ => (yearRes, encInt32Length)
  | .strCmp _ _ => (cmpCmp sizeofEncStr, 4)
  | .strLike _ _ => (cmpCmp sizeofEncStr, 4)
  | .substring _ _ _ => (subRes, sizeofEncStr)
  | .concat _ _ => (calcRes sizeofEncStr, sizeofEncStr)
  | .enc f _ => (encCipher f, f.size)
  | .dec f _ => (decPlain f, f.plainSize)
  | .strEnc _ => (strEncCipher, sizeofEncStr)
  | .strDec _ => (strDecPlain, sizeofStr)
  | .evalExpr _ _ _ => (exprRes, encFloat4Length)

/-- Only `resp` and the result field have changed. -/
def Unchanged (q : Request) (m m' : Mem) : Prop :=
  ∀ a, (a < Layout.resp ∨ Layout.resp + 4 ≤ a) →
    (a < q.resultSpan.1 ∨ q.resultSpan.1 + q.resultSpan.2 ≤ a) → m' a = m a

end Request

section Statement

variable (g : Gcm) (F : FloatOps)

/-- The branch of a request leaves the rest of the region alone. -/
def Confines : Request → Prop
  | .strDec ciphertext => g.Reported ciphertext.cstr → ciphertext.len < encStringLength
  | .evalExpr items expr h => ∀ r : OpsProcess, (Request.evalExpr items expr h).In r.mem →
      encFloat32EvalExpr g F r = none
  | _ => True

end Statement

variable {g : Gcm} {F : FloatOps} {q : Request} {r r' : OpsProcess} {c : ℤ}

/-! ## What is written -/

section Frames

variable {o n : ℕ}

theorem Mem.SameOutside.refl (m : Mem) : m.SameOutside o n m := fun _ _ => rfl

theorem Mem.SameOutside.trans {m₁ m₂ m₃ : Mem} (h₁ : m₁.SameOutside o n m₂)
    (h₂ : m₂.SameOutside o n m₃) : m₁.SameOutside o n m₃ := fun a ha => (h₂ a ha).trans (h₁ a ha)

theorem Mem.sameOutside_write (m : Mem) {p : ℕ} {bs : List UInt8} (h₁ : o ≤ p)
    (h₂ : p + bs.length ≤ o + n) : m.SameOutside o n (m.write p bs) :=
  fun _ _ => Mem.write_apply_of_not (by omega)

/-- If the operation returns, it has written only to `n` bytes at offset `o`. -/
def Confined (o n : ℕ) (m : Mem) (x : Option (ℤ × OpsProcess)) : Prop :=
  ∀ c r', x = some (c, r') → m.SameOutside o n r'.mem

theorem confined_none {m : Mem} : Confined o n m none := by
  intro c r' h
  cases h

theorem confined_some {m : Mem} (h : m.SameOutside o n r.mem) : Confined o n m (some (c, r)) := by
  intro c' r' h'
  cases h'
  exact h

theorem confined_self : Confined o n r.mem (some (c, r)) := confined_some (.refl _)

theorem confined_write {bs : List UInt8} (h : bs.length = n) :
    Confined o n r.mem (some (c, r.write o bs)) :=
  confined_some (r.mem.sameOutside_write le_rfl (by omega))

theorem confined_bind {α : Type} {m : Mem} {x : Option α} {f : α → Option (ℤ × OpsProcess)}
    (h : ∀ a, Confined o n m (f a)) : Confined o n m (x.bind f) := by
  cases x with
  | none => exact confined_none
  | some a => exact h a

theorem confined_ite {P : Prop} [Decidable P] {m : Mem} {x y : Option (ℤ × OpsProcess)}
    (hx : Confined o n m x) (hy : Confined o n m y) : Confined o n m (if P then x else y) := by
  split_ifs
  exacts [hx, hy]

theorem confined_encryptInto (src : List UInt8) : Confined o n r.mem (encryptInto g r src o n) := by
  by_cases h : src.length + ivSize + tagSize = n
  · rw [encryptInto_eq h]
    exact confined_some (r.mem.sameOutside_write le_rfl (by rw [Gcm.length_gcmEncrypt, h]))
  · rw [encryptInto, Gcm.encryptBytes, if_neg h]
    exact confined_none

theorem confined_encryptStrInto (src : List UInt8) (hsrc : src.length ≤ stringLength) :
    Confined o sizeofEncStr r.mem (encryptStrInto g r src o) := by
  have hlen := Gcm.length_gcmEncrypt (g := g) (increment r.iv) src
  rw [encryptStrInto, encryptInto_eq rfl]
  simp only [stringLength, ivSize, tagSize] at hsrc hlen
  refine confined_some ((r.mem.sameOutside_write ?_ ?_).trans (Mem.sameOutside_write _ ?_ ?_))
  all_goals simp only [length_leBytes, strLen, strCstr, sizeofEncStr, encStringLength, stringLength,
    ivSize, tagSize]
  all_goals omega

theorem confined_encCmp {w : ℕ} {plainCmp : List UInt8 → List UInt8 → ℤ} :
    Confined (cmpCmp w) 4 r.mem (encCmp g w plainCmp r) :=
  confined_ite confined_self <| confined_bind fun _ => confined_bind fun _ =>
    confined_write (length_intBytes _)

theorem confined_encCalc {w : ℕ} {plainCalc : ℤ → List UInt8 → List UInt8 → Option (List UInt8)} :
    Confined (calcRes w) w r.mem (encCalc g w plainCalc r) :=
  confined_ite confined_self <| confined_bind fun _ => confined_bind fun _ =>
    confined_bind fun _ => confined_encryptInto _

theorem confined_encSumBulk {w : ℕ} {plainSumBulk : List (List UInt8) → Option (List UInt8)} :
    Confined (bulkRes w) w r.mem (encSumBulk g w plainSumBulk r) :=
  confined_ite confined_none <| confined_bind fun _ =>
    confined_ite confined_self <| confined_bind fun _ => confined_encryptInto _

theorem confined_encTimestampCmp :
    Confined (cmpCmp encTimestampLength) 4 r.mem (encTimestampCmp g r) :=
  confined_ite confined_self <| confined_ite confined_self <| confined_bind fun _ =>
    confined_bind fun _ => confined_write (length_intBytes _)

theorem confined_encTimestampExtractYear :
    Confined yearRes encInt32Length r.mem (encTimestampExtractYear g r) :=
  confined_ite confined_self <| confined_bind fun _ => confined_encryptInto _

theorem confined_encTextCmp : Confined (cmpCmp sizeofEncStr) 4 r.mem (encTextCmp g r) :=
  confined_bind fun _ => confined_bind fun _ => confined_ite confined_self <|
    confined_bind fun _ => confined_bind fun _ => confined_write (length_intBytes _)

theorem confined_encTextLike : Confined (cmpCmp sizeofEncStr) 4 r.mem (encTextLike g r) :=
  confined_bind fun _ => confined_bind fun _ => confined_bind fun _ => confined_ite confined_self <|
    confined_bind fun _ => confined_write (length_intBytes _)

theorem confined_encTextConcatenate :
    Confined (calcRes sizeofEncStr) sizeofEncStr r.mem (encTextConcatenate g r) := by
  refine confined_bind fun left => confined_ite confined_self <| confined_bind fun _ =>
    confined_bind fun right => confined_ite confined_self <| confined_bind fun _ => ?_
  by_cases h : left.2.length + right.2.length < stringLength
  · rw [plainTextConcat, if_pos h]
    exact confined_encryptStrInto _ (by rw [List.length_append]; exact h.le)
  · rw [plainTextConcat, if_neg h]
    exact confined_none

theorem confined_encTextSubstring :
    Confined subRes sizeofEncStr r.mem (encTextSubstring g F r) := by
  refine confined_bind fun str => confined_ite confined_self <| confined_bind fun _ =>
    confined_ite confined_self <| confined_ite confined_self <| confined_bind fun start =>
      confined_bind fun length => ?_
  cases h : plainTextSubstring (strData F r str.2) (bytesInt start) (bytesInt length) with
  | none => exact confined_none
  | some sub =>
    obtain ⟨hnonneg, hlt, hlen, -⟩ := subText_bounds h
    exact confined_encryptStrInto _ (by omega)

theorem confined_encDecrypt {f : Fam} :
    Confined (decPlain f) f.plainSize r.mem (encDecrypt g f r) := by
  refine confined_some ?_
  by_cases h : (r.mem.read decCipher f.size).length ≤ ivSize + tagSize
  · rw [Gcm.decryptBytes_of_le h]
    exact .refl _
  · rw [Gcm.decryptBytes_of_lt (not_le.1 h)]
    refine r.mem.sameOutside_write le_rfl ?_
    rw [Gcm.gcmDecrypt, g.length_output, List.length_drop, Mem.length_read]
    cases f <;> decide

theorem confined_encStringEnc {p : Str} (h : (Request.strEnc p).In r.mem) :
    Confined strEncCipher sizeofEncStr r.mem (encStringEnc g r) := by
  rw [encStringEnc_eq h]
  exact confined_encryptStrInto _ p.len_le

/-- A plaintext and the zero after it are in the result field. -/
theorem confined_encStringDec {a : EncStr} (h : (Request.strDec a).In r.mem)
    (ha : g.Reported a.cstr → a.len < encStringLength) :
    Confined strDecPlain sizeofStr r.mem (encStringDec g r) := by
  rw [encStringDec_of_in h]
  split_ifs with hif
  swap
  · exact confined_none
  replace ha := ha hif.1
  refine confined_some ?_
  simp only [encStringLength, stringLength, ivSize, tagSize] at ha
  have hlen : ∀ m : Mem, m.SameOutside strDecPlain sizeofStr
      (m.setUint strDecPlain (a.len - (ivSize + tagSize))) := fun m =>
    m.sameOutside_write le_rfl (by simp)
  have hzero : ∀ m : Mem, m.SameOutside strDecPlain sizeofStr
      (m.write (strDecPlain + 4 + (a.len - (ivSize + tagSize))) [0]) := by
    refine fun m => m.sameOutside_write (by omega) ?_
    simp only [List.length_singleton, sizeofStr, stringLength, ivSize, tagSize]
    omega
  by_cases hle : a.cstr.length ≤ ivSize + tagSize
  · rw [Gcm.decryptBytes_of_le hle]
    exact (hlen _).trans (hzero _)
  · rw [Gcm.decryptBytes_of_lt (not_le.1 hle)]
    refine (hlen _).trans ((Mem.sameOutside_write _ (by omega) ?_).trans (hzero _))
    rw [Gcm.gcmDecrypt, g.length_output, List.length_drop]
    simp only [EncStr.len] at ha
    simp only [sizeofStr, stringLength, ivSize, tagSize]
    omega

/-- **An operation writes to the result field of its request.** -/
theorem confined_operation (h : q.In r.mem) (hc : Confines g F q) :
    Confined q.resultSpan.1 q.resultSpan.2 r.mem (operation g F q r) := by
  cases q with
  | cmp f left right =>
    cases f with
    | int => exact confined_encCmp
    | float => exact confined_encCmp
    | timestamp => exact confined_encTimestampCmp
  | calcNum n op left right =>
    cases n with
    | int =>
      rw [operation, encInt32Calc]
      exact confined_encCalc
    | float =>
      rw [operation, encFloat32Calc]
      exact confined_encCalc
  | bulk n items hle =>
    cases n with
    | int =>
      rw [operation, encInt32SumBulk]
      exact confined_encSumBulk
    | float => exact confined_ite confined_none confined_encSumBulk
  | extractYear input => exact confined_encTimestampExtractYear
  | strCmp left right => exact confined_encTextCmp
  | strLike left right => exact confined_encTextLike
  | substring str start length => exact confined_encTextSubstring
  | concat left right => exact confined_encTextConcatenate
  | enc f plaintext => exact confined_encryptInto _
  | dec f ciphertext => exact confined_encDecrypt
  | strEnc plaintext => exact confined_encStringEnc h
  | strDec ciphertext => exact confined_encStringDec h hc
  | evalExpr items expr hle =>
    simp only [operation, hc r h]
    exact confined_none

end Frames

/-! ## The exceptions -/

/-- The result field comes after the operands. -/
theorem Request.le_resultSpan (q : Request) : ∀ w ∈ q.body, w.1 + w.2.length ≤ q.resultSpan.1 := by
  cases q with
  | cmp f left right =>
    simp [body, resultSpan, left.size, right.size]
    omega
  | calcNum n op left right => simp [body, resultSpan, left.size, right.size]
  | bulk n items h =>
    have hi := length_flatMap_bytes items
    simp only [body, resultSpan, List.forall_mem_cons, List.not_mem_nil, false_imp_iff,
      implies_true,
      and_true, hi, length_intBytes]
    simp at h ⊢
    omega
  | extractYear input => simp [body, resultSpan, input.size]
  | strCmp left right | strLike left right | concat left right =>
    have hl := left.len_le
    have hr := right.len_le
    simp [body, resultSpan, copyEnc] at hl hr ⊢
    omega
  | substring str start length =>
    have hs := str.len_le
    simp [body, resultSpan, copyEnc, start.size, length.size] at hs ⊢
    omega
  | enc f plaintext => simp [body, resultSpan, plaintext.size]
  | dec f ciphertext => simp [body, resultSpan, ciphertext.size]
  | strEnc plaintext =>
    have hp := plaintext.len_le
    simp [body, resultSpan, copyPlain] at hp ⊢
    omega
  | strDec ciphertext =>
    have hc := ciphertext.len_le
    simp [body, resultSpan, copyEnc] at hc ⊢
    omega
  | evalExpr items expr h =>
    have he := expr.len_le
    have hi := length_flatMap_bytes items
    simp only [body, resultSpan, List.forall_mem_cons, List.not_mem_nil, false_imp_iff,
      implies_true,
      and_true, hi, length_intBytes]
    simp [Str.len] at h he ⊢
    omega

theorem Request.header_le_resultSpan (q : Request) : 12 ≤ q.resultSpan.1 := by
  cases q with
  | enc f plaintext => cases f <;> simp [resultSpan]
  | _ => simp [resultSpan]

/-- Writing to `resp` and to the result field keeps the request. -/
theorem Request.In.of_unchanged {m m' : Mem} (h : q.In m) (hm : q.Unchanged m m') : q.In m' := by
  have hspan := q.header_le_resultSpan
  intro w hw
  refine Eq.trans (Mem.read_congr fun i hi => ?_) (h w hw)
  rcases List.mem_cons.1 hw with rfl | hw
  · rw [length_intBytes] at hi
    apply hm
    · simp only [Layout.reqType, Layout.resp]
      omega
    · simp only [Layout.reqType]
      omega
  · have h₁ := le_of_mem_body hw
    have h₂ := q.le_resultSpan w hw
    apply hm
    · simp only [Layout.resp]
      omega
    · omega

/-- The IV `b, b, …, b, k`. -/
def countingIv (b k : UInt8) : Bytes ivSize := ⟨List.replicate 11 b ++ [k], by simp⟩

theorem increment_countingIv (b : UInt8) {k : UInt8} (hk : k ≠ 0xFF) :
    increment (countingIv b k) = countingIv b (k + 1) := by
  simp [increment, countingIv, incrementRev, hk]

/-- Whether the evaluation returns does not depend on the IV, which it counts up at most once. -/
theorem encFloat32EvalExpr_iv {m : Mem} {iv : Bytes ivSize} {x : ℤ × OpsProcess}
    (h : encFloat32EvalExpr g F ⟨m, iv⟩ = some x) (iv' : Bytes ivSize) :
    ∃ c r', encFloat32EvalExpr g F ⟨m, iv'⟩ = some (c, r') ∧
      (r'.iv = iv' ∨ r'.iv = increment iv') := by
  unfold encFloat32EvalExpr at h ⊢
  dsimp only at h ⊢
  by_cases hlast : exprMaxSize ≤ (m.int exprArgCnt - 1).toNat
  · rw [if_pos hlast] at h
    split_ifs at h <;> cases h
  rw [if_neg hlast] at h ⊢
  split_ifs at h ⊢ with hfail
  · exact ⟨_, _, rfl, .inl rfl⟩
  · obtain ⟨-, -, h⟩ := Option.bind_eq_some_iff.1 h
    obtain ⟨expr, hexpr, h⟩ := Option.bind_eq_some_iff.1 h
    obtain ⟨res, hres, -⟩ := Option.bind_eq_some_iff.1 h
    rw [hexpr]
    simp only [Option.bind_eq_bind, Option.bind_some]
    rw [hres, Option.bind_some, encryptInto_eq (by rw [length_floatBytes]; rfl)]
    exact ⟨_, _, rfl, .inr rfl⟩

/-- Behind the header the handler leaves what the operation leaves. -/
theorem handler_apply (h : q.In r.mem) (hop : operation g F q r = some (c, r')) {a : ℕ}
    (ha : 12 ≤ a) : ∃ served, handler g F r = some served ∧ served.mem a = r'.mem a := by
  rw [handler_of_in h, hop, setResp_some]
  refine ⟨⟨r'.mem.setInt Layout.resp c, r'.iv⟩, rfl, ?_⟩
  refine Mem.write_apply_of_not ?_
  simp only [Layout.resp, length_intBytes]
  omega

/-- After the fall through into `CMD_FLOAT_ENC` the expression starts with the IV. -/
theorem evalExpr_overwritten {items : List (Bytes encFloat4Length)} {expr : Str}
    {hle : items.length ≤ exprMaxSize} {x : ℤ × OpsProcess}
    (h : (Request.evalExpr items expr hle).In r.mem) (hx : encFloat32EvalExpr g F r = some x)
    (b : UInt8) : ∃ r', handler g F ⟨r.mem, countingIv b 0⟩ = some r' ∧ r'.mem exprExpr = b := by
  obtain ⟨c, r₁, heval, hiv⟩ := encFloat32EvalExpr_iv hx (countingIv b 0)
  have hfirst : ∃ k, increment r₁.iv = countingIv b k := by
    rcases hiv with hiv | hiv
    · exact ⟨_, by rw [hiv, increment_countingIv b (by decide)]⟩
    · exact ⟨_, by rw [hiv, increment_countingIv b (by decide), increment_countingIv b (by decide)]⟩
  obtain ⟨k, hk⟩ := hfirst
  have hop : operation g F (.evalExpr items expr hle) ⟨r.mem, countingIv b 0⟩ =
      (setResp (some (c, r₁))).bind (encEncrypt g .float) := by rw [← heval, operation]
  rw [setResp_some, Option.bind_some, encEncrypt,
    encryptInto_eq (by rw [Mem.length_read]; rfl), hk] at hop
  obtain ⟨r', hr', hmem⟩ := handler_apply (r := ⟨r.mem, countingIv b 0⟩) h hop
    (show 12 ≤ exprExpr by simp)
  refine ⟨r', hr', hmem.trans ?_⟩
  exact Mem.write_apply_of_mem (i := 0) (by rw [Gcm.length_gcmEncrypt]; simp)

/-- The zero after a plaintext of `STRING_LENGTH` bytes. -/
theorem strDec_overwritten {a : EncStr} (h : (Request.strDec a).In r.mem)
    (hrep : g.Reported a.cstr) (ha : a.len = encStringLength) :
    ∃ r', handler g F r = some r' ∧ r'.mem (strDecPlain + sizeofStr) = 0 := by
  have hop : operation g F (.strDec a) r = _ :=
    (encStringDec_of_in h).trans (if_pos ⟨hrep, by rw [ha]; decide⟩)
  obtain ⟨r', hr', hmem⟩ := handler_apply h hop (show 12 ≤ strDecPlain + sizeofStr by simp)
  refine ⟨r', hr', hmem.trans ?_⟩
  exact Mem.write_singleton _ 0 (by rw [ha]; rfl)

/-- **A branch that leaves the rest of the region alone, whatever it holds, confines its
writes.** -/
theorem confines_of_unchanged (h : ∀ r r' : OpsProcess, q.In r.mem → handler g F r = some r' →
    q.Unchanged r.mem r'.mem) : Confines g F q := by
  cases q with
  | strDec a =>
    intro hrep
    by_contra hlen
    have ha : a.len = encStringLength := le_antisymm a.len_le (not_lt.1 hlen)
    -- A region that holds a one behind the result field.
    have hin : (Request.strDec a).In (((Request.strDec a).serializeTo Mem.zero).write 564 [1]) :=
      ((Request.strDec a).in_serializeTo Mem.zero).write fun w hw => .inl <| by
        have ha' : a.cstr.length = 284 := ha
        simp [Request.writes, Request.body, copyEnc] at hw
        rcases hw with rfl | rfl | rfl <;> simp [ha']
    obtain ⟨r', hr', hzero⟩ := strDec_overwritten (g := g) (F := F)
      (r := ⟨_, countingIv 0 0⟩) hin hrep ha
    have hsame := h _ r' hin hr' (strDecPlain + sizeofStr) (by simp) (.inr le_rfl)
    have hone : (((Request.strDec a).serializeTo Mem.zero).write 564 [1]) 564 = 1 :=
      Mem.write_singleton _ 1 rfl
    rw [hzero] at hsame
    exact absurd (hsame.trans hone) (by decide)
  | evalExpr items expr hle =>
    intro r hin
    by_contra hne
    obtain ⟨x, hx⟩ := Option.ne_none_iff_exists'.1 hne
    obtain ⟨r', hr', hb⟩ := evalExpr_overwritten hin hx (r.mem exprExpr + 1)
    have hsame := h ⟨r.mem, countingIv (r.mem exprExpr + 1) 0⟩ r' hin hr' exprExpr (by simp)
      (by simp [Request.resultSpan])
    rw [hb] at hsame
    exact absurd hsame (by simp)
  | _ => trivial

/-! ## The handler -/

theorem unchanged_of_sameOutside {m m' : Mem}
    (h : m.SameOutside q.resultSpan.1 q.resultSpan.2 m') (c : ℤ) :
    q.Unchanged m (m'.setInt Layout.resp c) := by
  intro a hresp hspan
  rw [← h a hspan]
  exact Mem.write_apply_of_not (by rw [length_intBytes]; omega)

end HEDB
