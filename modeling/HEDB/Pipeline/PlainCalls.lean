import HEDB.Pipeline.Failures

/-!
# Calls of the plain operations

Between decrypting the operands and delivering the result, an operation of `enc_ops` calls one
function of `plain_ops`. `handlerCall` says which one the handler reaches for a request, and with
which arguments. The operation is this call, followed by the delivery of its result
(`operation_of_handlerCall`).

On ciphertexts of plaintexts the call is the one that the plaintexts determine, unless a text
operand is empty or fills its array (`handlerCall_eq`).
-/

namespace HEDB

open Layout

/-- A call of a function of `plain_ops` with its arguments. A text and its size are the bytes of the
text. -/
inductive PlainCall
  | int32Calc (reqType left right : ℤ)
  | int32Cmp (left right : ℤ)
  | int32SumBulk (size : ℤ) (array : List ℤ)
  | timestampCmp (left right : ℤ)
  | timestampExtractYear (t : ℤ)
  | textCmp (lhs rhs : List UInt8)
  | textLike (lhs rhs : List UInt8)
  | textConcat (left right : List UInt8)
  | textSubstring (str : List UInt8) (start length : ℤ)
  /-- `plain_int32_bulk`, which is declared and defined nowhere. -/
  | int32Bulk (reqType size : ℤ) (array : List ℤ)
  deriving DecidableEq

/-- The result of a call in a process, as the bytes that are delivered. -/
def PlainCall.result (F : FloatOps) (r : OpsProcess) : PlainCall → Option (List UInt8)
  | int32Calc reqType left right => (plainInt32Calc F reqType left right).map intBytes
  | int32Cmp left right => some (intBytes (plainInt32Cmp left right))
  | int32SumBulk _ array => (plainInt32SumBulk array).map intBytes
  | timestampCmp left right => some (intBytes (plainTimestampCmp left right))
  | timestampExtractYear t => some (intBytes (plainTimestampExtractYear t))
  | textCmp lhs rhs => some (intBytes (plainTextCmp lhs rhs))
  | textLike lhs rhs => some (intBytes (Like.plainTextLike lhs rhs))
  | textConcat left right => plainTextConcat left right
  | textSubstring str start length => plainTextSubstring (strData F r str) start length
  | int32Bulk _ _ _ => none

/-! ## The calls of the handler -/

section Calls

variable (g : Gcm)

/-- The call of an operation that goes on with whatever the decryption of its left operand has
left. -/
def uncheckedCall (call : List UInt8 → List UInt8 → PlainCall) (left right : List UInt8) :
    Option PlainCall :=
  if (g.decryptBytes right).1 ≠ 0 then none
  else (g.decryptBytesPara left).bind fun x => (g.decryptBytes right).2.map (call x)

/-- The call of `enc_int32_sum_bulk`. -/
def bulkCall (m : Mem) : Option PlainCall :=
  let n := (m.int Layout.bulkSize).toNat
  if HEDB.bulkSize < n then none
  else (decryptItems g (bulkArray m encInt32Length n)).bind fun (resp, xs) =>
    if resp ≠ 0 then none else some (.int32SumBulk (m.int Layout.bulkSize) (xs.map bytesInt))

/-- The call of `enc_timestamp_cmp`. -/
def timestampCmpCall (m : Mem) : Option PlainCall :=
  let left := m.read cmpLeft encTimestampLength
  if (g.decryptBytes left).1 ≠ 0 then none
  else uncheckedCall g (fun x y => .timestampCmp (bytesInt64 x) (bytesInt64 y)) left
    (m.read (cmpRight encTimestampLength) encTimestampLength)

/-- The call of `enc_timestamp_extract_year`. -/
def extractYearCall (m : Mem) : Option PlainCall :=
  let t := g.decryptBytes (m.read yearIn encTimestampLength)
  if t.1 ≠ 0 then none else t.2.map fun t => .timestampExtractYear (bytesInt64 t)

/-- The call of `enc_text_cmp`. -/
def textCmpCall (m : Mem) : Option PlainCall :=
  (decryptStr g m cmpLeft).bind fun left =>
  (decryptStr g m (cmpRight sizeofEncStr)).bind fun right =>
  if right.1 ≠ 0 then none
  else (terminate m cmpLeft).bind fun () =>
    (terminate m (cmpRight sizeofEncStr)).map fun () => .textCmp left.2 right.2

/-- The call of `enc_text_like`. -/
def textLikeCall (m : Mem) : Option PlainCall :=
  (decryptStr g m cmpLeft).bind fun left =>
  (terminate m cmpLeft).bind fun () =>
  (decryptStr g m (cmpRight sizeofEncStr)).bind fun right =>
  if right.1 ≠ 0 then none
  else (terminate m (cmpRight sizeofEncStr)).map fun () => .textLike left.2 right.2

/-- The call of `enc_text_concatenate`. -/
def textConcatCall (m : Mem) : Option PlainCall :=
  (decryptStr g m calcLeft).bind fun left =>
  if left.1 ≠ 0 then none
  else (terminate m calcLeft).bind fun () =>
    (decryptStr g m (calcRight sizeofEncStr)).bind fun right =>
    if right.1 ≠ 0 then none
    else (terminate m (calcRight sizeofEncStr)).map fun () => .textConcat left.2 right.2

/-- The call of `enc_text_substring`. -/
def textSubstringCall (m : Mem) : Option PlainCall :=
  (decryptStr g m subStr).bind fun str =>
  if str.1 ≠ 0 then none
  else (terminate m subStr).bind fun () =>
    let start := g.decryptBytes (m.read subStart encInt32Length)
    let length := g.decryptBytes (m.read subLength encInt32Length)
    if start.1 ≠ 0 then none
    else if length.1 ≠ 0 then none
    else start.2.bind fun start =>
      length.2.map fun length => .textSubstring str.2 (bytesInt start) (bytesInt length)

/-- The call that `handler` reaches, among those that do not compute with `float`. -/
def handlerCall (m : Mem) : Option Cmd → Option PlainCall
  | some .intPlus | some .intMinus | some .intMult | some .intDiv | some .intPow | some .intMod =>
    uncheckedCall g (fun x y => .int32Calc (m.int reqType) (bytesInt x) (bytesInt y))
      (m.read calcLeft encInt32Length) (m.read (calcRight encInt32Length) encInt32Length)
  | some .intCmp => uncheckedCall g (fun x y => .int32Cmp (bytesInt x) (bytesInt y))
      (m.read cmpLeft encInt32Length) (m.read (cmpRight encInt32Length) encInt32Length)
  | some .intSumBulk => bulkCall g m
  | some .timestampExtractYear => extractYearCall g m
  | some .timestampCmp => timestampCmpCall g m
  | some .stringSubstring => textSubstringCall g m
  | some .stringConcat => textConcatCall g m
  | some .stringLike => textLikeCall g m
  | some .stringCmp => textCmpCall g m
  | _ => none

/-- How the operation of a request delivers its result. -/
def deliver (r : OpsProcess) (res : List UInt8) : Request → Option (ℤ × OpsProcess)
  | .cmp f _ _ => some (0, r.write (cmpCmp f.size) res)
  | .calcNum n _ _ _ => encryptInto g r res (calcRes n.size) n.size
  | .bulk n _ _ => encryptInto g r res (bulkRes n.size) n.size
  | .extractYear _ => encryptInto g r res yearRes encInt32Length
  | .strCmp _ _ | .strLike _ _ => some (0, r.write (cmpCmp sizeofEncStr) res)
  | .substring _ _ _ => encryptStrInto g r res subRes
  | .concat _ _ => encryptStrInto g r res (calcRes sizeofEncStr)
  | _ => none

variable {g} {F : FloatOps} {m : Mem} {r : OpsProcess} {call : PlainCall}

theorem handlerCall_calcCmd (op : CalcOp) : handlerCall g m (some (Num.int.calcCmd op)) =
    uncheckedCall g (fun x y => .int32Calc (m.int reqType) (bytesInt x) (bytesInt y))
      (m.read calcLeft encInt32Length) (m.read (calcRight encInt32Length) encInt32Length) := by
  cases op <;> rfl

theorem uncheckedCall_eq_some {f : List UInt8 → List UInt8 → PlainCall} {left right : List UInt8}
    (h : uncheckedCall g f left right = some call) :
    ∃ x y, g.decryptBytesPara left = some x ∧ g.decryptBytes right = (0, some y) ∧
      call = f x y := by
  unfold uncheckedCall at h
  split_ifs at h with hright
  obtain ⟨x, hx, hcall⟩ := Option.bind_eq_some_iff.1 h
  obtain ⟨y, hy, rfl⟩ := Option.map_eq_some_iff.1 hcall
  exact ⟨x, y, hx, Prod.ext (not_not.1 hright) hy, rfl⟩

/-- **An operation is its plain call, followed by the delivery of the result.** -/
theorem operation_of_handlerCall (q : Request)
    (hcall : handlerCall g r.mem (some q.cmd) = some call) :
    operation g F q r = (call.result F r).bind fun res => deliver g r res q := by
  cases q with
  | cmp f left right =>
    cases f with
    | int =>
      obtain ⟨x, y, hx, hy, rfl⟩ := uncheckedCall_eq_some hcall
      show encInt32Cmp g r = _
      rw [encInt32Cmp, encCmp, hx, hy]
      rfl
    | float => cases hcall
    | timestamp =>
      have hcall : timestampCmpCall g r.mem = some call := hcall
      dsimp only [timestampCmpCall] at hcall
      split_ifs at hcall with hleft
      obtain ⟨x, y, hx, hy, rfl⟩ := uncheckedCall_eq_some hcall
      have hx : g.decryptBytes (r.mem.read cmpLeft encTimestampLength) = (0, some x) :=
        Prod.ext (not_not.1 hleft) hx
      exact encTimestampCmp_eq hx hy
  | calcNum n op left right =>
    cases n with
    | int =>
      rw [Request.cmd, handlerCall_calcCmd] at hcall
      obtain ⟨x, y, hx, hy, rfl⟩ := uncheckedCall_eq_some hcall
      show encInt32Calc g F r = _
      rw [encInt32Calc, encCalc, hx, hy]
      rfl
    | float => cases op <;> cases hcall
  | bulk n items hn =>
    cases n with
    | int =>
      have hcall : bulkCall g r.mem = some call := hcall
      dsimp only [bulkCall] at hcall
      split_ifs at hcall with hsize
      obtain ⟨⟨resp, xs⟩, hxs, hcall⟩ := Option.bind_eq_some_iff.1 hcall
      split_ifs at hcall with hresp
      cases hcall
      obtain rfl : resp = 0 := not_not.1 hresp
      show encInt32SumBulk g r = _
      rw [encInt32SumBulk, encSumBulk, if_neg hsize, hxs]
      rfl
    | float => cases hcall
  | extractYear input =>
    have hcall : extractYearCall g r.mem = some call := hcall
    dsimp only [extractYearCall] at hcall
    split_ifs at hcall with ht
    obtain ⟨t, hread, rfl⟩ := Option.map_eq_some_iff.1 hcall
    exact encTimestampExtractYear_eq (Prod.ext (not_not.1 ht) hread)
  | strCmp left right =>
    have hcall : textCmpCall g r.mem = some call := hcall
    obtain ⟨left, hl, hcall⟩ := Option.bind_eq_some_iff.1 hcall
    obtain ⟨right, hr, hcall⟩ := Option.bind_eq_some_iff.1 hcall
    split_ifs at hcall with hright
    obtain ⟨⟨⟩, hl', hcall⟩ := Option.bind_eq_some_iff.1 hcall
    obtain ⟨⟨⟩, hr', rfl⟩ := Option.map_eq_some_iff.1 hcall
    show encTextCmp g r = _
    simp only [encTextCmp, hl, hr, hl', hr', Option.bind_eq_bind, Option.bind_some, hright,
      if_false]
    rw [not_not.1 hright]
    rfl
  | strLike left right =>
    have hcall : textLikeCall g r.mem = some call := hcall
    obtain ⟨left, hl, hcall⟩ := Option.bind_eq_some_iff.1 hcall
    obtain ⟨⟨⟩, hl', hcall⟩ := Option.bind_eq_some_iff.1 hcall
    obtain ⟨right, hr, hcall⟩ := Option.bind_eq_some_iff.1 hcall
    split_ifs at hcall with hright
    obtain ⟨⟨⟩, hr', rfl⟩ := Option.map_eq_some_iff.1 hcall
    show encTextLike g r = _
    simp only [encTextLike, hl, hr, hl', hr', Option.bind_eq_bind, Option.bind_some, hright,
      if_false]
    rw [not_not.1 hright]
    rfl
  | substring str start length =>
    have hcall : textSubstringCall g r.mem = some call := hcall
    obtain ⟨str, hs, hcall⟩ := Option.bind_eq_some_iff.1 hcall
    split_ifs at hcall with hstr
    obtain ⟨⟨⟩, hs', hcall⟩ := Option.bind_eq_some_iff.1 hcall
    dsimp only at hcall
    split_ifs at hcall with hstart hlength
    obtain ⟨i, hi, hcall⟩ := Option.bind_eq_some_iff.1 hcall
    obtain ⟨n, hn, rfl⟩ := Option.map_eq_some_iff.1 hcall
    show encTextSubstring g F r = _
    simp only [encTextSubstring, hs, hs', hi, hn, Option.bind_eq_bind, Option.bind_some, hstr,
      hstart, hlength, if_false]
    rfl
  | concat left right =>
    have hcall : textConcatCall g r.mem = some call := hcall
    obtain ⟨left, hl, hcall⟩ := Option.bind_eq_some_iff.1 hcall
    split_ifs at hcall with hleft
    obtain ⟨⟨⟩, hl', hcall⟩ := Option.bind_eq_some_iff.1 hcall
    obtain ⟨right, hr, hcall⟩ := Option.bind_eq_some_iff.1 hcall
    split_ifs at hcall with hright
    obtain ⟨⟨⟩, hr', rfl⟩ := Option.map_eq_some_iff.1 hcall
    show encTextConcatenate g r = _
    simp only [encTextConcatenate, hl, hr, hl', hr', Option.bind_eq_bind, Option.bind_some, hleft,
      hright, if_false]
    rfl
  | enc f | dec f => cases f <;> cases hcall
  | strEnc | strDec | evalExpr => cases hcall

end Calls

/-! ## Calls on plaintexts -/

/-- The ciphertext decrypts to the plaintext and has the size for it. -/
def Gcm.Authentic (g : Gcm) (c p : List UInt8) : Prop :=
  g.Decrypts c p ∧ c.length = p.length + ivSize + tagSize

/-- The call that the plaintexts of a request determine. -/
def plainCallOf : Request → List (List UInt8) → Option PlainCall
  | .cmp .int _ _, [p, p'] => some (.int32Cmp (bytesInt p) (bytesInt p'))
  | .cmp .timestamp _ _, [p, p'] => some (.timestampCmp (bytesInt64 p) (bytesInt64 p'))
  | .calcNum .int op _ _, [p, p'] =>
    some (.int32Calc (Num.int.calcCmd op).code (bytesInt p) (bytesInt p'))
  | .bulk .int _ _, ps => some (.int32SumBulk ps.length (ps.map bytesInt))
  | .extractYear _, [p] => some (.timestampExtractYear (bytesInt64 p))
  | .strCmp _ _, [p, p'] => some (.textCmp p p')
  | .strLike _ _, [p, p'] => some (.textLike p p')
  | .concat _ _, [p, p'] => some (.textConcat p p')
  | .substring _ _ _, [p, start, length] =>
    some (.textSubstring p (bytesInt start) (bytesInt length))
  | _, _ => none

/-- The text operands leave room for a zero, and those that are checked are not empty. -/
def Served : Request → List (List UInt8) → Prop
  | .strCmp _ _, [p, p'] | .strLike _ _, [p, p'] =>
    p.length < stringLength ∧ p' ≠ [] ∧ p'.length < stringLength
  | .concat _ _, [p, p'] =>
    (p ≠ [] ∧ p.length < stringLength) ∧ p' ≠ [] ∧ p'.length < stringLength
  | .substring _ _ _, p :: _ => p ≠ [] ∧ p.length < stringLength
  | _, _ => True

section Plaintexts

variable {g : Gcm} {m : Mem} {q : Request}

theorem Gcm.Authentic.isCipher {a : EncStr} {p : List UInt8} (h : g.Authentic a.cstr p) :
    g.IsCipher a p := ⟨h.1, h.2⟩

theorem Gcm.Authentic.length_eq {w : ℕ} {c : Bytes w} {p : List UInt8} (h : g.Authentic c.bytes p) :
    p.length = w - (ivSize + tagSize) := by
  have hlen := h.2
  rw [c.size] at hlen
  omega

/-- `decrypt_bytes` on an authentic ciphertext of a fixed width. -/
theorem Gcm.Authentic.decryptBytes {w : ℕ} {c : Bytes w} {p : List UInt8}
    (h : g.Authentic c.bytes p) (hw : ivSize + tagSize < w) :
    g.decryptBytes c.bytes = (0, some p) := by
  apply Gcm.decryptBytes_of_decrypts h.1
  rintro rfl
  have hlen := h.2
  rw [c.size, List.length_nil] at hlen
  omega

theorem uncheckedCall_eq {f : List UInt8 → List UInt8 → PlainCall} {c c' p p' : List UInt8}
    (hp : g.decryptBytes c = (0, some p)) (hp' : g.decryptBytes c' = (0, some p')) :
    uncheckedCall g f c c' = some (f p p') := by
  rw [uncheckedCall, Gcm.decryptBytesPara, hp, hp', if_neg (not_not.2 rfl)]
  rfl

/-- **On ciphertexts of plaintexts the handler reaches the call that the plaintexts determine**,
unless it refuses a text operand. -/
theorem handlerCall_eq_some_iff {ps : List (List UInt8)} {call : PlainCall} (h : q.In m)
    (hps : List.Forall₂ g.Authentic q.ciphertexts ps) :
    handlerCall g m (some q.cmd) = some call ↔ Served q ps ∧ plainCallOf q ps = some call := by
  cases q with
  | cmp f left right =>
    rcases hps with _ | ⟨hp, _ | ⟨hp', _ | _⟩⟩
    have hf : ivSize + tagSize < f.size := by cases f <;> decide
    obtain ⟨hl, hr⟩ := h.cmp
    cases f with
    | int =>
      show uncheckedCall g _ (m.read cmpLeft Fam.int.size)
        (m.read (cmpRight Fam.int.size) Fam.int.size) =
        _ ↔ _
      rw [hl, hr, uncheckedCall_eq (hp.decryptBytes hf) (hp'.decryptBytes hf)]
      exact (and_iff_right trivial).symm
    | float => simp [handlerCall, Request.cmd, Fam.cmpCmd, plainCallOf]
    | timestamp =>
      show timestampCmpCall g m = _ ↔ _
      rw [timestampCmpCall, show encTimestampLength = Fam.timestamp.size from rfl, hl, hr,
        uncheckedCall_eq (hp.decryptBytes hf) (hp'.decryptBytes hf), hp.decryptBytes hf]
      exact (and_iff_right trivial).symm
  | calcNum n op left right =>
    rcases hps with _ | ⟨hp, _ | ⟨hp', _ | _⟩⟩
    obtain ⟨hl, hr⟩ := h.calcNum
    cases n with
    | int =>
      rw [Request.cmd, handlerCall_calcCmd, show encInt32Length = Num.int.size from rfl, hl, hr,
        uncheckedCall_eq (hp.decryptBytes (by decide)) (hp'.decryptBytes (by decide)), h.reqType]
      exact (and_iff_right trivial).symm
    | float => cases op <;> simp [handlerCall, Request.cmd, Num.calcCmd, plainCallOf]
  | bulk n items hn =>
    cases n with
    | int =>
      have hitems : List.Forall₂ (fun item x => g.decryptBytes item = (0, some x))
          (items.map Bytes.bytes) ps :=
        List.forall₂_map_left_iff.2 ((List.forall₂_map_left_iff.1 hps).imp fun _ _ hp =>
          hp.decryptBytes (by decide))
      have hcount : items.length = ps.length := by rw [← hitems.length_eq, List.length_map]
      show bulkCall g m = _ ↔ _
      rw [bulkCall, int_bulkSize h, Int.toNat_natCast, show encInt32Length = Num.int.size from rfl,
        bulkArray_eq h, decryptItems_eq hitems, if_neg (not_lt.2 hn), hcount]
      exact (and_iff_right trivial).symm
    | float => simp [handlerCall, Request.cmd, Num.bulkCmd, plainCallOf]
  | extractYear input =>
    rcases hps with _ | ⟨hp, _ | _⟩
    have hi := h.extractYear
    show extractYearCall g m = _ ↔ _
    rw [extractYearCall, hi, hp.decryptBytes (by decide)]
    exact (and_iff_right trivial).symm
  | strCmp left right =>
    rcases hps with _ | ⟨hp, _ | ⟨hp', _ | _⟩⟩
    have hl := h.encStr (o := cmpLeft) (c := left) (by simp [Request.body])
    have hr := h.encStr (o := cmpRight sizeofEncStr) (c := right) (by simp [Request.body])
    show textCmpCall g m = _ ↔ _
    rw [textCmpCall, decryptStr_eq hl.2 hp.isCipher, decryptStr_eq hr.2 hp'.isCipher,
      terminate_eq hl.1 hp.isCipher, terminate_eq hr.1 hp'.isCipher]
    rename_i p p'
    by_cases hempty : p' = [] <;> by_cases hfit : p.length < stringLength <;>
      by_cases hfit' : p'.length < stringLength <;>
        simp [-stringLength, Served, plainCallOf, hempty, hfit, hfit']
  | strLike left right =>
    rcases hps with _ | ⟨hp, _ | ⟨hp', _ | _⟩⟩
    have hl := h.encStr (o := cmpLeft) (c := left) (by simp [Request.body])
    have hr := h.encStr (o := cmpRight sizeofEncStr) (c := right) (by simp [Request.body])
    show textLikeCall g m = _ ↔ _
    rw [textLikeCall, decryptStr_eq hl.2 hp.isCipher, decryptStr_eq hr.2 hp'.isCipher,
      terminate_eq hl.1 hp.isCipher, terminate_eq hr.1 hp'.isCipher]
    rename_i p p'
    by_cases hempty : p' = [] <;> by_cases hfit : p.length < stringLength <;>
      by_cases hfit' : p'.length < stringLength <;>
        simp [-stringLength, Served, plainCallOf, hempty, hfit, hfit']
  | substring str start length =>
    rcases hps with _ | ⟨hp, _ | ⟨hp', _ | ⟨hp'', _ | _⟩⟩⟩
    have hs := h.encStr (o := subStr) (c := str) (by simp [Request.body])
    obtain ⟨hst, hle⟩ := h.substring
    show textSubstringCall g m = _ ↔ _
    rw [textSubstringCall, decryptStr_eq hs.2 hp.isCipher, terminate_eq hs.1 hp.isCipher, hst, hle,
      hp'.decryptBytes (by decide), hp''.decryptBytes (by decide)]
    rename_i p p' p''
    by_cases hempty : p = [] <;> by_cases hfit : p.length < stringLength <;>
      simp [-stringLength, Served, plainCallOf, hempty, hfit]
  | concat left right =>
    rcases hps with _ | ⟨hp, _ | ⟨hp', _ | _⟩⟩
    have hl := h.encStr (o := calcLeft) (c := left) (by simp [Request.body])
    have hr := h.encStr (o := calcRight sizeofEncStr) (c := right) (by simp [Request.body])
    show textConcatCall g m = _ ↔ _
    rw [textConcatCall, decryptStr_eq hl.2 hp.isCipher, decryptStr_eq hr.2 hp'.isCipher,
      terminate_eq hl.1 hp.isCipher, terminate_eq hr.1 hp'.isCipher]
    rename_i p p'
    by_cases hempty : p = [] <;> by_cases hfit : p.length < stringLength <;>
      by_cases hempty' : p' = [] <;> by_cases hfit' : p'.length < stringLength <;>
      simp [-stringLength, Served, plainCallOf, hempty, hfit, hempty', hfit']
  | enc f | dec f => cases f <;>
      simp [handlerCall, Request.cmd, Fam.encCmd, Fam.decCmd, plainCallOf]
  | strEnc | strDec | evalExpr => simp [handlerCall, Request.cmd, plainCallOf]

end Plaintexts

end HEDB
