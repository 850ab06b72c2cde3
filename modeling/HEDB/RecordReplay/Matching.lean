import HEDB.RecordReplay.Records

/-!
# Matching a request with the record at the cursor

`replay_request` answers from the record at the cursor of the replay file. Here its outcome is
computed on a file that continues with the record of a request, for every shape of record
(`replayRequest_cmp` to `replayRequest_concat`).

* A request with the opcode and the operands of the record is answered with the recorded `resp`,
  the recorded result is copied into the buffer, and exactly the record is consumed
  (`replayRequest_of_same`).
* A request that is answered has the opcode of the record (`replayRequest_of_ne`), and its operands
  as well (`operandsAt_of_answer`), except for text comparison and `LIKE`.
-/

namespace HEDB

open Layout

/-! ## Operands and results -/

/-- The `EncStr` at offset `o`: the `encstr_size` bytes in use. -/
def encStrAt (m : Mem) (o : ℕ) : List UInt8 := m.read o (Recorder.sizeAt m o).toNat

/-- The two operands of a comparison of ciphertexts of `w` bytes. -/
def cmpOperands (m : Mem) (w : ℕ) : List (List UInt8) := [m.read cmpLeft w, m.read (cmpRight w) w]

/-- The two operands of an arithmetic operation on ciphertexts of `w` bytes. -/
def calcOperands (m : Mem) (w : ℕ) : List (List UInt8) :=
  [m.read calcLeft w, m.read (calcRight w) w]

/-- The size and the items of a bulk sum of ciphertexts of `w` bytes. -/
def bulkOperands (m : Mem) (w : ℕ) : List (List UInt8) :=
  m.read Layout.bulkSize 4 :: Recorder.itemsAt m w (m.int Layout.bulkSize).toNat

/-- The operands that the buffer holds for a request of the given command. Those of the commands
that are never logged are left out. -/
def operandsAt (m : Mem) : Cmd → List (List UInt8)
  | .intCmp => cmpOperands m encInt32Length
  | .floatCmp => cmpOperands m encFloat4Length
  | .timestampCmp => cmpOperands m encTimestampLength
  | .intPlus | .intMinus | .intMult | .intDiv | .intPow | .intMod => calcOperands m encInt32Length
  | .floatPlus | .floatMinus | .floatMult | .floatDiv | .floatPow | .floatMod =>
    calcOperands m encFloat4Length
  | .intSumBulk => bulkOperands m encInt32Length
  | .floatSumBulk => bulkOperands m encFloat4Length
  | .timestampExtractYear => [m.read yearIn encTimestampLength]
  | .stringCmp | .stringLike => [encStrAt m cmpLeft, encStrAt m (cmpRight sizeofEncStr)]
  | .stringSubstring =>
    [encStrAt m subStr, m.read subStart encInt32Length, m.read subLength encInt32Length]
  | .stringConcat => [encStrAt m calcLeft, encStrAt m (calcRight sizeofEncStr)]
  | .intEnc | .intDec | .floatEnc | .floatDec | .floatEvalExpr | .stringEnc | .stringDec
  | .timestampEnc | .timestampDec => []

namespace Request

/-- The requests that `record` logs. -/
def Logged : Request → Prop
  | .cmp _ _ _ | .calcNum _ _ _ _ | .bulk _ _ _ | .extractYear _ | .strCmp _ _ | .strLike _ _
  | .substring _ _ _ | .concat _ _ => True
  | _ => False

/-- The offset and the size of the result of a logged request. -/
def resultField (m : Mem) : Request → ℕ × ℕ
  | .cmp f _ _ => (cmpCmp f.size, 4)
  | .calcNum n _ _ _ => (calcRes n.size, n.size)
  | .bulk n _ _ => (bulkRes n.size, n.size)
  | .extractYear _ => (yearRes, encInt32Length)
  | .strCmp _ _ | .strLike _ _ => (cmpCmp sizeofEncStr, 4)
  | .substring _ _ _ => (subRes, (Recorder.sizeAt m subRes).toNat)
  | .concat _ _ => (calcRes sizeofEncStr, (Recorder.sizeAt m (calcRes sizeofEncStr)).toNat)
  | _ => (0, 0)

/-- The length of a text result is one that an `EncStr` can have. -/
def ResultFits (m : Mem) : Request → Prop
  | .substring _ _ _ => m.uint (subRes + strLen) ≤ encStringLength
  | .concat _ _ => m.uint (calcRes sizeofEncStr + strLen) ≤ encStringLength
  | _ => True

end Request

theorem operandsAt_cmpCmd (m : Mem) (f : Fam) : operandsAt m f.cmpCmd = cmpOperands m f.size := by
  cases f <;> rfl

theorem operandsAt_calcCmd (m : Mem) (n : Num) (op : CalcOp) :
    operandsAt m (n.calcCmd op) = calcOperands m n.size := by
  cases n <;> cases op <;> rfl

theorem operandsAt_bulkCmd (m : Mem) (n : Num) :
    operandsAt m n.bulkCmd = bulkOperands m n.size := by
  cases n <;> rfl

namespace Replayer

/-- The size of an `EncStr` that is well formed. -/
theorem isInt_size (s : EncStr) : IsInt (8 + s.len) := by
  have : s.len ≤ encStringLength := s.len_le
  simp [IsInt] at this ⊢
  omega

theorem fitsEncStr_size (s : EncStr) : FitsEncStr (8 + s.len) := by
  have : s.len ≤ encStringLength := s.len_le
  simp [FitsEncStr] at this ⊢
  omega

theorem sizeAt_of_le {m : Mem} {o : ℕ} (h : m.uint (o + strLen) ≤ encStringLength) :
    Recorder.sizeAt m o = 8 + m.uint (o + strLen) := by
  simp only [encStringLength, stringLength, ivSize, tagSize] at h
  exact encstrSize_of_le (by omega)

theorem fitsEncStr_of_le {m : Mem} {o : ℕ} (h : m.uint (o + strLen) ≤ encStringLength) :
    FitsEncStr (Recorder.sizeAt m o) := by
  rw [sizeAt_of_le h]
  simp [FitsEncStr] at h ⊢
  omega

theorem isInt_sizeAt (m : Mem) (o : ℕ) : IsInt (Recorder.sizeAt m o) := isInt_toInt _

end Replayer

/-- An `EncStr` operand in the buffer: the order tag, which is not part of the request, the length
and the ciphertext. -/
theorem Request.In.encStrAt {q : Request} {m : Mem} (h : q.In m) {o : ℕ} {s : EncStr}
    (hs : copyEnc o s ⊆ q.body) :
    encStrAt m o = m.read o 4 ++ (leBytes 4 s.len ++ s.cstr) := by
  have hlen : m.read (o + 4) 4 = leBytes 4 s.len :=
    h.field (hs List.mem_cons_self) (length_leBytes 4 s.len)
  have hcstr : m.read (o + 4 + 4) s.len = s.cstr :=
    h.field (hs (List.mem_cons_of_mem _ List.mem_cons_self)) rfl
  rw [HEDB.encStrAt, h.sizeAt hs, show ((8 : ℤ) + s.len).toNat = 4 + (4 + s.len) by omega,
    Mem.read_add, Mem.read_add, hlen, hcstr]

/-! ## Records as a whole -/

/-- The record of a logged request starts with its opcode. -/
theorem Recorder.encoding_opcode {q : Request} {m : Mem} {timestamp : Bytes sizeofUint64}
    (h : q.In m) (hq : q.Logged) (hs : (spans m timestamp).isSome) :
    ∃ tl, encoding m timestamp = intBytes q.cmd.code ++ tl := by
  cases q with
  | cmp => exact ⟨_, (encoding_cmp h).2⟩
  | calcNum => exact ⟨_, (encoding_calc h).2⟩
  | bulk => exact ⟨_, (encoding_bulk h).2⟩
  | extractYear => exact ⟨_, (encoding_year h).2⟩
  | strCmp => exact ⟨_, (encoding_strCmp (.inl rfl) h).2⟩
  | strLike => exact ⟨_, (encoding_strCmp (.inr rfl) h).2⟩
  | substring => exact ⟨_, encoding_substring h ((spans_substring h).2.mpr hs)⟩
  | concat => exact ⟨_, encoding_concat h ((spans_concat h).2.mpr hs)⟩
  | enc | dec | strEnc | strDec | evalExpr => exact hq.elim

theorem Recorder.strCmpSpans_of_sizeAt {m : Mem} {timestamp : Bytes sizeofUint64} {s t : EncStr}
    (hl : sizeAt m cmpLeft = 8 + s.len) (hr : sizeAt m (cmpRight sizeofEncStr) = 8 + t.len) :
    ∃ ss, strCmpSpans m timestamp = some ss ∧ ∀ s ∈ ss, s.1 ≤ dataLength := by
  have hs : s.len ≤ 284 := s.len_le
  have ht : t.len ≤ 284 := t.len_le
  rw [strCmpSpans, hl, hr, if_neg (by omega)]
  refine ⟨_, rfl, List.forall_mem_singleton.mpr ?_⟩
  simp only [dataLength, sizeofInt, sizeofUint64]
  omega

/-- **A logged request is recorded**, in far less than an extension of the log. -/
theorem Recorder.spans_of_fits {q : Request} {m : Mem} {timestamp : Bytes sizeofUint64}
    (h : q.In m) (hq : q.Logged) (hfit : q.ResultFits m) :
    ∃ ss, spans m timestamp = some ss ∧ ∀ s ∈ ss, s.1 ≤ dataLength := by
  have hle (s : EncStr) : s.len ≤ 284 := s.len_le
  cases q with
  | cmp f left right =>
    refine ⟨_, (encoding_cmp h).1, ?_⟩
    cases f <;> simp [cmpSpans, dataLength]
  | calcNum n op left right =>
    refine ⟨_, (encoding_calc h).1, ?_⟩
    simp [calcSpans, dataLength]
  | bulk n items hn =>
    refine ⟨_, (encoding_bulk h).1, ?_⟩
    simp [dataLength] at hn ⊢
    omega
  | extractYear input =>
    refine ⟨_, (encoding_year h).1, ?_⟩
    simp [yearSpans, dataLength]
  | strCmp left right =>
    rw [(encoding_strCmp (.inl rfl) h).1]
    exact strCmpSpans_of_sizeAt (s := left) (t := right) (h.sizeAt (by simp [Request.body]))
      (h.sizeAt (by simp [Request.body]))
  | strLike left right =>
    rw [(encoding_strCmp (.inr rfl) h).1]
    exact strCmpSpans_of_sizeAt (s := left) (t := right) (h.sizeAt (by simp [Request.body]))
      (h.sizeAt (by simp [Request.body]))
  | substring str start length =>
    have hs := h.sizeAt (o := subStr) (s := str) (by simp [Request.body])
    have hr := Replayer.sizeAt_of_le (o := subRes) hfit
    rw [(spans_substring h).1, substringSpans, hs, hr, if_neg (by omega)]
    refine ⟨_, rfl, List.forall_mem_singleton.mpr ?_⟩
    have := hle str
    have hlen : m.uint (subRes + strLen) ≤ 284 := hfit
    simp only [dataLength, sizeofInt, sizeofUint64, encInt32Length, ivSize, tagSize]
    omega
  | concat left right =>
    have hl := h.sizeAt (o := calcLeft) (s := left) (by simp [Request.body])
    have hr := h.sizeAt (o := calcRight sizeofEncStr) (s := right) (by simp [Request.body])
    have hn := Replayer.sizeAt_of_le (o := calcRes sizeofEncStr) hfit
    rw [(spans_concat h).1, concatSpans, hl, hr, hn, if_neg (by omega)]
    refine ⟨_, rfl, List.forall_mem_singleton.mpr ?_⟩
    have := hle left
    have := hle right
    have hlen : m.uint (calcRes sizeofEncStr + strLen) ≤ 284 := hfit
    simp only [dataLength, sizeofInt, sizeofUint64]
    omega
  | enc | dec | strEnc | strDec | evalExpr => exact hq.elim

/-! ## The outcome on a record -/

namespace Replayer

section Outcome

variable {frame : Mem} {c : Cursor} {m m' : Mem} {timestamp : Bytes sizeofUint64}
  {tl : List UInt8} {previousOp : ℤ}

theorem replayRequest_of_eq {k : Cmd} (ht : m'.int reqType = k.code)
    (hc : c.rest = intBytes k.code ++ tl) :
    replayRequest frame c m' previousOp = replayBranch frame (c.advance 4) m' := by
  simp only [replayRequest, fread_int_of_rest frame 0 hc (length_intBytes _),
    bytesInt_intBytes k.isInt_code, ht, ne_eq, not_true_eq_false, if_false]

/-- A request with another opcode than the record is an error. -/
theorem replayRequest_of_ne {k : Cmd} (ht : m'.int reqType ≠ k.code)
    (hc : c.rest = intBytes k.code ++ tl) :
    replayRequest frame c m' previousOp =
      (.error (c.pos + 4) k.code (m'.int reqType) previousOp, c.advance 4, m') := by
  simp only [replayRequest, fread_int_of_rest frame 0 hc (length_intBytes _),
    bytesInt_intBytes k.isInt_code, ne_eq, ht.symm, not_false_eq_true, if_true]
  rfl

/-! The branch of each type of request. -/

theorem replayBranch_cmp {f : Fam} (ht : m'.int reqType = f.cmpCmd.code) :
    replayBranch frame c m' = replayCmp frame c m' f.size := by
  simp only [replayBranch, ht]
  cases f <;> simp [Fam.cmpCmd, Cmd.code]

theorem replayBranch_calc {n : Num} {op : CalcOp} (ht : m'.int reqType = (n.calcCmd op).code) :
    replayBranch frame c m' = replayCalc frame c m' n.size := by
  simp only [replayBranch, ht]
  cases n <;> cases op <;> simp [Num.calcCmd, Cmd.code]

theorem replayBranch_bulk {n : Num} (ht : m'.int reqType = n.bulkCmd.code) :
    replayBranch frame c m' = replayBulk frame c m' n.size := by
  simp only [replayBranch, ht]
  cases n <;> simp [Num.bulkCmd, Cmd.code]

theorem replayBranch_year (ht : m'.int reqType = Cmd.timestampExtractYear.code) :
    replayBranch frame c m' = replayYear frame c m' := by
  simp only [replayBranch, ht]
  simp [Cmd.code]

theorem replayBranch_strCmp {q : Request} {left right : EncStr}
    (hq : q = .strCmp left right ∨ q = .strLike left right) (ht : m'.int reqType = q.cmd.code) :
    replayBranch frame c m' = replayStrCmp frame c m' := by
  simp only [replayBranch, ht]
  obtain rfl | rfl := hq <;> simp [Request.cmd, Cmd.code]

theorem replayBranch_substring (ht : m'.int reqType = Cmd.stringSubstring.code) :
    replayBranch frame c m' = replaySubstring frame c m' := by
  simp only [replayBranch, ht]
  simp [Cmd.code]

theorem replayBranch_concat (ht : m'.int reqType = Cmd.stringConcat.code) :
    replayBranch frame c m' = replayConcat frame c m' := by
  simp only [replayBranch, ht]
  simp [Cmd.code]

theorem replayRequest_cmp {f : Fam} {left right : Bytes f.size}
    (h : (Request.cmp f left right).In m) (ht : m'.int reqType = f.cmpCmd.code)
    (hc : c.rest = Recorder.encoding m timestamp ++ tl) :
    replayRequest frame c m' previousOp =
      if m'.read cmpLeft f.size = left.bytes ∧ m'.read (cmpRight f.size) f.size = right.bytes then
        (.answer (m.int resp), c.advance (Recorder.encoding m timestamp).length,
          m'.write (cmpCmp f.size) (m.read (cmpCmp f.size) 4))
      else (.retryFailed, c.advance (Recorder.encoding m timestamp).length, m') := by
  rw [(Recorder.encoding_cmp h).2] at hc ⊢
  rw [List.append_assoc] at hc
  have hrest := Cursor.rest_advance_int hc
  rw [replayRequest_of_eq ht hc, replayBranch_cmp ht, replayCmp_of_rest left.size right.size
    (m.length_read _ _) (m.length_read _ _) timestamp.size hrest, List.length_append,
    length_intBytes, Cursor.advance_advance]
  rfl

theorem replayRequest_calc {n : Num} {op : CalcOp} {left right : Bytes n.size}
    (h : (Request.calcNum n op left right).In m) (ht : m'.int reqType = (n.calcCmd op).code)
    (hc : c.rest = Recorder.encoding m timestamp ++ tl) :
    replayRequest frame c m' previousOp =
      if m'.read calcLeft n.size = left.bytes ∧ m'.read (calcRight n.size) n.size = right.bytes then
        (.answer (m.int resp), c.advance (Recorder.encoding m timestamp).length,
          m'.write (calcRes n.size) (m.read (calcRes n.size) n.size))
      else (.retryFailed, c.advance (Recorder.encoding m timestamp).length, m') := by
  rw [(Recorder.encoding_calc h).2] at hc ⊢
  rw [List.append_assoc] at hc
  have hrest := Cursor.rest_advance_int hc
  rw [replayRequest_of_eq ht hc, replayBranch_calc ht, replayCalc_of_rest left.size right.size
    (m.length_read _ _) (m.length_read _ _) timestamp.size hrest, List.length_append,
    length_intBytes, Cursor.advance_advance]
  rfl

theorem replayRequest_bulk {n : Num} {items : List (Bytes n.size)}
    {hn : items.length ≤ HEDB.bulkSize} (h : (Request.bulk n items hn).In m)
    (ht : m'.int reqType = n.bulkCmd.code) (hc : c.rest = Recorder.encoding m timestamp ++ tl) :
    ∃ k, replayRequest frame c m' previousOp =
      if m'.int Layout.bulkSize = items.length ∧
          items.map Bytes.bytes = Recorder.itemsAt m' n.size items.length then
        (.answer (m.int resp), c.advance (Recorder.encoding m timestamp).length,
          m'.write (bulkRes n.size) (m.read (bulkRes n.size) n.size))
      else (.retryFailed, c.advance k, m') := by
  rw [(Recorder.encoding_bulk h).2] at hc ⊢
  rw [List.append_assoc, List.append_assoc] at hc
  have hrest := Cursor.rest_advance_int hc
  have hsize : bytesInt (intBytes items.length) = (items.map Bytes.bytes).length := by
    rw [List.length_map, Request.bytesInt_length hn]
  have hitems : ∀ x ∈ items.map Bytes.bytes, x.length = n.size := by
    intro x hx
    obtain ⟨y, -, rfl⟩ := List.mem_map.mp hx
    exact y.size
  rw [replayRequest_of_eq ht hc, replayBranch_bulk ht,
    replayBulk_of_rest hitems (length_intBytes _) hsize
    (m.length_read _ _) (m.length_read _ _) timestamp.size hrest, List.length_map]
  simp only [Cursor.advance_advance, List.length_append, length_intBytes]
  by_cases h₁ : m'.int Layout.bulkSize = items.length
  · simp only [h₁, if_true, true_and]
    exact ⟨_, rfl⟩
  · simp only [h₁, if_false, false_and]
    exact ⟨_, rfl⟩

theorem replayRequest_year {input : Bytes encTimestampLength}
    (h : (Request.extractYear input).In m)
    (ht : m'.int reqType = Cmd.timestampExtractYear.code)
    (hc : c.rest = Recorder.encoding m timestamp ++ tl) :
    replayRequest frame c m' previousOp =
      if m'.read yearIn encTimestampLength = input.bytes then
        (.answer (m.int resp), c.advance (Recorder.encoding m timestamp).length,
          m'.write yearRes (m.read yearRes encInt32Length))
      else (.retryFailed, c.advance (Recorder.encoding m timestamp).length, m') := by
  rw [(Recorder.encoding_year h).2] at hc ⊢
  rw [List.append_assoc] at hc
  have hrest := Cursor.rest_advance_int hc
  rw [replayRequest_of_eq ht hc, replayBranch_year ht, replayYear_of_rest input.size
    (m.length_read _ _) (m.length_read _ _) timestamp.size hrest, List.length_append,
    length_intBytes, Cursor.advance_advance]
  rfl

/-- **Text comparison and `LIKE` answer any operands that have the recorded lengths.** -/
theorem replayRequest_strCmp {q : Request} {left right : EncStr}
    (hq : q = .strCmp left right ∨ q = .strLike left right) (h : q.In m)
    (ht : m'.int reqType = q.cmd.code) (hc : c.rest = Recorder.encoding m timestamp ++ tl) :
    replayRequest frame c m' previousOp =
      if (8 + left.len : ℤ) = Recorder.sizeAt m' cmpLeft ∧
          (8 + right.len : ℤ) = Recorder.sizeAt m' (cmpRight sizeofEncStr) then
        (.answer (m.int resp), c.advance (Recorder.encoding m timestamp).length,
          m'.write (cmpCmp sizeofEncStr) (m.read (cmpCmp sizeofEncStr) 4))
      else (.retryFailed, c.advance 12, m') := by
  rw [(Recorder.encoding_strCmp hq h).2] at hc ⊢
  simp only [List.append_assoc] at hc
  have hrest := Cursor.rest_advance_int hc
  rw [replayRequest_of_eq ht hc, replayBranch_strCmp hq ht, replayStrCmp_of_rest (isInt_size left)
    (isInt_size right) (by rw [m.length_read]; omega) (by rw [m.length_read]; omega)
    (m.length_read _ _) (m.length_read _ _) timestamp.size hrest]
  simp only [Cursor.advance_advance, List.length_append, length_intBytes, ← Nat.add_assoc,
    Nat.reduceAdd, fitsEncStr_size left, fitsEncStr_size right, and_self, if_true]
  rfl

theorem replayRequest_substring {str : EncStr} {start length : Bytes encInt32Length}
    (h : (Request.substring str start length).In m) (hres : 0 ≤ Recorder.sizeAt m subRes)
    (ht : m'.int reqType = Cmd.stringSubstring.code)
    (hc : c.rest = Recorder.encoding m timestamp ++ tl) :
    replayRequest frame c m' previousOp =
      if (8 + str.len : ℤ) = Recorder.sizeAt m' subStr then
        if FitsEncStr (Recorder.sizeAt m subRes) then
          if m'.read subStr (8 + str.len) = m.read subStr (8 + str.len) ∧
              m'.read subStart encInt32Length = start.bytes ∧
              m'.read subLength encInt32Length = length.bytes then
            (.answer (m.int resp), c.advance (Recorder.encoding m timestamp).length,
              m'.write subRes (m.read subRes (Recorder.sizeAt m subRes).toNat))
          else (.retryFailed, c.advance (Recorder.encoding m timestamp).length, m')
        else (.fault, c.advance 12, m')
      else (.retryFailed, c.advance 12, m') := by
  rw [Recorder.encoding_substring h hres] at hc ⊢
  simp only [List.append_assoc] at hc
  have hrest := Cursor.rest_advance_int hc
  rw [replayRequest_of_eq ht hc, replayBranch_substring ht, replaySubstring_of_rest (isInt_size str)
    (isInt_sizeAt m subRes) (by rw [m.length_read]; omega) (m.length_read _ _) start.size
    length.size (m.length_read _ _) timestamp.size hrest]
  simp only [Cursor.advance_advance, List.length_append, length_intBytes, ← Nat.add_assoc,
    Nat.reduceAdd, fitsEncStr_size str, true_and,
    show ((8 : ℤ) + str.len).toNat = 8 + str.len by omega]
  rfl

theorem replayRequest_concat {left right : EncStr} (h : (Request.concat left right).In m)
    (hres : 0 ≤ Recorder.sizeAt m (calcRes sizeofEncStr))
    (ht : m'.int reqType = Cmd.stringConcat.code)
    (hc : c.rest = Recorder.encoding m timestamp ++ tl) :
    replayRequest frame c m' previousOp =
      if (8 + left.len : ℤ) = Recorder.sizeAt m' calcLeft ∧
          (8 + right.len : ℤ) = Recorder.sizeAt m' (calcRight sizeofEncStr) then
        if FitsEncStr (Recorder.sizeAt m (calcRes sizeofEncStr)) then
          if m'.read calcLeft (8 + left.len) = m.read calcLeft (8 + left.len) ∧
              m'.read (calcRight sizeofEncStr) (8 + right.len) =
                m.read (calcRight sizeofEncStr) (8 + right.len) then
            (.answer (m.int resp), c.advance (Recorder.encoding m timestamp).length,
              m'.write (calcRes sizeofEncStr) (m.read (calcRes sizeofEncStr)
                (Recorder.sizeAt m (calcRes sizeofEncStr)).toNat))
          else (.retryFailed, c.advance (Recorder.encoding m timestamp).length, m')
        else (.fault, c.advance 16, m')
      else (.retryFailed, c.advance 16, m') := by
  rw [Recorder.encoding_concat h hres] at hc ⊢
  simp only [List.append_assoc] at hc
  have hrest := Cursor.rest_advance_int hc
  rw [replayRequest_of_eq ht hc, replayBranch_concat ht, replayConcat_of_rest (isInt_size left)
    (isInt_size right) (isInt_sizeAt m _) (by rw [m.length_read]; omega)
    (by rw [m.length_read]; omega) (m.length_read _ _) (m.length_read _ _) timestamp.size hrest]
  simp only [Cursor.advance_advance, List.length_append, length_intBytes, ← Nat.add_assoc,
    Nat.reduceAdd, fitsEncStr_size left, fitsEncStr_size right, true_and,
    show ((8 : ℤ) + left.len).toNat = 8 + left.len by omega,
    show ((8 : ℤ) + right.len).toNat = 8 + right.len by omega]
  rfl

/-! ## Same operands, same record -/

/-- Two buffers with the same `EncStr` have the same size word, where that is not negative. -/
theorem sizeAt_of_encStrAt {o : ℕ} {s : EncStr} (hs : Recorder.sizeAt m o = 8 + s.len)
    (h : encStrAt m' o = encStrAt m o) :
    8 + s.len = Recorder.sizeAt m' o ∧ m'.read o (8 + s.len) = m.read o (8 + s.len) := by
  have hlen := congrArg List.length h
  rw [encStrAt, encStrAt, Mem.length_read, Mem.length_read, hs] at hlen
  have hsize : 8 + s.len = Recorder.sizeAt m' o := by omega
  rw [encStrAt, encStrAt, ← hsize, hs, show ((8 : ℤ) + s.len).toNat = 8 + s.len by omega] at h
  exact ⟨hsize, h⟩

/-- The converse of `sizeAt_of_encStrAt`. -/
theorem encStrAt_of_sizeAt {o : ℕ} {s : EncStr} (hs : Recorder.sizeAt m o = 8 + s.len)
    (hs' : 8 + s.len = Recorder.sizeAt m' o)
    (h : m'.read o (8 + s.len) = m.read o (8 + s.len)) : encStrAt m' o = encStrAt m o := by
  rw [encStrAt, encStrAt, ← hs', hs, show ((8 : ℤ) + s.len).toNat = 8 + s.len by omega, h]

/-- A copy of the bytes in use is a copy of the `EncStr`. -/
theorem encStrAt_of_read {o : ℕ} {s : EncStr} (hs : Recorder.sizeAt m o = 8 + s.len)
    (h : m'.read o (8 + s.len) = m.read o (8 + s.len)) : encStrAt m' o = encStrAt m o := by
  have hlen : m'.read (o + strLen) 4 = m.read (o + strLen) 4 :=
    Mem.read_part h (by simp) (by simp; omega)
  have hs' : 8 + s.len = Recorder.sizeAt m' o := by
    rw [Recorder.sizeAt, Mem.uint, hlen]
    exact hs.symm
  exact encStrAt_of_sizeAt hs hs' h

/-- **A request with the operands of the record is answered from it**: it gets the recorded `resp`
and result, and exactly the record is consumed. -/
theorem replayRequest_of_same {q : Request} (h : q.In m) (hq : q.Logged) (hfit : q.ResultFits m)
    (ht : m'.int reqType = q.cmd.code) (ho : operandsAt m' q.cmd = operandsAt m q.cmd)
    (hc : c.rest = Recorder.encoding m timestamp ++ tl) :
    replayRequest frame c m' previousOp =
      (.answer (m.int resp), c.advance (Recorder.encoding m timestamp).length,
        m'.write (q.resultField m).1 (m.read (q.resultField m).1 (q.resultField m).2)) := by
  cases q with
  | cmp f left right =>
    rw [Request.cmd, operandsAt_cmpCmd, operandsAt_cmpCmd] at ho
    obtain ⟨hl, hr⟩ : _ ∧ _ := by simpa only [cmpOperands, List.cons.injEq, and_true] using ho
    obtain ⟨hleft, hright⟩ := h.cmp
    rw [replayRequest_cmp h ht hc, if_pos ⟨hl.trans hleft, hr.trans hright⟩]
    rfl
  | calcNum n op left right =>
    rw [Request.cmd, operandsAt_calcCmd, operandsAt_calcCmd] at ho
    obtain ⟨hl, hr⟩ : _ ∧ _ := by simpa only [calcOperands, List.cons.injEq, and_true] using ho
    obtain ⟨hleft, hright⟩ := h.calcNum
    rw [replayRequest_calc h ht hc, if_pos ⟨hl.trans hleft, hr.trans hright⟩]
    rfl
  | bulk n items hn =>
    rw [Request.cmd, operandsAt_bulkCmd, operandsAt_bulkCmd] at ho
    obtain ⟨hs, hi⟩ := List.cons.inj ho
    have hint : m'.int Layout.bulkSize = m.int Layout.bulkSize := congrArg bytesInt hs
    have hsize := h.bulkSize
    rw [hint, hsize, Int.toNat_natCast, h.itemsAt] at hi
    obtain ⟨k, hk⟩ := replayRequest_bulk h ht hc
    rw [hk, if_pos ⟨hint.trans hsize, hi.symm⟩]
    rfl
  | extractYear input =>
    have hi := (List.cons.inj ho).1
    have hinput := h.extractYear
    rw [replayRequest_year h ht hc, if_pos (hi.trans hinput)]
    rfl
  | strCmp left right =>
    obtain ⟨hl, hr⟩ : _ ∧ _ := by
      simpa only [operandsAt, Request.cmd, List.cons.injEq, and_true] using ho
    rw [replayRequest_strCmp (.inl rfl) h ht hc, if_pos
      ⟨(sizeAt_of_encStrAt (h.sizeAt (by simp [Request.body])) hl).1,
        (sizeAt_of_encStrAt (h.sizeAt (by simp [Request.body])) hr).1⟩]
    rfl
  | strLike left right =>
    obtain ⟨hl, hr⟩ : _ ∧ _ := by
      simpa only [operandsAt, Request.cmd, List.cons.injEq, and_true] using ho
    rw [replayRequest_strCmp (.inr rfl) h ht hc, if_pos
      ⟨(sizeAt_of_encStrAt (h.sizeAt (by simp [Request.body])) hl).1,
        (sizeAt_of_encStrAt (h.sizeAt (by simp [Request.body])) hr).1⟩]
    rfl
  | substring str start length =>
    obtain ⟨hs, hst, hle⟩ : _ ∧ _ ∧ _ := by
      simpa only [operandsAt, Request.cmd, List.cons.injEq, and_true] using ho
    replace hfit : FitsEncStr (Recorder.sizeAt m subRes) := fitsEncStr_of_le hfit
    obtain ⟨hsize, hstr⟩ := sizeAt_of_encStrAt (s := str) (h.sizeAt (by simp [Request.body])) hs
    obtain ⟨hstart, hlength⟩ := h.substring
    rw [replayRequest_substring h hfit.1 ht hc, if_pos hsize, if_pos hfit,
      if_pos ⟨hstr, hst.trans hstart, hle.trans hlength⟩]
    simp only [Request.resultField]
  | concat left right =>
    obtain ⟨hl, hr⟩ : _ ∧ _ := by
      simpa only [operandsAt, Request.cmd, List.cons.injEq, and_true] using ho
    replace hfit : FitsEncStr (Recorder.sizeAt m (calcRes sizeofEncStr)) := fitsEncStr_of_le hfit
    obtain ⟨hls, hleft⟩ := sizeAt_of_encStrAt (s := left) (h.sizeAt (by simp [Request.body])) hl
    obtain ⟨hrs, hright⟩ := sizeAt_of_encStrAt (s := right) (h.sizeAt (by simp [Request.body])) hr
    rw [replayRequest_concat h hfit.1 ht hc, if_pos ⟨hls, hrs⟩, if_pos hfit,
      if_pos ⟨hleft, hright⟩]
    simp only [Request.resultField]
  | enc | dec | strEnc | strDec | evalExpr => exact hq.elim

/-- Copying the bytes of an `EncStr` in use copies its ciphertext. -/
theorem read_cstr_write {o : ℕ} (h : m.uint (o + strLen) ≤ encStringLength) :
    (m'.write o (m.read o (Recorder.sizeAt m o).toNat)).read (o + strCstr)
        ((m'.write o (m.read o (Recorder.sizeAt m o).toNat)).uint (o + strLen)) =
      m.read (o + strCstr) (m.uint (o + strLen)) := by
  have hsize : (Recorder.sizeAt m o).toNat = 8 + m.uint (o + strLen) := by
    rw [sizeAt_of_le h]
    omega
  have hlen : (m'.write o (m.read o (Recorder.sizeAt m o).toNat)).uint (o + strLen) =
      m.uint (o + strLen) := by
    unfold Mem.uint
    rw [Mem.read_write_read _ _ (by simp) (by rw [hsize]; simp; omega)]
  rw [hlen, Mem.read_write_read _ _ (by simp) (by rw [hsize]; simp; omega)]

/-- The caller gets from a replayed buffer what it got from the recorded one. -/
theorem copyResultFrom_write {q : Request} (hq : q.Logged) (hfit : q.ResultFits m) :
    q.copyResultFrom (m'.write (q.resultField m).1
      (m.read (q.resultField m).1 (q.resultField m).2)) = q.copyResultFrom m := by
  cases q with
  | cmp | calcNum | bulk | extractYear | strCmp | strLike =>
    simp only [Request.copyResultFrom, Request.resultField]
    exact Mem.read_write_read _ _ le_rfl le_rfl
  | substring | concat =>
    simp only [Request.copyResultFrom, Request.resultField]
    exact read_cstr_write hfit
  | enc | dec | strEnc | strDec | evalExpr => exact hq.elim

/-- An outcome that is an answer comes from the branch that answers. -/
theorem of_ite_answer {p : Prop} [Decidable p] {a b : Outcome × Cursor × Mem} {v : ℤ}
    {c' : Cursor} {m'' : Mem} (ha : (if p then a else b) = (.answer v, c', m''))
    (hb : ∀ v, b.1 ≠ .answer v) : p := by
  by_contra hp
  rw [if_neg hp] at ha
  exact hb v (by rw [ha])

/-- **A request that is answered has the operands of the record**, except for text comparison and
`LIKE`. -/
theorem operandsAt_of_answer {q : Request} (h : q.In m) (hq : q.Logged)
    (hs : (Recorder.spans m timestamp).isSome) (ht : m'.int reqType = q.cmd.code)
    (hc : c.rest = Recorder.encoding m timestamp ++ tl) {v : ℤ} {c' : Cursor} {m'' : Mem}
    (ha : replayRequest frame c m' previousOp = (.answer v, c', m'')) :
    operandsAt m' q.cmd = operandsAt m q.cmd ∨ q.cmd = .stringCmp ∨ q.cmd = .stringLike := by
  cases q with
  | cmp f left right =>
    rw [replayRequest_cmp h ht hc] at ha
    obtain ⟨hl, hr⟩ := of_ite_answer ha fun v => Outcome.noConfusion
    obtain ⟨hleft, hright⟩ := h.cmp
    left
    rw [Request.cmd, operandsAt_cmpCmd, operandsAt_cmpCmd, cmpOperands, cmpOperands, hl, hr, hleft,
      hright]
  | calcNum n op left right =>
    rw [replayRequest_calc h ht hc] at ha
    obtain ⟨hl, hr⟩ := of_ite_answer ha fun v => Outcome.noConfusion
    obtain ⟨hleft, hright⟩ := h.calcNum
    left
    rw [Request.cmd, operandsAt_calcCmd, operandsAt_calcCmd, calcOperands, calcOperands, hl, hr,
      hleft, hright]
  | bulk n items hn =>
    obtain ⟨k, hk⟩ := replayRequest_bulk h ht hc
    rw [hk] at ha
    obtain ⟨hsize, hi⟩ := of_ite_answer ha fun v => Outcome.noConfusion
    have hread := bytesInt_injective (m'.length_read Layout.bulkSize 4)
      (m.length_read Layout.bulkSize 4) (hsize.trans h.bulkSize.symm)
    left
    rw [Request.cmd, operandsAt_bulkCmd, operandsAt_bulkCmd, bulkOperands, bulkOperands, hread,
      hsize, h.bulkSize, Int.toNat_natCast, h.itemsAt, hi]
  | extractYear input =>
    rw [replayRequest_year h ht hc] at ha
    have hi := of_ite_answer ha fun v => Outcome.noConfusion
    have hinput := h.extractYear
    left
    simp only [Request.cmd, operandsAt, hi, hinput]
  | strCmp left right => exact .inr (.inl rfl)
  | strLike left right => exact .inr (.inr rfl)
  | substring str start length =>
    have hres := (Recorder.spans_substring h).2.mpr hs
    rw [replayRequest_substring h hres ht hc] at ha
    have hsize := of_ite_answer ha fun v => Outcome.noConfusion
    rw [if_pos hsize] at ha
    have hfit := of_ite_answer ha fun v => Outcome.noConfusion
    rw [if_pos hfit] at ha
    obtain ⟨hstr, hst, hle⟩ := of_ite_answer ha fun v => Outcome.noConfusion
    obtain ⟨hstart, hlength⟩ := h.substring
    have hstr' := encStrAt_of_sizeAt (s := str) (h.sizeAt (by simp [Request.body])) hsize hstr
    left
    simp only [Request.cmd, operandsAt, hstr', hst, hle, hstart, hlength]
  | concat left right =>
    have hres := (Recorder.spans_concat h).2.mpr hs
    rw [replayRequest_concat h hres ht hc] at ha
    have hsize := of_ite_answer ha fun v => Outcome.noConfusion
    rw [if_pos hsize] at ha
    have hfit := of_ite_answer ha fun v => Outcome.noConfusion
    rw [if_pos hfit] at ha
    obtain ⟨hl, hr⟩ := of_ite_answer ha fun v => Outcome.noConfusion
    have hl' := encStrAt_of_sizeAt (s := left) (h.sizeAt (by simp [Request.body])) hsize.1 hl
    have hr' := encStrAt_of_sizeAt (s := right) (h.sizeAt (by simp [Request.body])) hsize.2 hr
    left
    simp only [Request.cmd, operandsAt, hl', hr']
  | enc | dec | strEnc | strDec | evalExpr => exact hq.elim

end Outcome

end Replayer

end HEDB
