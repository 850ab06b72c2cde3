import HEDB.PlainOps.Like
import HEDB.PrivacyZone.EncOps
import HEDB.PrivacyZone.Reporting

/-!
# The request handler

The operations on text of `enc_text_ops.cpp`, with their plain counterparts of `plain_text_ops.c`,
and `handler` of `handler.cpp`, the switch on the request type.

The operations on text keep their operands in local arrays of `STRING_LENGTH` bytes and end each
with a zero. So the longest string that they take has one byte less; with a longer one they write
past the array. A ciphertext of a text can also be too long for the report of `decrypt_bytes`, which
those of the other types are not.
-/

namespace HEDB

open Layout

/-! ## Text -/

/-- The C string in an array. -/
def cString (bs : List UInt8) : List UInt8 := bs.takeWhile (· ≠ 0)

/-- `strcmp` on two C strings, the difference of the first bytes in which they differ. -/
def strcmp : List UInt8 → List UInt8 → ℤ
  | [], [] => 0
  | [], b :: _ => -(b.toNat : ℤ)
  | a :: _, [] => a.toNat
  | a :: as, b :: bs => if a = b then strcmp as bs else (a.toNat : ℤ) - b.toNat

/-- `plain_text_cmp`. -/
def plainTextCmp (lhs rhs : List UInt8) : ℤ := strcmp (cString lhs) (cString rhs)

/-- `plain_text_concat`. The sum and the zero after it must fit into the array of the left
operand. -/
def plainTextConcat (left right : List UInt8) : Option (List UInt8) :=
  if left.length + right.length < stringLength then some (left ++ right) else none

/-- `SubText`, on the array of the source. The destination gets a zero behind its last byte. -/
def subText (src : List UInt8) (start length : ℤ) : Option (List UInt8) :=
  if 0 ≤ length ∧ length < stringLength then
    (List.range length.toNat).mapM fun i : ℕ =>
      if 0 ≤ start + i - 1 then src[(start + i - 1).toNat]? else none
  else none

/-- `plain_text_substring`. -/
def plainTextSubstring : List UInt8 → ℤ → ℤ → Option (List UInt8) := subText

/-- The length of the plaintext of an `EncStr`, in unsigned arithmetic. -/
def plainLen (len : ℕ) : ℕ := (toUnsigned ((len : ℤ) - ivSize - tagSize)).toNat

/-- The ciphertext of the `EncStr` at offset `o`. -/
def encCstr (m : Mem) (o : ℕ) : List UInt8 := m.read (o + strCstr) (m.uint (o + strLen))

/-- The zero that ends the plaintext of the `EncStr` at offset `o` must fit into its array. -/
def terminate (m : Mem) (o : ℕ) : Option Unit :=
  if plainLen (m.uint (o + strLen)) < stringLength then some () else none

section Operations

variable (g : Gcm) (F : FloatOps)

/-- `decrypt_bytes` from the `EncStr` at offset `o` to a local `Str`: the return code and the bytes
that it writes, which must fit into the array. -/
def decryptStr (m : Mem) (o : ℕ) : Option (ℤ × List UInt8) := do
  let x ← g.decryptBytesReporting (encCstr m o) Gcm.zeroStack Gcm.zeroStack
  if (x.2.getD []).length ≤ stringLength then some (x.1, x.2.getD []) else none

/-- `enc_text_cmp`. The left operand goes through `decrypt_bytes_para`. -/
def encTextCmp (r : OpsProcess) : Option (ℤ × OpsProcess) := do
  let left ← decryptStr g r.mem cmpLeft
  let right ← decryptStr g r.mem (cmpRight sizeofEncStr)
  if right.1 ≠ 0 then return (right.1, r)
  terminate r.mem cmpLeft
  terminate r.mem (cmpRight sizeofEncStr)
  let cmp := plainTextCmp left.2 right.2
  return (right.1, r.write (cmpCmp sizeofEncStr) (intBytes cmp))

/-- `enc_text_like`. The left operand goes through `decrypt_bytes_para`. -/
def encTextLike (r : OpsProcess) : Option (ℤ × OpsProcess) := do
  let left ← decryptStr g r.mem cmpLeft
  terminate r.mem cmpLeft
  let right ← decryptStr g r.mem (cmpRight sizeofEncStr)
  if right.1 ≠ 0 then return (right.1, r)
  terminate r.mem (cmpRight sizeofEncStr)
  let cmp := Like.plainTextLike left.2 right.2
  return (right.1, r.write (cmpCmp sizeofEncStr) (intBytes cmp))

/-- The length of the result and the result itself, at offset `o`. -/
def encryptStrInto (r : OpsProcess) (src : List UInt8) (o : ℕ) : Option (ℤ × OpsProcess) :=
  let len := src.length + ivSize + tagSize
  encryptInto g ⟨r.mem.setUint (o + strLen) len, r.iv⟩ src (o + strCstr) len

/-- `enc_text_concatenate`. -/
def encTextConcatenate (r : OpsProcess) : Option (ℤ × OpsProcess) := do
  let left ← decryptStr g r.mem calcLeft
  if left.1 ≠ 0 then return (left.1, r)
  terminate r.mem calcLeft
  let right ← decryptStr g r.mem (calcRight sizeofEncStr)
  if right.1 ≠ 0 then return (right.1, r)
  terminate r.mem (calcRight sizeofEncStr)
  let res ← plainTextConcat left.2 right.2
  encryptStrInto g r res (calcRes sizeofEncStr)

/-- The array of a local `Str` that holds a text: the text, the zero behind it, and what has been on
the stack. -/
def strData (r : OpsProcess) (text : List UInt8) : List UInt8 :=
  text ++ 0 :: (List.range (stringLength - (text.length + 1))).map fun i =>
    F.residue r.mem r.iv.bytes (text.length + 1 + i)

/-- `enc_text_substring`. -/
def encTextSubstring (r : OpsProcess) : Option (ℤ × OpsProcess) := do
  let str ← decryptStr g r.mem subStr
  if str.1 ≠ 0 then return (str.1, r)
  terminate r.mem subStr
  let start := g.decryptBytes (r.mem.read subStart encInt32Length)
  if start.1 ≠ 0 then return (start.1, r)
  let length := g.decryptBytes (r.mem.read subLength encInt32Length)
  if length.1 ≠ 0 then return (length.1, r)
  let sub ← plainTextSubstring (strData F r str.2) (bytesInt (← start.2)) (bytesInt (← length.2))
  encryptStrInto g r sub subRes

/-- `CMD_STRING_ENC`. -/
def encStringEnc (r : OpsProcess) : Option (ℤ × OpsProcess) :=
  let len := r.mem.uint strEncPlain
  let cipherLen := (toUnsigned ((len : ℤ) + ivSize + tagSize)).toNat
  let m := r.mem.setUint (strEncCipher + strLen) cipherLen
  encryptInto g ⟨m, r.iv⟩ (m.read (strEncPlain + 4) len) (strEncCipher + strCstr) cipherLen

/-- The size of a request region. -/
def reqRegionSize : ℕ := 1024 * 1024

/-- `CMD_STRING_DEC`. The zero after the plaintext must be in the region. -/
def encStringDec (r : OpsProcess) : Option (ℤ × OpsProcess) := do
  let len := plainLen (r.mem.uint (strDecCipher + strLen))
  let m := r.mem.setUint strDecPlain len
  let x ← g.decryptBytesReporting (encCstr m strDecCipher) Gcm.zeroStack Gcm.zeroStack
  let m := x.2.elim m (m.write (strDecPlain + 4))
  if strDecPlain + 4 + len < reqRegionSize then
    some (x.1, ⟨m.write (strDecPlain + 4 + len) [0], r.iv⟩)
  else none

/-! ## The switch -/

/-- Store the result of an operation in the `resp` field. -/
def setResp (x : Option (ℤ × OpsProcess)) : Option OpsProcess :=
  x.map fun (resp, r) => ⟨r.mem.setInt Layout.resp resp, r.iv⟩

/-- The branch of a command. -/
def handleCmd : Cmd → OpsProcess → Option OpsProcess
  | .intPlus | .intMinus | .intMult | .intDiv | .intPow | .intMod => fun r =>
    setResp (encInt32Calc g F r)
  | .intCmp => fun r => setResp (encInt32Cmp g r)
  | .intSumBulk => fun r => setResp (encInt32SumBulk g r)
  | .intEnc => fun r => setResp (encEncrypt g .int r)
  | .intDec => fun r => setResp (encDecrypt g .int r)
  | .floatPlus | .floatMinus | .floatMult | .floatDiv | .floatPow | .floatMod => fun r =>
    setResp (encFloat32Calc g F r)
  | .floatCmp => fun r => setResp (encFloat32Cmp g F r)
  | .floatSumBulk => fun r => setResp (encFloat32SumBulk g F r)
  -- There is no `break` here: the region is then taken for an encryption request.
  | .floatEvalExpr => fun r =>
    do setResp (encEncrypt g .float (← setResp (encFloat32EvalExpr g F r)))
  | .floatEnc => fun r => setResp (encEncrypt g .float r)
  | .floatDec => fun r => setResp (encDecrypt g .float r)
  | .timestampExtractYear => fun r => setResp (encTimestampExtractYear g r)
  | .timestampCmp => fun r => setResp (encTimestampCmp g r)
  | .timestampEnc => fun r => setResp (encEncrypt g .timestamp r)
  | .timestampDec => fun r => setResp (encDecrypt g .timestamp r)
  | .stringSubstring => fun r => setResp (encTextSubstring g F r)
  | .stringConcat => fun r => setResp (encTextConcatenate g r)
  | .stringLike => fun r => setResp (encTextLike g r)
  | .stringCmp => fun r => setResp (encTextCmp g r)
  | .stringEnc => fun r => setResp (encStringEnc g r)
  | .stringDec => fun r => setResp (encStringDec g r)

/-- `handler`. -/
def handler (r : OpsProcess) : Option OpsProcess :=
  match Cmd.ofCode (r.mem.int reqType) with
  | some c => handleCmd g F c r
  | none => some r

/-- The server process on a region with a request: `fork_ops_process` between `SENT` and `DONE`. -/
def serve (r : OpsProcess) : Option OpsProcess :=
  if 0 < r.mem.int reqType then handler g F r else some r

end Operations

variable {g : Gcm} {F : FloatOps}

theorem length_strData {text : List UInt8} (h : text.length < stringLength) (r : OpsProcess) :
    (strData F r text).length = stringLength := by
  rw [strData, List.length_append, List.length_cons, List.length_map, List.length_range]
  omega

theorem decryptStr_eq_ite (m : Mem) (o : ℕ) : decryptStr g m o =
    if g.Reported (encCstr m o) ∧
      ((g.decryptBytes (encCstr m o)).2.getD []).length ≤ stringLength then
      some ((g.decryptBytes (encCstr m o)).1, (g.decryptBytes (encCstr m o)).2.getD [])
    else none := by
  rw [decryptStr, Gcm.decryptBytesReporting_eq_ite, ite_and]
  by_cases h : g.Reported (encCstr m o)
  · rw [if_pos h, if_pos h]
    rfl
  · rw [if_neg h, if_neg h]
    rfl

/-- The server runs the branch of the request in the region. -/
theorem serve_of_in {q : Request} {r : OpsProcess} (h : q.In r.mem) :
    serve g F r = handleCmd g F q.cmd r := by
  rw [serve, handler, h.reqType, if_pos q.cmd.code_pos, Cmd.ofCode_code]

theorem setResp_some (resp : ℤ) (r : OpsProcess) :
    setResp (some (resp, r)) = some ⟨r.mem.setInt Layout.resp resp, r.iv⟩ := rfl

end HEDB
