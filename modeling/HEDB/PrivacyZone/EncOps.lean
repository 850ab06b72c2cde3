import HEDB.PlainOps.Arithmetic
import HEDB.PrivacyZone.Crypto

/-!
# The encrypted operations on numbers

`enc_int_ops.cpp`, `enc_float_ops.cpp` and `enc_timestamp_ops.cpp`. Each operation decrypts its
operands from the request region, applies the plain operation and writes the result back, encrypted
or not. It returns a code and the region that it leaves, or nothing when its behaviour is undefined.

The operations on `EncInt` and `EncFloat` take their left operand through `decrypt_bytes_para`, so
they go on with whatever a failed decryption has left there. `enc_timestamp_cmp` checks both
operands.
-/

namespace HEDB

/-- A process of the privacy zone: its request region and its IV. -/
structure OpsProcess where
  mem : Mem
  iv : Bytes ivSize

/-- Copy `bs` into the region at offset `o`. -/
def OpsProcess.write (r : OpsProcess) (o : ℕ) (bs : List UInt8) : OpsProcess :=
  ⟨r.mem.write o bs, r.iv⟩

open Layout

section Operations

variable (g : Gcm) (F : FloatOps)

/-- `encrypt_bytes` into the region. -/
def encryptInto (r : OpsProcess) (src : List UInt8) (o n : ℕ) : Option (ℤ × OpsProcess) :=
  (g.encryptBytes r.iv src n).map fun (iv, bs) => (0, ⟨r.mem.write o bs, iv⟩)

/-- The comparison of two ciphertexts of `w` bytes. -/
def encCmp (w : ℕ) (plainCmp : List UInt8 → List UInt8 → ℤ) (r : OpsProcess) :
    Option (ℤ × OpsProcess) := do
  let left := g.decryptBytesPara (r.mem.read cmpLeft w)
  let right := g.decryptBytes (r.mem.read (cmpRight w) w)
  if right.1 ≠ 0 then return (right.1, r)
  let cmp := plainCmp (← left) (← right.2)
  return (right.1, r.write (cmpCmp w) (intBytes cmp))

/-- The arithmetic on two ciphertexts of `w` bytes. -/
def encCalc (w : ℕ) (plainCalc : ℤ → List UInt8 → List UInt8 → Option (List UInt8))
    (r : OpsProcess) :
    Option (ℤ × OpsProcess) := do
  let left := g.decryptBytesPara (r.mem.read calcLeft w)
  let right := g.decryptBytes (r.mem.read (calcRight w) w)
  if right.1 ≠ 0 then return (right.1, r)
  let res ← plainCalc (r.mem.int reqType) (← left) (← right.2)
  encryptInto g r res (calcRes w) w

/-- The loop that decrypts the items, up to the first error. -/
def decryptItems : List (List UInt8) → Option (ℤ × List (List UInt8))
  | [] => some (0, [])
  | item :: items => do
    let x := g.decryptBytes item
    if x.1 ≠ 0 then return (x.1, [])
    let out ← x.2
    let (resp, outs) ← decryptItems items
    return (resp, out :: outs)

/-- The items of a bulk request. -/
def bulkArray (m : Mem) (w n : ℕ) : List (List UInt8) :=
  (List.range n).map fun i => m.read (bulkItems + w * i) w

/-- The sum of the items of a bulk request. The request has `BULK_SIZE` items, and the array of
plaintexts as much room. -/
def encSumBulk (w : ℕ) (plainSumBulk : List (List UInt8) → Option (List UInt8)) (r : OpsProcess) :
    Option (ℤ × OpsProcess) := do
  let n := (r.mem.int Layout.bulkSize).toNat
  if HEDB.bulkSize < n then none
  let (resp, xs) ← decryptItems g (bulkArray r.mem w n)
  if resp ≠ 0 then return (resp, r)
  let res ← plainSumBulk xs
  encryptInto g r res (bulkRes w) w

/-- `enc_int32_cmp`. -/
def encInt32Cmp : OpsProcess → Option (ℤ × OpsProcess) :=
  encCmp g encInt32Length fun l r => plainInt32Cmp (bytesInt l) (bytesInt r)

/-- `enc_int32_calc`. -/
def encInt32Calc : OpsProcess → Option (ℤ × OpsProcess) :=
  encCalc g encInt32Length fun reqType l r =>
    (plainInt32Calc F reqType (bytesInt l) (bytesInt r)).map intBytes

/-- `enc_int32_sum_bulk`. -/
def encInt32SumBulk : OpsProcess → Option (ℤ × OpsProcess) :=
  encSumBulk g encInt32Length fun xs => (plainInt32SumBulk (xs.map bytesInt)).map intBytes

/-- `enc_float32_cmp`. -/
def encFloat32Cmp : OpsProcess → Option (ℤ × OpsProcess) :=
  encCmp g encFloat4Length fun l r => plainFloatCmp F (bytesFloat l) (bytesFloat r)

/-- `enc_float32_calc`. -/
def encFloat32Calc : OpsProcess → Option (ℤ × OpsProcess) :=
  encCalc g encFloat4Length fun reqType l r =>
    (plainFloatCalc F reqType (bytesFloat l) (bytesFloat r)).map floatBytes

/-- `enc_float32_sum_bulk`. There are fewer than 15 decryption threads, so it decrypts its items as
`enc_int32_sum_bulk` does. Its array has the size of the request, which must be positive. -/
def encFloat32SumBulk (r : OpsProcess) : Option (ℤ × OpsProcess) := do
  if r.mem.int Layout.bulkSize ≤ 0 then none
  encSumBulk g encFloat4Length
    (fun xs => some (floatBytes (F.narrow (plainFloatSumBulk F (xs.map bytesFloat))))) r

/-- The bytes of an array up to its first zero, as signed characters. -/
def signedString (bs : List UInt8) : Option (List ℤ) :=
  if 0 ∈ bs then some ((bs.takeWhile (· ≠ 0)).map fun b => (BitVec.ofNat 8 b.toNat).toInt) else none

/-- `enc_float32_eval_expr`. All arguments but the last go through `decrypt_bytes_para`, and the
last one is read even when there is none. -/
def encFloat32EvalExpr (r : OpsProcess) : Option (ℤ × OpsProcess) := do
  let last := (r.mem.int exprArgCnt - 1).toNat
  if exprMaxSize ≤ last then none
  let item := fun i => g.decryptBytes (r.mem.read (exprItem i) encFloat4Length)
  if (item last).1 ≠ 0 then return ((item last).1, r)
  let arr := fun i : Fin exprMaxSize =>
    if i.val ≤ last then (item i).2.map bytesFloat else none
  let expr ← signedString (r.mem.read (exprExpr + 4) stringLength)
  let res ← plainFloatEvalExpr F expr arr
  encryptInto g r (floatBytes res) exprRes encFloat4Length

/-- `enc_timestamp_cmp`. -/
def encTimestampCmp (r : OpsProcess) : Option (ℤ × OpsProcess) := do
  let left := g.decryptBytes (r.mem.read cmpLeft encTimestampLength)
  if left.1 ≠ 0 then return (left.1, r)
  let right := g.decryptBytes (r.mem.read (cmpRight encTimestampLength) encTimestampLength)
  if right.1 ≠ 0 then return (right.1, r)
  let cmp := plainTimestampCmp (bytesInt64 (← left.2)) (bytesInt64 (← right.2))
  return (right.1, r.write (cmpCmp encTimestampLength) (intBytes cmp))

/-- `enc_timestamp_extract_year`. -/
def encTimestampExtractYear (r : OpsProcess) : Option (ℤ × OpsProcess) := do
  let t := g.decryptBytes (r.mem.read yearIn encTimestampLength)
  if t.1 ≠ 0 then return (t.1, r)
  let year := plainTimestampExtractYear (bytesInt64 (← t.2))
  encryptInto g r (intBytes year) yearRes encInt32Length

/-- `CMD_INT_ENC`, `CMD_FLOAT_ENC` and `CMD_TIMESTAMP_ENC`. -/
def encEncrypt (f : Fam) (r : OpsProcess) : Option (ℤ × OpsProcess) :=
  encryptInto g r (r.mem.read (encPlain f) f.plainSize) (encCipher f) f.size

/-- `CMD_INT_DEC`, `CMD_FLOAT_DEC` and `CMD_TIMESTAMP_DEC`. -/
def encDecrypt (f : Fam) (r : OpsProcess) : Option (ℤ × OpsProcess) :=
  let x := g.decryptBytes (r.mem.read decCipher f.size)
  some (x.1, x.2.elim r (r.write (decPlain f)))

end Operations

/-! ## Operations on operands that decrypt -/

section Success

variable {g : Gcm} {r : OpsProcess} {w : ℕ}

theorem encryptInto_eq {src : List UInt8} {o n : ℕ} (h : src.length + ivSize + tagSize = n) :
    encryptInto g r src o n =
      some (0, ⟨r.mem.write o (g.gcmEncrypt (increment r.iv) src), increment r.iv⟩) := by
  rw [encryptInto, Gcm.encryptBytes_eq h]
  rfl

theorem encCmp_eq {plainCmp : List UInt8 → List UInt8 → ℤ} {x y : List UInt8}
    (hx : g.decryptBytes (r.mem.read cmpLeft w) = (0, some x))
    (hy : g.decryptBytes (r.mem.read (cmpRight w) w) = (0, some y)) :
    encCmp g w plainCmp r = some (0, r.write (cmpCmp w) (intBytes (plainCmp x y))) := by
  unfold encCmp Gcm.decryptBytesPara
  rw [hx, hy]
  rfl

theorem encCalc_eq {plainCalc : ℤ → List UInt8 → List UInt8 → Option (List UInt8)}
    {x y : List UInt8} (hx : g.decryptBytes (r.mem.read calcLeft w) = (0, some x))
    (hy : g.decryptBytes (r.mem.read (calcRight w) w) = (0, some y)) :
    encCalc g w plainCalc r =
      (plainCalc (r.mem.int reqType) x y).bind fun res => encryptInto g r res (calcRes w) w := by
  unfold encCalc Gcm.decryptBytesPara
  rw [hx, hy]
  rfl

/-- All items are decrypted, in their order. -/
theorem decryptItems_eq {items xs : List (List UInt8)}
    (h : List.Forall₂ (fun item x => g.decryptBytes item = (0, some x)) items xs) :
    decryptItems g items = some (0, xs) := by
  induction h with
  | nil => rfl
  | cons hx _ ih => simp [decryptItems, hx, ih]

theorem encSumBulk_eq {plainSumBulk : List (List UInt8) → Option (List UInt8)}
    {xs : List (List UInt8)} {n : ℕ} (hn : r.mem.int Layout.bulkSize = n) (hle : n ≤ HEDB.bulkSize)
    (h : List.Forall₂ (fun item x => g.decryptBytes item = (0, some x)) (bulkArray r.mem w n) xs) :
    encSumBulk g w plainSumBulk r =
      (plainSumBulk xs).bind fun res => encryptInto g r res (bulkRes w) w := by
  unfold encSumBulk
  rw [hn, Int.toNat_natCast, if_neg (not_lt.2 hle), decryptItems_eq h]
  rfl

theorem encTimestampCmp_eq {x y : List UInt8}
    (hx : g.decryptBytes (r.mem.read cmpLeft encTimestampLength) = (0, some x))
    (hy : g.decryptBytes (r.mem.read (cmpRight encTimestampLength) encTimestampLength) =
      (0, some y)) :
    encTimestampCmp g r = some (0, r.write (cmpCmp encTimestampLength)
      (intBytes (plainTimestampCmp (bytesInt64 x) (bytesInt64 y)))) := by
  unfold encTimestampCmp
  rw [hx, hy]
  rfl

theorem encTimestampExtractYear_eq {t : List UInt8}
    (ht : g.decryptBytes (r.mem.read yearIn encTimestampLength) = (0, some t)) :
    encTimestampExtractYear g r =
      encryptInto g r (intBytes (plainTimestampExtractYear (bytesInt64 t))) yearRes
        encInt32Length := by
  unfold encTimestampExtractYear
  rw [ht]
  rfl

theorem encDecrypt_eq {f : Fam} {p : List UInt8}
    (hp : g.decryptBytes (r.mem.read decCipher f.size) = (0, some p)) :
    encDecrypt g f r = some (0, r.write (decPlain f) p) := by
  unfold encDecrypt
  rw [hp]
  rfl

end Success

end HEDB
