import HEDB.Foundations.System
import HEDB.Foundations.WorkerPool
import HEDB.PrivacyZone.Context
import HEDB.PrivacyZone.Handler

/-!
# Parallel decryption

The privacy zone built with `ENABLE_PARA`. There `decrypt_bytes_para` hands a ciphertext to one of
the threads of `args_array` and returns, and `decrypt_wait` waits until all threads are done. The
threads have cipher contexts of their own, and nobody looks at the codes that their decryptions
return.

A `Branch` is what a branch of `handler` does when its operation uses the threads: it hands over
some operands, decrypts the others itself, waits, and goes on with the plain operation. With the
plaintexts that the threads would have with the key, it does what the sequential build does
(`handler_eq_complete`). A decryption that fails and whose report does not fit has no result.
-/

namespace HEDB.Para

open Layout

/-! ## Branches -/

/-- `MAX_DECRYPT_THREAD`. -/
def maxDecryptThread : ℕ := 10

/-- Where the result of an operation goes in the region. -/
inductive Delivery
  | field (o : ℕ)
  /-- Through `encrypt_bytes`. -/
  | cipher (o : ℕ)

def Delivery.offset : Delivery → ℕ
  | field o | cipher o => o

/-- A branch of `handler` whose operation calls `decrypt_bytes_para` or `decrypt_wait`, on a given
region. -/
structure Branch where
  /-- The sources that are handed over, in this order, each with a local variable of its own as
  destination. -/
  jobs : List (List UInt8)
  /-- Nothing, if the local variables are overrun on the way. -/
  ready : Option Unit
  /-- The sources that the operation decrypts itself, up to the first error. -/
  checks : List (List UInt8)
  /-- It calls `decrypt_wait` before it goes on. -/
  waits : Bool
  /-- It calls `decrypt_wait` before it returns an error. -/
  errorWaits : Bool
  /-- The result, from what the destinations hold and what it has decrypted itself. -/
  plain : List (List UInt8) → List (List UInt8) → Option (Bytes 4)
  delivery : Delivery
  /-- A `break` ends the branch. -/
  breaks : Bool
  waits_of_jobs : jobs ≠ [] → waits = true
  length_jobs : errorWaits = false → jobs.length ≤ 1
  /-- It does not wait for texts after an error. -/
  short_jobs : errorWaits = true → ∀ s ∈ jobs, s.length ≤ Gcm.reportMax
  /-- The result comes after the header, and after what is written when the branch runs on. -/
  le_offset : (if breaks then cmpLeft else encCipher .float + Fam.float.size) ≤ delivery.offset

section Branches

variable (F : FloatOps) (m : Mem)

/-- An `int` in a field. -/
def intField (v : ℤ) : Bytes 4 := ⟨intBytes v, length_intBytes v⟩

/-- A `float` in a field. -/
def floatField (v : UInt32) : Bytes 4 := ⟨floatBytes v, length_floatBytes v⟩

/-- An operation on one operand of each kind. -/
def binary (f : List UInt8 → List UInt8 → Option (Bytes 4)) :
    List (List UInt8) → List (List UInt8) → Option (Bytes 4)
  | [left], [right] => f left right
  | _, _ => none

/-- The comparison of two ciphertexts of `w` bytes. -/
def encCmp (w : ℕ) (plainCmp : List UInt8 → List UInt8 → ℤ) : Branch where
  jobs := [m.read cmpLeft w]
  ready := some ()
  checks := [m.read (cmpRight w) w]
  waits := true
  errorWaits := false
  plain := binary fun left right => some (intField (plainCmp left right))
  delivery := .field (cmpCmp w)
  breaks := true
  waits_of_jobs _ := rfl
  length_jobs _ := le_rfl
  short_jobs := by simp
  le_offset := by simp [Delivery.offset]

/-- The arithmetic on two ciphertexts of `w` bytes. -/
def encCalc (w : ℕ) (plainCalc : ℤ → List UInt8 → List UInt8 → Option (Bytes 4)) : Branch where
  jobs := [m.read calcLeft w]
  ready := some ()
  checks := [m.read (calcRight w) w]
  waits := true
  errorWaits := false
  plain := binary (plainCalc (m.int reqType))
  delivery := .cipher (calcRes w)
  breaks := true
  waits_of_jobs _ := rfl
  length_jobs _ := le_rfl
  short_jobs := by simp
  le_offset := by
    show 12 ≤ 16 + 2 * w
    omega

/-- `enc_int32_cmp`. -/
def encInt32Cmp : Branch :=
  encCmp m encInt32Length fun left right => plainInt32Cmp (bytesInt left) (bytesInt right)

/-- `enc_int32_calc`. -/
def encInt32Calc : Branch :=
  encCalc m encInt32Length fun reqType left right =>
    (plainInt32Calc F reqType (bytesInt left) (bytesInt right)).map intField

/-- `enc_float32_cmp`. -/
def encFloat32Cmp : Branch :=
  encCmp m encFloat4Length fun left right => plainFloatCmp F (bytesFloat left) (bytesFloat right)

/-- `enc_float32_calc`. -/
def encFloat32Calc : Branch :=
  encCalc m encFloat4Length fun reqType left right =>
    (plainFloatCalc F reqType (bytesFloat left) (bytesFloat right)).map floatField

/-- `enc_float32_sum_bulk`. There are fewer than 15 threads, so it decrypts its items itself; it
waits all the same. Its array has the size of the request, which must be positive. -/
def encFloat32SumBulk : Branch where
  jobs := []
  ready := if m.int Layout.bulkSize ≤ 0 ∨ HEDB.bulkSize < (m.int Layout.bulkSize).toNat then none
    else some ()
  checks := bulkArray m encFloat4Length (m.int Layout.bulkSize).toNat
  waits := true
  errorWaits := false
  plain _ xs := some (floatField (F.narrow (plainFloatSumBulk F (xs.map bytesFloat))))
  delivery := .cipher (bulkRes encFloat4Length)
  breaks := true
  waits_of_jobs _ := rfl
  length_jobs _ := Nat.zero_le _
  short_jobs := by simp
  le_offset := by simp [Delivery.offset]

/-- `enc_float32_eval_expr`. It waits if it has handed over anything, also after an error. In
`handler` its branch runs on. -/
def encFloat32EvalExpr : Branch :=
  let last := (m.int exprArgCnt - 1).toNat
  { jobs := (List.range last).map fun i => m.read (exprItem i) encFloat4Length
    ready := if exprMaxSize ≤ last then none else some ()
    checks := [m.read (exprItem last) encFloat4Length]
    waits := decide (last ≠ 0)
    errorWaits := decide (last ≠ 0)
    plain := fun xs ys => do
      let expr ← signedString (m.read (exprExpr + 4) stringLength)
      let res ← plainFloatEvalExpr F expr fun i : Fin exprMaxSize =>
        (xs ++ ys)[i.val]?.map bytesFloat
      return floatField res
    delivery := .cipher exprRes
    breaks := false
    waits_of_jobs := by simp
    length_jobs := by
      intro hlast
      simp_all
    short_jobs := by
      intro _ s hs
      obtain ⟨i, -, rfl⟩ := List.mem_map.1 hs
      rw [Mem.length_read]
      decide
    le_offset := by decide }

/-- The plaintext of the `EncStr` at offset `o` fits into the array of a local `Str`. -/
def Fits (o : ℕ) : Prop := (encCstr m o).length - (ivSize + tagSize) ≤ stringLength

instance (o : ℕ) : Decidable (Fits m o) := inferInstanceAs (Decidable (_ ≤ _))

/-- `enc_text_cmp`. -/
def encTextCmp : Branch where
  jobs := [encCstr m cmpLeft]
  ready := if Fits m cmpLeft ∧ Fits m (cmpRight sizeofEncStr) then some () else none
  checks := [encCstr m (cmpRight sizeofEncStr)]
  waits := true
  errorWaits := false
  plain := binary fun left right => do
    terminate m cmpLeft
    terminate m (cmpRight sizeofEncStr)
    return intField (plainTextCmp left right)
  delivery := .field (cmpCmp sizeofEncStr)
  breaks := true
  waits_of_jobs _ := rfl
  length_jobs _ := le_rfl
  short_jobs := by simp
  le_offset := by simp [Delivery.offset]

/-- `enc_text_like`. It ends the left operand with its zero before the right one is decrypted, and
next to the bytes that the thread writes. -/
def encTextLike : Branch where
  jobs := [encCstr m cmpLeft]
  ready := if Fits m cmpLeft ∧ Fits m (cmpRight sizeofEncStr) then terminate m cmpLeft else none
  checks := [encCstr m (cmpRight sizeofEncStr)]
  waits := true
  errorWaits := false
  plain := binary fun left right => do
    terminate m (cmpRight sizeofEncStr)
    return intField (Like.plainTextLike left right)
  delivery := .field (cmpCmp sizeofEncStr)
  breaks := true
  waits_of_jobs _ := rfl
  length_jobs _ := le_rfl
  short_jobs := by simp
  le_offset := by simp [Delivery.offset]

/-- The branch of a command. -/
def branch : Cmd → Option Branch
  | .intPlus | .intMinus | .intMult | .intDiv | .intPow | .intMod => some (encInt32Calc F m)
  | .intCmp => some (encInt32Cmp m)
  | .floatPlus | .floatMinus | .floatMult | .floatDiv | .floatPow | .floatMod =>
    some (encFloat32Calc F m)
  | .floatCmp => some (encFloat32Cmp F m)
  | .floatSumBulk => some (encFloat32SumBulk F m)
  | .floatEvalExpr => some (encFloat32EvalExpr F m)
  | .stringLike => some (encTextLike m)
  | .stringCmp => some (encTextCmp m)
  | _ => none

/-- The branch that `handler` takes, if its operation uses the threads. -/
def handlerBranch : Option Branch := (Cmd.ofCode (m.int reqType)).bind (branch F m)

end Branches

/-! ## What a branch does with the plaintexts -/

section Outcome

variable (g : Gcm) (r : OpsProcess)

/-- The result is delivered. -/
def Delivery.run (res : Bytes 4) : Delivery → Option (ℤ × OpsProcess)
  | field o => some (0, r.write o res.bytes)
  | cipher o => encryptInto g r res.bytes o encInt32Length

/-- The bytes of a result in the region, decrypted if they are a ciphertext. -/
def Delivery.value (m : Mem) : Delivery → Option (List UInt8)
  | field o => some (m.read o 4)
  | cipher o => g.plainOf (m.read o encInt32Length)

namespace Branch

variable (b : Branch)

/-- The code and the plaintexts of the operands that the operation decrypts itself. Only a text can
be too long for its report, and an operation decrypts at most one text itself. -/
def decrypted : Option (ℤ × List (List UInt8)) := b.ready.bind fun () =>
  if ∀ c ∈ b.checks, g.Reported c then decryptItems g b.checks else none

/-- The end of the operation, from what the destinations hold. -/
def finish (xs : List (List UInt8)) (code : ℤ) (ys : List (List UInt8)) : Option (ℤ × OpsProcess) :=
  if code ≠ 0 then some (code, r) else (b.plain xs ys).bind fun res => b.delivery.run g r res

/-- The operation, from what the destinations hold when it looks at them. -/
def outcome (xs : List (List UInt8)) : Option (ℤ × OpsProcess) :=
  (b.decrypted g).bind fun (code, ys) => b.finish g r xs code ys

/-- The rest of the branch. Without a `break` the region is taken for an encryption request. -/
def complete (x : Option (ℤ × OpsProcess)) : Option OpsProcess :=
  if b.breaks then setResp x else (setResp x).bind fun r => setResp (encEncrypt g .float r)

/-- The local variables have the sizes of the plaintexts. -/
def Sized (cells : ℕ → List UInt8) : Prop :=
  ∀ j s, b.jobs[j]? = some s → (cells j).length = s.length - (ivSize + tagSize)

/-- The plaintexts that the sequential build has in the destinations. -/
def plaintexts : Option (List (List UInt8)) :=
  if ∀ s ∈ b.jobs, g.Reported s then some (b.jobs.map fun s => (g.decryptBytesPara s).getD [])
  else none

/-- The operation in the sequential build. -/
def sequential : Option (ℤ × OpsProcess) := (b.plaintexts g).bind (b.outcome g r)

end Branch

end Outcome

/-! ## The sequential build -/

section Sequential

variable {g : Gcm} {F : FloatOps} {r : OpsProcess}

theorem decryptItems_singleton (c : List UInt8) : decryptItems g [c] =
    if (g.decryptBytes c).1 ≠ 0 then some ((g.decryptBytes c).1, [])
    else (g.decryptBytes c).2.bind fun y => some (0, [y]) := by
  simp only [decryptItems, Option.bind_eq_bind, Option.pure_def, Option.bind_some]

theorem decrypted_eq {b : Branch} (hready : b.ready = some ())
    (hchecks : ∀ c ∈ b.checks, g.Reported c) : b.decrypted g = decryptItems g b.checks := by
  rw [Branch.decrypted, hready, Option.bind_some, if_pos hchecks]

/-- An operation that decrypts one operand itself. -/
theorem outcome_singleton {b : Branch} {c : List UInt8} (hready : b.ready = some ())
    (hchecks : b.checks = [c]) (hc : g.Reported c) (xs : List (List UInt8)) : b.outcome g r xs =
      if (g.decryptBytes c).1 ≠ 0 then some ((g.decryptBytes c).1, r)
      else (g.decryptBytes c).2.bind fun y =>
        (b.plain xs [y]).bind fun res => b.delivery.run g r res := by
  rw [Branch.outcome, decrypted_eq hready (by simpa [hchecks] using hc), hchecks]
  simp only [decryptItems_singleton, Branch.finish]
  split_ifs with h
  · exact if_pos h
  · cases (g.decryptBytes c).2 <;> rfl

/-- An operation on two operands of which it decrypts the right one itself. -/
theorem sequential_binary {b : Branch} {left right : List UInt8} (hjobs : b.jobs = [left])
    (hready : b.ready = some ()) (hchecks : b.checks = [right]) (hl : g.Reported left)
    (hr : g.Reported right) {f : List UInt8 → List UInt8 → Option (Bytes 4)}
    (hplain : b.plain = binary f) : b.sequential g r =
      if (g.decryptBytes right).1 ≠ 0 then some ((g.decryptBytes right).1, r)
      else (g.decryptBytes right).2.bind fun y =>
        (f ((g.decryptBytesPara left).getD []) y).bind fun res => b.delivery.run g r res := by
  rw [Branch.sequential, Branch.plaintexts, if_pos (by simpa [hjobs] using hl), Option.bind_some,
    outcome_singleton hready hchecks hr, hplain, hjobs]
  rfl

theorem sequential_of_not_ready {b : Branch} (h : b.ready = none) : b.sequential g r = none := by
  have houtcome : b.outcome g r = fun _ => none := by
    funext xs
    rw [Branch.outcome, Branch.decrypted, h]
    rfl
  rw [Branch.sequential, houtcome, Option.bind_fun_none]

theorem sequential_of_not_reported {b : Branch} {s : List UInt8} (hs : s ∈ b.jobs ++ b.checks)
    (h : ¬ g.Reported s) : b.sequential g r = none := by
  rcases List.mem_append.1 hs with hs | hs
  · rw [Branch.sequential, Branch.plaintexts, if_neg fun hall => h (hall s hs)]
    rfl
  · have houtcome : b.outcome g r = fun _ => none := by
      funext xs
      rw [Branch.outcome, Branch.decrypted, if_neg fun hall => h (hall s hs), Option.bind_fun_none]
      rfl
    rw [Branch.sequential, houtcome, Option.bind_fun_none]

/-- A report of a ciphertext of fixed width fits. -/
theorem reported_read (m : Mem) (o : ℕ) {w : ℕ} (hw : w ≤ Gcm.reportMax) :
    g.Reported (m.read o w) := .inr (by rwa [Mem.length_read])

theorem length_decryptBytesPara (c : List UInt8) :
    ((g.decryptBytesPara c).getD []).length = c.length - (ivSize + tagSize) := by
  unfold Gcm.decryptBytesPara Gcm.decryptBytes
  split_ifs with h
  · rw [Nat.sub_eq_zero_of_le h]
    rfl
  · exact (g.length_output ..).trans List.length_drop

/-- A source that is long enough leaves something in its destination. -/
theorem decryptBytesPara_of_lt {c : List UInt8} (h : ivSize + tagSize < c.length) :
    g.decryptBytesPara c = some ((g.decryptBytesPara c).getD []) := by
  rw [Gcm.decryptBytesPara, Gcm.decryptBytes, if_neg (not_le.2 h)]
  rfl

theorem encCmp_eq_sequential {w : ℕ} (hw : ivSize + tagSize < w) (hw' : w ≤ Gcm.reportMax)
    {plainCmp : List UInt8 → List UInt8 → ℤ} {b : Branch} (hb : b = encCmp r.mem w plainCmp) :
    HEDB.encCmp g w plainCmp r = b.sequential g r := by
  subst hb
  rw [sequential_binary rfl rfl rfl (reported_read _ _ hw') (reported_read _ _ hw') rfl,
    HEDB.encCmp, decryptBytesPara_of_lt (c := r.mem.read cmpLeft w) (by rwa [Mem.length_read])]
  split_ifs with h
  · rfl
  · rw [not_not.1 h]
    rfl

theorem encCalc_eq_sequential {plainCalc : ℤ → List UInt8 → List UInt8 → Option (Bytes 4)}
    {b : Branch} (hb : b = encCalc r.mem encInt32Length plainCalc) :
    HEDB.encCalc g encInt32Length (fun t left right => (plainCalc t left right).map Bytes.bytes) r =
      b.sequential g r := by
  subst hb
  rw [sequential_binary rfl rfl rfl (reported_read _ _ (by decide)) (reported_read _ _ (by decide))
    rfl, HEDB.encCalc, decryptBytesPara_of_lt (c := r.mem.read calcLeft encInt32Length)
      (by rw [Mem.length_read]; decide)]
  split_ifs with h
  · rfl
  · simp [encCalc, Delivery.run, Option.bind_map]

theorem encInt32Calc_eq_sequential :
    HEDB.encInt32Calc g F r = (encInt32Calc F r.mem).sequential g r := by
  rw [← encCalc_eq_sequential (b := encInt32Calc F r.mem) rfl, HEDB.encInt32Calc]
  simp only [Option.map_map]
  rfl

theorem encFloat32Calc_eq_sequential :
    HEDB.encFloat32Calc g F r = (encFloat32Calc F r.mem).sequential g r := by
  rw [← encCalc_eq_sequential (b := encFloat32Calc F r.mem) rfl, HEDB.encFloat32Calc]
  simp only [Option.map_map]
  rfl

theorem encFloat32SumBulk_eq_sequential :
    HEDB.encFloat32SumBulk g F r = (encFloat32SumBulk F r.mem).sequential g r := by
  by_cases h : r.mem.int Layout.bulkSize ≤ 0 ∨ HEDB.bulkSize < (r.mem.int Layout.bulkSize).toNat
  · rw [sequential_of_not_ready (if_pos h), HEDB.encFloat32SumBulk]
    rcases h with h | h
    · rw [if_pos h]
      rfl
    · rw [HEDB.encSumBulk, if_pos h]
      split_ifs <;> rfl
  · have hready : (encFloat32SumBulk F r.mem).ready = some () := if_neg h
    have hchecks : ∀ c ∈ (encFloat32SumBulk F r.mem).checks, g.Reported c := by
      intro c hc
      obtain ⟨i, -, rfl⟩ := List.mem_map.1 hc
      exact reported_read _ _ (by decide)
    have hjobs : (encFloat32SumBulk F r.mem).plaintexts g = some [] :=
      if_pos fun s hs => absurd hs List.not_mem_nil
    obtain ⟨hpos, hle⟩ := not_or.1 h
    rw [Branch.sequential, hjobs, Option.bind_some, Branch.outcome, decrypted_eq hready hchecks,
      HEDB.encFloat32SumBulk, if_neg hpos, HEDB.encSumBulk, if_neg hle]
    rfl

theorem decryptStr_eq_some {m : Mem} {o : ℕ} (h : Fits m o) (hrep : g.Reported (encCstr m o)) :
    decryptStr g m o =
      some ((g.decryptBytes (encCstr m o)).1, (g.decryptBytesPara (encCstr m o)).getD []) := by
  rw [decryptStr_eq_ite, if_pos]
  · rfl
  · exact ⟨hrep, (length_decryptBytesPara _).trans_le h⟩

theorem decryptStr_eq_none {m : Mem} {o : ℕ} (h : ¬ (Fits m o ∧ g.Reported (encCstr m o))) :
    decryptStr g m o = none := by
  rw [decryptStr_eq_ite, if_neg]
  exact fun hle => h ⟨(length_decryptBytesPara _).symm.trans_le hle.2, hle.1⟩

/-- A decryption without an error has a plaintext. -/
theorem decryptBytes_of_code {c : List UInt8} (h : ¬ (g.decryptBytes c).1 ≠ 0) :
    (g.decryptBytes c).2 = some ((g.decryptBytesPara c).getD []) := by
  apply decryptBytesPara_of_lt
  by_contra hle
  rw [Gcm.decryptBytes_of_le (not_lt.1 hle)] at h
  exact h (by decide)

/-- Both builds need the plaintext of a text to fit, and the report of one that fails. -/
theorem sequential_of_decryptStr_eq_none {b : Branch} {m : Mem} {o : ℕ}
    (hready : ¬ Fits m o → b.ready = none) (hs : encCstr m o ∈ b.jobs ++ b.checks)
    (h : ¬ (Fits m o ∧ g.Reported (encCstr m o))) : b.sequential g r = none := by
  by_cases hfits : Fits m o
  · exact sequential_of_not_reported hs fun hrep => h ⟨hfits, hrep⟩
  · exact sequential_of_not_ready (hready hfits)

theorem encTextCmp_eq_sequential :
    HEDB.encTextCmp g r = (encTextCmp r.mem).sequential g r := by
  rw [HEDB.encTextCmp]
  by_cases hl : Fits r.mem cmpLeft ∧ g.Reported (encCstr r.mem cmpLeft)
  swap
  · rw [sequential_of_decryptStr_eq_none (fun hfits => if_neg fun h => hfits h.1)
      (List.mem_append_left _ List.mem_cons_self) hl, decryptStr_eq_none hl]
    rfl
  by_cases hr : Fits r.mem (cmpRight sizeofEncStr) ∧
    g.Reported (encCstr r.mem (cmpRight sizeofEncStr))
  swap
  · rw [sequential_of_decryptStr_eq_none (fun hfits => if_neg fun h => hfits h.2)
      (List.mem_append_right _ List.mem_cons_self) hr, decryptStr_eq_some hl.1 hl.2,
      decryptStr_eq_none hr]
    rfl
  have hready : (encTextCmp r.mem).ready = some () := if_pos ⟨hl.1, hr.1⟩
  rw [sequential_binary rfl hready rfl hl.2 hr.2 rfl, decryptStr_eq_some hl.1 hl.2,
    decryptStr_eq_some hr.1 hr.2]
  simp only [Option.bind_eq_bind, Option.bind_some]
  split_ifs with hcode
  · rfl
  · rw [not_not.1 hcode, decryptBytes_of_code hcode]
    cases terminate r.mem cmpLeft <;> cases terminate r.mem (cmpRight sizeofEncStr) <;> rfl

theorem encTextLike_eq_sequential :
    HEDB.encTextLike g r = (encTextLike r.mem).sequential g r := by
  rw [HEDB.encTextLike]
  by_cases hl : Fits r.mem cmpLeft ∧ g.Reported (encCstr r.mem cmpLeft)
  swap
  · rw [sequential_of_decryptStr_eq_none (fun hfits => if_neg fun h => hfits h.1)
      (List.mem_append_left _ List.mem_cons_self) hl, decryptStr_eq_none hl]
    rfl
  by_cases hr : Fits r.mem (cmpRight sizeofEncStr) ∧
    g.Reported (encCstr r.mem (cmpRight sizeofEncStr))
  swap
  · rw [sequential_of_decryptStr_eq_none (fun hfits => if_neg fun h => hfits h.2)
      (List.mem_append_right _ List.mem_cons_self) hr, decryptStr_eq_some hl.1 hl.2,
      decryptStr_eq_none hr]
    cases terminate r.mem cmpLeft <;> rfl
  have hready : (encTextLike r.mem).ready = terminate r.mem cmpLeft := if_pos ⟨hl.1, hr.1⟩
  rw [decryptStr_eq_some hl.1 hl.2, decryptStr_eq_some hr.1 hr.2]
  cases hterm : terminate r.mem cmpLeft with
  | none =>
    rw [sequential_of_not_ready (hready.trans hterm)]
    rfl
  | some u =>
    rw [sequential_binary rfl (hready.trans hterm) rfl hl.2 hr.2 rfl]
    simp only [Option.bind_eq_bind, Option.bind_some]
    split_ifs with hcode
    · rfl
    · rw [not_not.1 hcode, decryptBytes_of_code hcode]
      cases terminate r.mem (cmpRight sizeofEncStr) <;> rfl

/-- The arguments of an expression, all but the last of them handed over. -/
theorem getElem?_arguments {item : ℕ → List UInt8} (hitem : ∀ i, ivSize + tagSize < (item i).length)
    (last i : ℕ) : ((List.range last).map (fun i => (g.decryptBytesPara (item i)).getD []) ++
      [(g.decryptBytesPara (item last)).getD []])[i]? =
    if i ≤ last then g.decryptBytesPara (item i) else none := by
  have hrange : (List.range last).map (fun i => (g.decryptBytesPara (item i)).getD []) ++
      [(g.decryptBytesPara (item last)).getD []] =
      (List.range (last + 1)).map fun i => (g.decryptBytesPara (item i)).getD [] := by
    rw [List.range_succ, List.map_append]
    rfl
  rw [hrange, List.getElem?_map]
  split_ifs with hi
  · rw [List.getElem?_range (by omega), decryptBytesPara_of_lt (hitem i)]
    rfl
  · rw [List.getElem?_eq_none (by rw [List.length_range]; omega)]
    rfl

theorem encFloat32EvalExpr_eq_sequential :
    HEDB.encFloat32EvalExpr g F r = (encFloat32EvalExpr F r.mem).sequential g r := by
  have hitem : ∀ i, ivSize + tagSize < (r.mem.read (exprItem i) encFloat4Length).length := by
    intro i
    rw [Mem.length_read]
    decide
  by_cases hlast : exprMaxSize ≤ (r.mem.int exprArgCnt - 1).toNat
  · rw [sequential_of_not_ready (if_pos hlast), HEDB.encFloat32EvalExpr, if_pos hlast]
    rfl
  · have hready : (encFloat32EvalExpr F r.mem).ready = some () := if_neg hlast
    have hplain : ∀ xs ys, (encFloat32EvalExpr F r.mem).plain xs ys =
        (signedString (r.mem.read (exprExpr + 4) stringLength)).bind fun expr =>
          (plainFloatEvalExpr F expr fun i : Fin exprMaxSize =>
            (xs ++ ys)[i.val]?.map bytesFloat).bind fun res => some (floatField res) :=
      fun _ _ => rfl
    have hjobs : (encFloat32EvalExpr F r.mem).plaintexts g =
        some ((List.range (r.mem.int exprArgCnt - 1).toNat).map fun i =>
          (g.decryptBytesPara (r.mem.read (exprItem i) encFloat4Length)).getD []) := by
      refine (if_pos fun s hs => ?_).trans (congrArg some List.map_map)
      obtain ⟨i, -, rfl⟩ := List.mem_map.1 hs
      exact reported_read _ _ (by decide)
    rw [Branch.sequential, hjobs, Option.bind_some,
      outcome_singleton hready rfl (reported_read _ _ (by decide)), HEDB.encFloat32EvalExpr,
      if_neg hlast]
    dsimp only
    split_ifs with hcode
    · rfl
    · rw [decryptBytes_of_code hcode, Option.bind_some, hplain]
      simp only [getElem?_arguments hitem, apply_ite, Option.map_none, Option.bind_assoc]
      rfl

/-- **The sequential build is the branch on the plaintexts** of the operands that would be handed
over.
-/
theorem handler_eq_complete {b : Branch} (hb : handlerBranch F r.mem = some b) :
    handler g F r = b.complete g (b.sequential g r) := by
  obtain ⟨cmd, hcmd, hb⟩ := Option.bind_eq_some_iff.1 hb
  rw [handler, hcmd]
  cases cmd <;> cases hb
  case intCmp => exact congrArg setResp (encCmp_eq_sequential (by decide) (by decide) rfl)
  case floatCmp => exact congrArg setResp (encCmp_eq_sequential (by decide) (by decide) rfl)
  case floatSumBulk => exact congrArg setResp encFloat32SumBulk_eq_sequential
  case stringCmp => exact congrArg setResp encTextCmp_eq_sequential
  case stringLike => exact congrArg setResp encTextLike_eq_sequential
  case floatEvalExpr =>
    show (setResp (HEDB.encFloat32EvalExpr g F r)).bind _ = _
    rw [encFloat32EvalExpr_eq_sequential]
    rfl
  case intPlus | intMinus | intMult | intDiv | intPow | intMod =>
    exact congrArg setResp encInt32Calc_eq_sequential
  all_goals exact congrArg setResp encFloat32Calc_eq_sequential

end Sequential

end HEDB.Para
