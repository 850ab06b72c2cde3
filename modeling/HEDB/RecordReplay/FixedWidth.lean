import HEDB.RecordReplay.Logs

/-!
# Record and replay of fixed-width operations

For the operations on `EncInt`, `EncFloat` and `EncTimestamp` a request determines its operand
fields, so that the same request sent again has the operands of its record whatever else is in the
buffer (`operandsAt_of_in`). A session that sends the requests of a recorded run again gets the
recorded answers (`replay_fixedWidth`).

The one exception is the first request of the session: `replay` looks for a file that does not
return `-RETRY_FAILED`, and takes a recorded `resp` of that value for a mismatch
(`replay_reservedPlus`).
-/

namespace HEDB

open Layout

/-! ## Fixed-width requests -/

namespace Request

/-- Arithmetic, comparison, sums and year extraction on the fixed-width types. -/
def FixedWidth : Request → Prop
  | .cmp _ _ _ | .calcNum _ _ _ _ | .bulk _ _ _ | .extractYear _ => True
  | _ => False

variable {q : Request} {m m' : Mem}

theorem FixedWidth.logged (hq : q.FixedWidth) : q.Logged := by
  cases q with
  | cmp | calcNum | bulk | extractYear => trivial
  | strCmp | strLike | substring | concat | enc | dec | strEnc | strDec | evalExpr => exact hq.elim

theorem FixedWidth.resultFits (hq : q.FixedWidth) (m : Mem) : q.ResultFits m := by
  cases q with
  | cmp | calcNum | bulk | extractYear => trivial
  | strCmp | strLike | substring | concat | enc | dec | strEnc | strDec | evalExpr => exact hq.elim

/-- **A fixed-width request determines its operands in the buffer.** -/
theorem operandsAt_of_in (hq : q.FixedWidth) (h : q.In m) (h' : q.In m') :
    operandsAt m' q.cmd = operandsAt m q.cmd := by
  cases q with
  | cmp f left right =>
    simp only [cmd, operandsAt_cmpCmd, cmpOperands, h.cmp, h'.cmp]
  | calcNum n op left right =>
    simp only [cmd, operandsAt_calcCmd, calcOperands, h.calcNum, h'.calcNum]
  | bulk n items hn =>
    have hs : m'.read Layout.bulkSize 4 = m.read Layout.bulkSize 4 :=
      bytesInt_injective (m'.length_read _ _) (m.length_read _ _)
        (h'.bulkSize.trans h.bulkSize.symm)
    simp only [cmd, operandsAt_bulkCmd, bulkOperands, hs, h.bulkSize, h'.bulkSize,
      Int.toNat_natCast, h.itemsAt, h'.itemsAt]
  | extractYear input =>
    simp only [cmd, operandsAt, h.extractYear, h'.extractYear]
  | strCmp | strLike | substring | concat | enc | dec | strEnc | strDec | evalExpr => exact hq.elim

end Request

namespace Replayer

variable {fs : String → List UInt8} {k : Completed} {m : Mem} {tl : List UInt8}

/-- The same fixed-width request sent again. -/
theorem resends_of_in (hk : k.req.FixedWidth) (h : k.req.In m) : Resends k m :=
  resends_of_same hk.logged (hk.resultFits k.buf) h.reqType
    (Request.operandsAt_of_in hk k.holds h)

/-- **Record then replay is the identity on fixed-width operations**: a session that sends the
requests of a recorded run again, in any buffers and with any stack contents, gets the recorded
`resp` and the recorded result of each, provided the first `resp` is not the value that stands for
a mismatch. -/
theorem replay_fixedWidth (ks : List Completed) (hks : ∀ k ∈ ks, k.req.FixedWidth)
    (hfirst : ∀ k ∈ ks.head?, k.resp ≠ retryFailed) (is : List (Mem × Mem))
    (his : List.Forall₂ (fun k i => k.req.In i.2) ks is) (name : String) (previousOp : ℤ) :
    ∃ R, recordRun [] ks = some R ∧ ∀ fs : String → List UInt8, fs name = R.file →
      List.Forall₂ Answers ks (readAll (call fs) is (start [name] previousOp)).1 := by
  obtain ⟨R, hR⟩ := recordRun_isSome [] ks fun k hk =>
    ⟨(hks k hk).logged, (hks k hk).resultFits _⟩
  refine ⟨R, hR, fun fs hfs => ?_⟩
  obtain ⟨tl, hfile⟩ := file_of_log hR
  have hresends : List.Forall₂ (fun k i => Resends k i.2) ks is := by
    refine List.forall₂_iff_zip.mpr ⟨his.length_eq, fun {k i} hki => ?_⟩
    exact resends_of_in (hks k (List.of_mem_zip hki).1) (List.forall₂_zip his hki)
  cases hresends with
  | nil => exact .nil
  | @cons k i ks is hki hrest =>
    rw [List.flatMap_cons, List.append_assoc] at hfile
    obtain ⟨hout, hbefore⟩ := next_start previousOp (hfs.trans hfile) (hfirst k rfl) i hki
    exact .cons (hout ▸ answers_replayed hki) (readAll_spec reads_call hrest hbefore).1

/-! ## The reserved answer -/

/-- The ciphertext of `w` zero bytes. -/
def zeroBytes (w : ℕ) : Bytes w := ⟨List.replicate w 0, List.length_replicate⟩

/-- `CMD_INT_PLUS` on two ciphertexts of zeros, answered with `resp = 10086`. -/
def reservedPlus : Completed where
  req := .calcNum .int .plus (zeroBytes _) (zeroBytes _)
  buf := ((Request.calcNum .int .plus (zeroBytes _) (zeroBytes _)).serializeTo Mem.zero).setInt
    Layout.resp retryFailed
  timestamp := zeroBytes _
  holds := by
    apply Mem.Holds.write (Request.in_serializeTo _ _)
    simp [Request.writes, Request.body, Mem.Apart]

theorem in_zeroPlus : (Request.calcNum .int .plus (zeroBytes _) (zeroBytes _)).In
    ((Request.calcNum .int .plus (zeroBytes _) (zeroBytes _)).serializeTo Mem.zero) :=
  Request.in_serializeTo _ Mem.zero

theorem in_zeroCmp : (Request.cmp .timestamp (zeroBytes _) (zeroBytes _)).In
    ((Request.cmp .timestamp (zeroBytes _) (zeroBytes _)).serializeTo Mem.zero) :=
  Request.in_serializeTo _ Mem.zero

/-- `CMD_INT_PLUS` on two ciphertexts of zeros, as it was recorded. -/
def samplePlus : Completed :=
  ⟨.calcNum .int .plus (zeroBytes _) (zeroBytes _), _, zeroBytes _, in_zeroPlus⟩

/-- A comparison of two timestamps. -/
def sampleCmp : Completed :=
  ⟨.cmp .timestamp (zeroBytes _) (zeroBytes _), _, zeroBytes _, in_zeroCmp⟩

/-- The two in one run. -/
def sampleRun : List Completed := [samplePlus, sampleCmp]

theorem replay_fixedWidth_sampleRun : (∀ k ∈ sampleRun, k.req.FixedWidth) ∧
    (∀ k ∈ sampleRun.head?, k.resp ≠ retryFailed) ∧
    ∃ R, recordRun [] sampleRun = some R ∧ ∀ fs : String → List UInt8, fs "record.log" = R.file →
      List.Forall₂ Answers sampleRun (readAll (call fs)
        (sampleRun.map fun k => (Mem.zero, k.buf)) (start ["record.log"] 0)).1 := by
  have hfixed : ∀ k ∈ sampleRun, k.req.FixedWidth := by
    simp [sampleRun, samplePlus, sampleCmp, Request.FixedWidth]
  have hfirst : ∀ k ∈ sampleRun.head?, k.resp ≠ retryFailed := by
    simp only [sampleRun, List.head?_cons, Option.mem_some_iff, forall_eq']
    decide
  refine ⟨hfixed, hfirst, replay_fixedWidth sampleRun hfixed hfirst _ ?_ _ _⟩
  rw [List.forall₂_map_right_iff, List.forall₂_same]
  exact fun k _ => k.holds

/-- **A session whose first recorded `resp` is 10086 fails**: the log of one request does not answer
this request. -/
theorem replay_reservedPlus : ∃ R, recordRun [] [reservedPlus] = some R ∧
    ∀ fs : String → List UInt8, fs "record.log" = R.file →
      reservedPlus.resp = 10086 ∧
      (readAll (call fs) [(Mem.zero, reservedPlus.buf)] (start ["record.log"] 0)).1.map Prod.fst =
        [.returned (-1)] := by
  have hfixed : reservedPlus.req.FixedWidth := trivial
  obtain ⟨R, hR⟩ := recordRun_isSome [] [reservedPlus]
    (List.forall_mem_singleton.mpr ⟨hfixed.logged, hfixed.resultFits _⟩)
  refine ⟨R, hR, fun fs hfs => ?_⟩
  obtain ⟨tl, hfile⟩ := file_of_log hR
  rw [List.flatMap_singleton] at hfile
  have hresp : reservedPlus.resp = retryFailed := Mem.int_setInt _ _ (by decide)
  have hresends : Resends reservedPlus reservedPlus.buf :=
    resends_of_in hfixed reservedPlus.holds
  refine ⟨hresp, ?_⟩
  have hret := call_start_of_reserved (i := (Mem.zero, reservedPlus.buf)) 0 hresends
    (hfs.trans hfile) hresp
  simp only [readAll, List.map_cons, List.map_nil, hret]

end Replayer

end HEDB
