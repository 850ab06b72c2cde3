import HEDB.RecordReplay.Logs

/-!
# Which request a record answers

A record should only answer the request that it was written for. The opcode is checked for every
record, and the operands are compared byte by byte in all branches of `replay_request` but one: for
text comparison and `LIKE` it compares the lengths of the operands and not their bytes. A request
with other texts of the same lengths gets the recorded answer (`answers_other_texts`), and this is
the only way in which a request is answered from a record of another one
(`answers_only_same_iff`).
-/

namespace HEDB

open Layout

namespace Replayer

/-- The buffer holds the opcode and the operands of the recorded request. -/
def SameRequest (k : Completed) (m : Mem) : Prop :=
  m.int reqType = k.req.cmd.code ∧ operandsAt m k.req.cmd = operandsAt k.buf k.req.cmd

/-- The buffer holds a text comparison or a `LIKE` of other operands than the recorded request, and
of the same lengths. -/
def SameLengthsOnly (k : Completed) (m : Mem) : Prop :=
  (k.req.cmd = .stringCmp ∨ k.req.cmd = .stringLike) ∧ m.int reqType = k.req.cmd.code ∧
    Recorder.sizeAt m cmpLeft = Recorder.sizeAt k.buf cmpLeft ∧
    Recorder.sizeAt m (cmpRight sizeofEncStr) = Recorder.sizeAt k.buf (cmpRight sizeofEncStr) ∧
    operandsAt m k.req.cmd ≠ operandsAt k.buf k.req.cmd

/-- `replay_request` returns a recorded `resp`. -/
def IsAnswered (frame : Mem) (c : Cursor) (m : Mem) (previousOp : ℤ) : Prop :=
  ∃ v c' m', replayRequest frame c m previousOp = (.answer v, c', m')

variable {frame : Mem} {c : Cursor} {k : Completed} {m : Mem} {previousOp : ℤ} {tl : List UInt8}

theorem eq_strCmp_of_cmd {q : Request} (h : q.cmd = .stringCmp ∨ q.cmd = .stringLike) :
    ∃ left right, q = .strCmp left right ∨ q = .strLike left right := by
  cases q with
  | strCmp left right => exact ⟨left, right, .inl rfl⟩
  | strLike left right => exact ⟨left, right, .inr rfl⟩
  | cmp f => cases f <;> simp [Request.cmd, Fam.cmpCmd] at h
  | calcNum n op => cases n <;> cases op <;> simp [Request.cmd, Num.calcCmd] at h
  | bulk n => cases n <;> simp [Request.cmd, Num.bulkCmd] at h
  | enc f => cases f <;> simp [Request.cmd, Fam.encCmd] at h
  | dec f => cases f <;> simp [Request.cmd, Fam.decCmd] at h
  | extractYear | substring | concat | strEnc | strDec | evalExpr => simp [Request.cmd] at h

/-- **Text comparison and `LIKE` are answered exactly when the lengths are the recorded ones.** -/
theorem isAnswered_iff_sizes (hcmd : k.req.cmd = .stringCmp ∨ k.req.cmd = .stringLike)
    (hc : c.rest = k.encoding ++ tl) (ht : m.int reqType = k.req.cmd.code) :
    IsAnswered frame c m previousOp ↔
      Recorder.sizeAt m cmpLeft = Recorder.sizeAt k.buf cmpLeft ∧
        Recorder.sizeAt m (cmpRight sizeofEncStr) =
          Recorder.sizeAt k.buf (cmpRight sizeofEncStr) := by
  obtain ⟨left, right, hq⟩ := eq_strCmp_of_cmd hcmd
  have hbody : k.req.body = copyEnc cmpLeft left ++ copyEnc (cmpRight sizeofEncStr) right := by
    rcases hq with hq | hq <;> rw [hq] <;> rfl
  have hleft := k.holds.sizeAt (o := cmpLeft) (s := left) (by rw [hbody]; simp)
  have hright := k.holds.sizeAt (o := cmpRight sizeofEncStr) (s := right) (by rw [hbody]; simp)
  rw [hleft, hright]
  constructor
  · rintro ⟨v, c', m', ha⟩
    rw [replayRequest_strCmp hq k.holds ht hc] at ha
    obtain ⟨hl, hr⟩ := of_ite_answer ha fun v => Outcome.noConfusion
    exact ⟨hl.symm, hr.symm⟩
  · rintro ⟨hl, hr⟩
    exact ⟨_, _, _, (replayRequest_strCmp hq k.holds ht hc).trans (if_pos ⟨hl.symm, hr.symm⟩)⟩

/-- **A request is answered from the record of another one only where lengths stand for operands.**
At the record of a logged request, being answered means being the same request, except exactly when
the request is a text comparison or a `LIKE` of other operands of the recorded lengths. -/
theorem answers_only_same_iff {file : List UInt8} {pre post : List Completed} {R : Recorder}
    (hR : recordRun file (pre ++ k :: post) = some R) (hk : k.req.Logged) (frame m : Mem)
    (previousOp : ℤ) :
    (IsAnswered frame ⟨R.file, (pre.flatMap Completed.encoding).length⟩ m previousOp →
      SameRequest k m) ↔ ¬ SameLengthsOnly k m := by
  obtain ⟨tl, hc⟩ := rest_of_log hR
  have hspans := isSome_spans_of_log hR
  constructor
  · rintro hsame ⟨hcmd, ht, hl, hr, hne⟩
    exact hne (hsame ((isAnswered_iff_sizes hcmd hc ht).mpr ⟨hl, hr⟩)).2
  · intro hlengths ha
    by_cases ht : m.int reqType = k.req.cmd.code
    · refine ⟨ht, ?_⟩
      by_contra hne
      obtain ⟨v, c', m', hreq⟩ := ha
      rcases operandsAt_of_answer k.holds hk hspans ht hc hreq with ho | hcmd
      · exact hne ho
      · obtain ⟨hl, hr⟩ := (isAnswered_iff_sizes hcmd hc ht).mp ⟨v, c', m', hreq⟩
        exact hlengths ⟨hcmd, ht, hl, hr, hne⟩
    · obtain ⟨v, c', m', hreq⟩ := ha
      obtain ⟨tl', hop⟩ := Recorder.encoding_opcode k.holds hk hspans
      rw [Completed.encoding, hop, List.append_assoc] at hc
      rw [replayRequest_of_ne ht hc] at hreq
      cases hreq

/-- An `EncStr` of one byte. -/
def byteStr (b : UInt8) : EncStr := ⟨0, [b], by simp⟩

/-- The comparison of the texts 1 and 1, as it was recorded. -/
def recordedCmp : Completed where
  req := .strCmp (byteStr 1) (byteStr 1)
  buf := (Request.strCmp (byteStr 1) (byteStr 1)).serializeTo Mem.zero
  timestamp := ⟨List.replicate 8 0, rfl⟩
  holds := Request.in_serializeTo _ _

/-- The buffer of a comparison of the texts 2 and 1. -/
def otherCmp : Mem := (Request.strCmp (byteStr 2) (byteStr 1)).serializeTo Mem.zero

theorem answers_only_same_recordedCmp : ∃ R, recordRun [] ([] ++ recordedCmp :: []) = some R ∧
    recordedCmp.req.Logged ∧
    ((IsAnswered Mem.zero ⟨R.file, 0⟩ otherCmp 0 → SameRequest recordedCmp otherCmp) ↔
      ¬ SameLengthsOnly recordedCmp otherCmp) := by
  have hk : recordedCmp.req.Logged := trivial
  obtain ⟨R, hR⟩ := recordRun_isSome [] ([] ++ recordedCmp :: [])
    (List.forall_mem_singleton.mpr ⟨hk, trivial⟩)
  exact ⟨R, hR, hk, answers_only_same_iff hR hk Mem.zero otherCmp 0⟩

/-- **A comparison of 2 and 1 is answered with the record of the comparison of 1 and 1.** -/
theorem answers_other_texts : ∃ R, recordRun [] [recordedCmp] = some R ∧
    IsAnswered Mem.zero ⟨R.file, 0⟩ otherCmp 0 ∧ ¬ SameRequest recordedCmp otherCmp := by
  have hrec := recordedCmp.holds
  have hother : (Request.strCmp (byteStr 2) (byteStr 1)).In otherCmp := Request.in_serializeTo _ _
  obtain ⟨R, hR⟩ := recordRun_isSome [] [recordedCmp]
    (List.forall_mem_singleton.mpr ⟨trivial, trivial⟩)
  obtain ⟨tl, hc⟩ := rest_of_log (show recordRun [] ([] ++ recordedCmp :: []) = some R from hR)
  refine ⟨R, hR, (isAnswered_iff_sizes (.inl rfl) hc hother.reqType).mpr ⟨?_, ?_⟩, ?_⟩
  · rw [hother.sizeAt (s := byteStr 2) (by simp [Request.body]),
      hrec.sizeAt (s := byteStr 1) (by simp [recordedCmp, Request.body])]
    rfl
  · rw [hother.sizeAt (s := byteStr 1) (by simp [Request.body]),
      hrec.sizeAt (s := byteStr 1) (by simp [recordedCmp, Request.body])]
  · rintro ⟨-, ho⟩
    have hleft : encStrAt otherCmp cmpLeft = encStrAt recordedCmp.buf cmpLeft :=
      (List.cons.inj ho).1
    rw [hother.encStrAt (s := byteStr 2) (by simp [Request.body]),
      hrec.encStrAt (s := byteStr 1) (by simp [recordedCmp, Request.body])] at hleft
    have hcstr := congrArg List.getLast? hleft
    simp [byteStr] at hcstr

end Replayer

end HEDB
