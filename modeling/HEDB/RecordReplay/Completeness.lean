import HEDB.RecordReplay.SeveralLogs

/-!
# Which requests have a record

The recorder decides by ranges of opcodes which requests it logs, and the replayer by a list of
exclusions which ones it looks up in a log. The two agree on all commands but one:
`CMD_FLOAT_EVAL_EXPR` lies outside of the ranges and is not excluded (`logged_iff`).

`record` appends one record for each request of the other types (`isRecordOf_encoding`) and nothing
for the rest (`encoding_of_not_logged`). So a log is complete exactly when no expression was
evaluated during the run (`complete_iff`).
-/

namespace HEDB

open Layout

/-! ## The requests that are logged -/

theorem Replayer.logged_iff {q : Request} :
    q.Logged ↔ ¬ NotReplayed q.cmd.code ∧ q.cmd ≠ .floatEvalExpr := by
  constructor
  · intro hq
    refine ⟨not_notReplayed hq, fun hcmd => ?_⟩
    cases q with
    | cmp f => cases f <;> cases hcmd
    | calcNum n op => cases n <;> cases op <;> cases hcmd
    | bulk n => cases n <;> cases hcmd
    | extractYear | strCmp | strLike | substring | concat => cases hcmd
    | enc | dec | strEnc | strDec | evalExpr => exact hq
  · rintro ⟨hreplayed, hcmd⟩
    cases q with
    | cmp | calcNum | bulk | extractYear | strCmp | strLike | substring | concat => trivial
    | enc f | dec f => cases f <;> exact hreplayed (of_decide_eq_true rfl)
    | strEnc | strDec => exact hreplayed (of_decide_eq_true rfl)
    | evalExpr => exact hcmd rfl

namespace Recorder

variable {q : Request} {m : Mem}

theorem spans_of_not_logged (h : q.In m) (hq : ¬ q.Logged) (timestamp : Bytes sizeofUint64) :
    spans m timestamp = some [] := by
  simp only [spans, h.reqType]
  cases q with
  | cmp | calcNum | bulk | extractYear | strCmp | strLike | substring | concat =>
    exact absurd trivial hq
  | enc f | dec f => cases f <;> rfl
  | strEnc | strDec | evalExpr => rfl

/-- Nothing is written for the other requests. -/
theorem encoding_of_not_logged (h : q.In m) (hq : ¬ q.Logged) (timestamp : Bytes sizeofUint64) :
    encoding m timestamp = [] := by
  rw [encoding, spans_of_not_logged h hq]
  rfl

end Recorder

/-! ## Complete logs -/

namespace Replayer

/-- The bytes are one record of the request: they start with its opcode, and a reader to whom the
request is sent again answers from them and reads all of them. A result that does not fit an
`EncStr` is not read back. -/
structure IsRecordOf (k : Completed) (bs : List UInt8) : Prop where
  opcode : ∃ tl, bs = intBytes k.req.cmd.code ++ tl
  answers : k.req.ResultFits k.buf → ∀ {frame m : Mem} {c : Cursor} {previousOp : ℤ}
    {tl : List UInt8}, m.int reqType = k.req.cmd.code →
    operandsAt m k.req.cmd = operandsAt k.buf k.req.cmd → c.rest = bs ++ tl →
    replayRequest frame c m previousOp = (.answer k.resp, c.advance bs.length, replayed k m)

/-- A run has left a complete log: for each request that `replay` looks up in a log, `record` has
appended one record, which stands where the reader is after the records of the requests before, and
for the others it has appended nothing. -/
def Complete (file : List UInt8) (ks : List Completed) (R : Recorder) : Prop :=
  ∀ pre k post, ks = pre ++ k :: post → ∃ r r' bs, recordRun file pre = some r ∧
    r.record k.buf k.timestamp = some r' ∧ r'.contents = r.contents ++ bs ∧
    (NotReplayed k.req.cmd.code → bs = []) ∧
    (¬ NotReplayed k.req.cmd.code → IsRecordOf k bs ∧
      ∃ tl, (Cursor.mk R.file r.contents.length).rest = bs ++ tl)

variable {file : List UInt8} {ks pre post : List Completed} {k : Completed} {R : Recorder}

theorem isRecordOf_encoding (hk : k.req.Logged)
    (hs : (Recorder.spans k.buf k.timestamp).isSome) : IsRecordOf k k.encoding :=
  ⟨Recorder.encoding_opcode k.holds hk hs,
    fun hfit _ _ _ _ _ ht ho hc => (resends_of_same hk hfit ht ho).replayRequest hc⟩

theorem not_isRecordOf_nil : ¬ IsRecordOf k [] := by
  rintro ⟨⟨tl, h⟩, -⟩
  have hlen := congrArg List.length h
  rw [List.length_append, length_intBytes, List.length_nil] at hlen
  omega

/-- What one call of `record` appends during a run. -/
theorem append_of_log (h : recordRun file (pre ++ k :: post) = some R) :
    ∃ r r', recordRun file pre = some r ∧ r.record k.buf k.timestamp = some r' ∧
      r'.contents = r.contents ++ k.encoding ∧
      ∃ tl, (Cursor.mk R.file r.contents.length).rest = k.encoding ++ tl := by
  obtain ⟨r, r', hr, hr'⟩ := record_of_log h
  obtain ⟨hi, hc⟩ := Recorder.recordAll_of_some (Recorder.inv_updateWriteFd file) hr
  refine ⟨r, r', hr, hr', (Recorder.record_of_some hi hr').2, ?_⟩
  obtain ⟨tl, hrest⟩ := rest_of_log h
  rw [Recorder.contents_updateWriteFd, List.nil_append, List.flatMap_map] at hc
  exact ⟨tl, by rw [hc]; exact hrest⟩

theorem Complete.no_expression (hcomplete : Complete file ks R) (h : recordRun file ks = some R)
    (hk : k ∈ ks) : k.req.cmd ≠ .floatEvalExpr := by
  intro hcmd
  obtain ⟨pre, post, rfl⟩ := List.append_of_mem hk
  obtain ⟨r, r', bs, hr, hr', hbs, -, hrecord⟩ := hcomplete pre k post rfl
  obtain ⟨r₁, r₁', hr₁, hr₁', henc, -⟩ := append_of_log h
  -- The call has appended its encoding, which is empty.
  rw [hr, Option.some.injEq] at hr₁
  subst hr₁
  rw [hr', Option.some.injEq] at hr₁'
  subst hr₁'
  have hlogged : ¬ k.req.Logged := fun hk => (logged_iff.mp hk).2 hcmd
  rw [Completed.encoding, Recorder.encoding_of_not_logged k.holds hlogged] at henc
  obtain rfl : bs = [] := List.append_cancel_left (hbs.symm.trans henc)
  exact not_isRecordOf_nil (hrecord (by rw [hcmd]; decide)).1

/-- **A log is complete exactly when no expression has been evaluated.** -/
theorem complete_iff (h : recordRun file ks = some R) :
    Complete file ks R ↔ ∀ k ∈ ks, k.req.cmd ≠ .floatEvalExpr := by
  constructor
  · intro hcomplete k hk
    exact hcomplete.no_expression h hk
  · rintro hno pre k post rfl
    obtain ⟨r, r', hr, hr', hbs, hrest⟩ := append_of_log h
    refine ⟨r, r', k.encoding, hr, hr', hbs, fun hnot => ?_, fun hreplayed => ⟨?_, hrest⟩⟩
    · apply Recorder.encoding_of_not_logged k.holds
      exact fun hk => not_notReplayed hk hnot
    · apply isRecordOf_encoding _ (isSome_spans_of_log h)
      exact logged_iff.mpr ⟨hreplayed, hno k (by simp)⟩

/-- A sum, a comparison and a sum again. -/
theorem complete_sums : ∃ R, recordRun [] (sampleRun ++ [samplePlus]) = some R ∧
    Complete [] (sampleRun ++ [samplePlus]) R := by
  have hks : ∀ k ∈ sampleRun ++ [samplePlus], k.req.FixedWidth ∧ k.req.cmd ≠ .floatEvalExpr := by
    simp [sampleRun, samplePlus, sampleCmp, Request.FixedWidth, Request.cmd, Num.calcCmd,
      Fam.cmpCmd]
  obtain ⟨R, hR⟩ := recordRun_isSome [] (sampleRun ++ [samplePlus]) fun k hk =>
    ⟨(hks k hk).1.logged, (hks k hk).1.resultFits _⟩
  exact ⟨R, hR, (complete_iff hR).mpr fun k hk => (hks k hk).2⟩

/-! ## The gap -/

/-- An expression over no arguments. -/
def sampleEval : Completed :=
  ⟨.evalExpr [] ⟨[], by decide⟩ (by decide), _, zeroBytes _, Request.in_serializeTo _ Mem.zero⟩

/-- **An expression leaves no record**: the log of an expression and a sum holds the sum only, and
the replay of the expression raises an error there. -/
theorem expression_without_record : ∃ R, recordRun [] [sampleEval, samplePlus] = some R ∧
    ¬ Complete [] [sampleEval, samplePlus] R ∧
    (call (fun _ => R.file) (Mem.zero, sampleEval.buf) (start ["a.log"] 0)).1.1 =
      .raised 4 1 31 0 := by
  have heval : ¬ sampleEval.req.Logged := id
  obtain ⟨R, hR⟩ : ∃ R, recordRun [] [sampleEval, samplePlus] = some R := by
    apply Recorder.recordAll_isSome (Recorder.inv_updateWriteFd [])
    rintro m (_ | ⟨_, _ | ⟨_, ⟨⟩⟩⟩)
    · refine ⟨[], Recorder.spans_of_not_logged sampleEval.holds heval _, fun s hs => ?_⟩
      cases hs
    · exact Recorder.spans_of_fits samplePlus.holds trivial trivial
  obtain ⟨tl, hfile⟩ := file_of_log hR
  rw [List.flatMap_cons, List.flatMap_singleton, Completed.encoding,
    Recorder.encoding_of_not_logged sampleEval.holds heval, List.nil_append] at hfile
  have htype : sampleEval.buf.int reqType = 31 := sampleEval.holds.reqType
  refine ⟨R, hR, fun hcomplete => ?_, ?_⟩
  · exact hcomplete.no_expression hR (k := sampleEval) List.mem_cons_self rfl
  · rw [call_of_ne (k := samplePlus) (s := (0, sampleEval.buf)) trivial trivial hfile
      (by rw [htype]; decide) (by rw [htype]; decide), htype]
    rfl

end Replayer

end HEDB
