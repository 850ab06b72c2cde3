import HEDB.RecordReplay.Matching

/-!
# Whole logs

A log is what `record` leaves in its file after the completed requests of a run. It starts with
their encodings, one after the other (`file_of_log`), so that the reader that stands after some of
them is about to read the next (`rest_of_log`). What follows the last one is not read.

A session of the replayer is a list of calls of `replay`. As long as a file has been chosen and
stands before the record of each request in turn, the session answers all of them
(`next_of_before`, and `reads_call` with `readAll_spec`). At the first request the only file is the
one that is chosen, unless its `resp` is the value that stands for a mismatch (`next_start`).
-/

namespace HEDB

open Layout

/-- A request that the server has answered, as it stands in the buffer when `record` is called, and
the cycle counter at that moment. -/
structure Completed where
  req : Request
  buf : Mem
  timestamp : Bytes sizeofUint64
  holds : req.In buf

namespace Completed

variable (k : Completed)

/-- The answer of the server. -/
def resp : ℤ := k.buf.int Layout.resp

/-- The record of the request. -/
def encoding : List UInt8 := Recorder.encoding k.buf k.timestamp

/-- The result field of the buffer. -/
def result : List UInt8 := k.req.copyResultFrom k.buf

theorem isSome_spans (hk : k.req.Logged) (hfit : k.req.ResultFits k.buf) :
    (Recorder.spans k.buf k.timestamp).isSome := by
  obtain ⟨ss, hss, -⟩ := Recorder.spans_of_fits k.holds hk hfit
  rw [hss, Option.isSome_some]

end Completed

/-- The recorder after a run that started with a file that held `file`. -/
def recordRun (file : List UInt8) (ks : List Completed) : Option Recorder :=
  (Recorder.updateWriteFd file).recordAll (ks.map fun k => (k.buf, k.timestamp))

variable {file : List UInt8} {ks pre post : List Completed} {k : Completed} {R : Recorder}

/-- **The log starts with the records of the run.** -/
theorem file_of_log (h : recordRun file ks = some R) :
    ∃ tl, R.file = ks.flatMap Completed.encoding ++ tl := by
  obtain ⟨-, hc⟩ := Recorder.recordAll_of_some (Recorder.inv_updateWriteFd file) h
  rw [Recorder.contents_updateWriteFd, List.nil_append, List.flatMap_map] at hc
  exact ⟨_, R.file_eq_contents_append.trans (by rw [hc]; rfl)⟩

/-- The cursor after the records of `pre` is about to read the next record. -/
theorem rest_of_log (h : recordRun file (pre ++ k :: post) = some R) :
    ∃ tl, (Cursor.mk R.file (pre.flatMap Completed.encoding).length).rest = k.encoding ++ tl := by
  obtain ⟨tl, hf⟩ := file_of_log h
  rw [List.flatMap_append, List.flatMap_cons, List.append_assoc, List.append_assoc] at hf
  exact ⟨_, by rw [Cursor.rest, hf, List.drop_left]⟩

/-- The call of `record` for one request of the run. -/
theorem record_of_log (h : recordRun file (pre ++ k :: post) = some R) :
    ∃ r r', recordRun file pre = some r ∧ r.record k.buf k.timestamp = some r' := by
  rw [recordRun, List.map_append, Recorder.recordAll, List.foldlM_append, List.map_cons] at h
  obtain ⟨r, hr, h⟩ := Option.bind_eq_some_iff.mp h
  rw [List.foldlM_cons] at h
  obtain ⟨r', hr', -⟩ := Option.bind_eq_some_iff.mp h
  exact ⟨r, r', hr, hr'⟩

/-- A request of the run has a record. -/
theorem isSome_spans_of_log (h : recordRun file (pre ++ k :: post) = some R) :
    (Recorder.spans k.buf k.timestamp).isSome := by
  obtain ⟨r, r', -, hr'⟩ := record_of_log h
  obtain ⟨ss, hs, -⟩ := Option.bind_eq_some_iff.mp hr'
  rw [hs, Option.isSome_some]

/-- A run of logged requests is recorded. -/
theorem recordRun_isSome (file : List UInt8) (ks : List Completed)
    (hks : ∀ k ∈ ks, k.req.Logged ∧ k.req.ResultFits k.buf) : ∃ R, recordRun file ks = some R := by
  apply Recorder.recordAll_isSome (Recorder.inv_updateWriteFd file)
  intro m hm
  obtain ⟨k, hk, rfl⟩ := List.mem_map.mp hm
  exact Recorder.spans_of_fits k.holds (hks k hk).1 (hks k hk).2

/-! ## Sessions of the replayer -/

namespace Replayer

section Session

variable (fs : String → List UInt8)

/-- One call of `replay`: the stack frame that `replay_request` starts with, and the buffer. -/
def call (i : Mem × Mem) (rp : Replayer) : (Ret × Mem) × Replayer :=
  (((replay fs i.1 rp i.2).1, (replay fs i.1 rp i.2).2.2), (replay fs i.1 rp i.2).2.1)

/-- A file has been chosen, and the bytes that are still to be read from it are `bs`. -/
def Before (rp : Replayer) (bs : List UInt8) : Prop := ∃ c, rp.replayFile = some c ∧ c.rest = bs

/-- The buffer after the result of `k` has been copied into it. -/
def replayed (k : Completed) (m : Mem) : Mem :=
  m.write (k.req.resultField k.buf).1
    (k.buf.read (k.req.resultField k.buf).1 (k.req.resultField k.buf).2)

/-- The buffer holds a request that the record of `k` answers. -/
structure Resends (k : Completed) (m : Mem) : Prop where
  logged : k.req.Logged
  fits : k.req.ResultFits k.buf
  reqType : m.int Layout.reqType = k.req.cmd.code
  replayRequest : ∀ {frame c previousOp tl}, c.rest = k.encoding ++ tl →
    replayRequest frame c m previousOp =
      (.answer k.resp, c.advance k.encoding.length, replayed k m)

/-- A request with the opcode and the operands of a recorded one is answered from its record. -/
theorem resends_of_same {k : Completed} {m : Mem} (hk : k.req.Logged)
    (hfit : k.req.ResultFits k.buf) (ht : m.int Layout.reqType = k.req.cmd.code)
    (ho : operandsAt m k.req.cmd = operandsAt k.buf k.req.cmd) : Resends k m :=
  ⟨hk, hfit, ht, fun hc => replayRequest_of_same k.holds hk hfit ht ho hc⟩

/-- The call returns the recorded `resp` and delivers the recorded result. -/
def Answers (k : Completed) (out : Ret × Mem) : Prop :=
  out.1 = .returned k.resp ∧ k.req.copyResultFrom out.2 = k.result

/-- The replayer answers the next request from the record of `k`, and then stands before `tl`. -/
def Next (rp : Replayer) (k : Completed) (tl : List UInt8) : Prop :=
  ∀ i : Mem × Mem, Resends k i.2 →
    (call fs i rp).1 = (.returned k.resp, replayed k i.2) ∧ (call fs i rp).2.Before tl

variable {fs} {m : Mem} {tl : List UInt8} {rp : Replayer}

theorem answers_replayed (h : Resends k m) : Answers k (.returned k.resp, replayed k m) :=
  ⟨rfl, copyResultFrom_write h.logged h.fits⟩

/-- A request of a logged type is one that is replayed. -/
theorem not_notReplayed {q : Request} (hq : q.Logged) : ¬ NotReplayed q.cmd.code := by
  cases q with
  | cmp f _ _ => cases f <;> simp [NotReplayed, Request.cmd, Fam.cmpCmd, Cmd.code]
  | calcNum n op _ _ =>
    cases n <;> cases op <;> simp [NotReplayed, Request.cmd, Num.calcCmd, Cmd.code]
  | bulk n _ _ => cases n <;> simp [NotReplayed, Request.cmd, Num.bulkCmd, Cmd.code]
  | extractYear | strCmp | strLike | substring | concat =>
    simp [NotReplayed, Request.cmd, Cmd.code]
  | enc | dec | strEnc | strDec | evalExpr => exact hq.elim

/-- The chosen file answers a request from its record. -/
theorem answerFrom_of_resends (frame : Mem) (rp : Replayer) {c : Cursor} (h : Resends k m)
    (hc : c.rest = k.encoding ++ tl) :
    (answerFrom frame rp c m).1 = .returned k.resp ∧
      (answerFrom frame rp c m).2.2 = replayed k m ∧
      (answerFrom frame rp c m).2.1.Before tl := by
  simp only [answerFrom, h.replayRequest hc, true_and]
  exact ⟨_, rfl, Cursor.rest_advance hc⟩

/-- **A chosen file that stands before a record answers from it.** -/
theorem next_of_before (h : rp.Before (k.encoding ++ tl)) : Next fs rp k tl := by
  intro i hi
  obtain ⟨c, hf, hc⟩ := h
  have hreplay : replay fs i.1 rp i.2 = answerFrom i.1 rp c i.2 := by
    rw [replay, hi.reqType, if_neg (not_notReplayed hi.logged), hf]
  obtain ⟨hret, hbuf, hbefore⟩ := answerFrom_of_resends i.1 rp hi hc
  rw [call, hreplay, hret, hbuf]
  exact ⟨rfl, hbefore⟩

/-- One call reads one record, once a file has been chosen. -/
theorem reads_call : ReadsRecord (call fs) Completed.encoding (fun k i => Resends k i.2) Answers
    Before := by
  intro k i rp tl hi hb
  obtain ⟨hout, hbefore⟩ := next_of_before hb i hi
  exact ⟨hout ▸ answers_replayed hi, hbefore⟩

/-- With one log file, the first call takes its answer, or fails if it is the value that stands for
a mismatch. -/
theorem call_start_of_returned {i : Mem × Mem} {name : String} {previousOp v : ℤ}
    (hi : ¬ NotReplayed (i.2.int Layout.reqType))
    (h : (answerFrom i.1 (start [name] previousOp) ⟨fs name, 0⟩ i.2).1 = .returned v) :
    (v ≠ retryFailed → replay fs i.1 (start [name] previousOp) i.2 =
        answerFrom i.1 (start [name] previousOp) ⟨fs name, 0⟩ i.2) ∧
      (v = retryFailed → (call fs i (start [name] previousOp)).1.1 = .returned (-1)) := by
  have hreplay : replay fs i.1 (start [name] previousOp) i.2 =
      tryFiles fs i.1 (start [name] previousOp) i.2 [name] := by
    rw [replay, if_neg hi]
    rfl
  rcases ha : answerFrom i.1 (start [name] previousOp) ⟨fs name, 0⟩ i.2 with ⟨ret, rp', m'⟩
  rw [ha] at h
  obtain rfl : ret = .returned v := h
  simp only [call, hreplay, tryFiles, ha]
  constructor
  · intro hv
    rw [if_neg hv]
  · intro hv
    rw [if_pos hv]

/-- **The first call chooses the only file and reads its first record**, unless the recorded `resp`
stands for a mismatch. -/
theorem next_start {name : String} (previousOp : ℤ) (hfs : fs name = k.encoding ++ tl)
    (hresp : k.resp ≠ retryFailed) : Next fs (start [name] previousOp) k tl := by
  intro i hi
  obtain ⟨hret, hbuf, hbefore⟩ := answerFrom_of_resends i.1 (start [name] previousOp) hi
    (show (Cursor.mk (fs name) 0).rest = _ from hfs)
  have hreq : ¬ NotReplayed (i.2.int Layout.reqType) := by
    rw [hi.reqType]
    exact not_notReplayed hi.logged
  rw [call, (call_start_of_returned hreq hret).1 hresp, hret, hbuf]
  exact ⟨rfl, hbefore⟩

/-- A first `resp` that stands for a mismatch makes the session fail. -/
theorem call_start_of_reserved {i : Mem × Mem} {name : String} (previousOp : ℤ)
    (h : Resends k i.2) (hfs : fs name = k.encoding ++ tl) (hresp : k.resp = retryFailed) :
    (call fs i (start [name] previousOp)).1.1 = .returned (-1) := by
  obtain ⟨hret, -⟩ := answerFrom_of_resends i.1 (start [name] previousOp) h
    (show (Cursor.mk (fs name) 0).rest = _ from hfs)
  have hreq : ¬ NotReplayed (i.2.int Layout.reqType) := by
    rw [h.reqType]
    exact not_notReplayed h.logged
  exact (call_start_of_returned hreq hret).2 hresp

end Session

end Replayer

end HEDB
