import HEDB.Interface.Backend

/-!
# What the flags remember

`replayMode` and `performanceReplay` are never cleared, so they say whether `enable_replay_mode` was
ever called, and ever called with "perf" (`Inv.replayMode`, `Inv.performanceReplay`). The other
flags and names are those of the last mode call (`LastInv`). The kind of the request buffer is
settled at the first request (`bufferKind`).

`inv_of_runs` proves this for every run.
-/

namespace HEDB

namespace Event

/-- A call of `enable_replay_mode`. -/
def isReplay : Event → Bool
  | .mode (.replay _ _ _ _) => true
  | _ => false

/-- A call of `enable_replay_mode` with the mode "perf" that got as far as its mode. -/
def isPerf : Event → Bool
  | .mode (.replay _ _ how (some _)) => how = "perf"
  | _ => false

end Event

/-- The last mode call of a run, whose events are listed from the last to the first. -/
def lastCall : List Event → Option ModeCall
  | [] => none
  | .mode c :: _ => some c
  | _ :: es => lastCall es

/-- The kind of the buffer that the first request of a run has made. -/
def bufferKind : List Event → Option Kind
  | [] => none
  | .request _ _ :: es =>
    some ((bufferKind es).getD (if es.any Event.isReplay then .calloc else .shared))
  | _ :: es => bufferKind es

namespace Replayer

/-- The states of a replayer that has been given the logs `names` and has answered some requests. -/
inductive Session (fs : String → List UInt8) (names : List String) : Replayer → Prop
  | start (previousOp : ℤ) : Session fs names (start names previousOp)
  | call {rp : Replayer} (i : Mem × Mem) :
      Session fs names rp → Session fs names (call fs i rp).2

end Replayer

namespace Backend

/-! ## What a mode call does -/

theorem modeCall_record {b b' : Backend} {s dir : String}
    (h : (b.modeCall (.record s dir)).2 = some b') : b' = b.enableRecordMode s dir := by
  unfold modeCall at h
  split_ifs at h
  cases h
  rfl

theorem modeCall_replay {b b' : Backend} {s dir mode : String} {entries : Option (List String)}
    (h : (b.modeCall (.replay s dir mode entries)).2 = some b') :
    b' = (b.enableReplayMode s dir mode entries).2 := by
  unfold modeCall at h
  split_ifs at h
  cases h
  rfl

/-! ## What a request does -/

section Steps

variable {b b' : Backend} {q : Request} {env : Env} {kind : Kind} {m : Mem} {out : Out}

/-- What a request keeps. -/
structure Kept (b b' : Backend) : Prop where
  pid : b'.pid = b.pid
  recordMode : b'.recordMode = b.recordMode
  replayMode : b'.replayMode = b.replayMode
  performanceReplay : b'.performanceReplay = b.performanceReplay
  recordNamePrefix : b'.recordNamePrefix = b.recordNamePrefix
  recordNames : b'.recordNames = b.recordNames

/-- What a request does to the logs: nothing, or it is recorded in the current one. -/
inductive Logs (b b' : Backend) (timestamp : Bytes sizeofUint64) (out : Out) : Prop
  | same (hlog : out.log = none) (hupdate : b'.updateRecordFile = b.updateRecordFile)
      (hrecorder : b'.recorder = b.recorder) (hfiles : b'.files = b.files)
  | records (hmode : b.recordMode = true) (m : Mem) (r : Recorder)
      (hlog : out.log = some (b.currentRecorder.1, m, timestamp))
      (hrecord : b.currentRecorder.2.record m timestamp = some r)
      (hupdate : b'.updateRecordFile = false)
      (hrecorder : b'.recorder = some (b.currentRecorder.1, r))
      (hfiles : b'.files = Function.update b.files b.currentRecorder.1 r.file)

/-- **What it means that the server has executed a request.** -/
theorem execute_some (h : (b.execute kind m q env).2 = some b') :
    Kept b b' ∧ b'.reqBuffer.map Prod.fst = some kind ∧
      b'.replayer = b.replayer ∧ b'.updateReplayFile = b.updateReplayFile ∧
      Logs b b' env.timestamp (b.execute kind m q env).1 := by
  cases kind with
  | calloc => cases h
  | shared =>
    simp only [execute] at h ⊢
    split_ifs at h ⊢ with hrec
    · obtain ⟨r, hr, rfl⟩ := Option.map_eq_some_iff.mp h
      exact ⟨⟨rfl, rfl, rfl, rfl, rfl, rfl⟩, rfl, rfl, rfl, .records hrec _ r rfl hr rfl rfl rfl⟩
    · cases h
      exact ⟨⟨rfl, rfl, rfl, rfl, rfl, rfl⟩, rfl, rfl, rfl, .same rfl rfl rfl rfl⟩

/-- **What it means that the replayer has been asked.** -/
theorem replayRequest_some (h : (b.replayRequest kind m q env).2 = some b') :
    Kept b b' ∧ b'.reqBuffer.map Prod.fst = some kind ∧
      b'.replayer = some (Replayer.call b.files (env.frame, m) b.currentReplayer).2 ∧
      b'.updateReplayFile = false ∧
      Logs b b' env.timestamp (b.replayRequest kind m q env).1 := by
  simp only [replayRequest] at h ⊢
  split_ifs at h ⊢
  · obtain ⟨hkept, hbuf, hrp, hupdate, hlogs⟩ := execute_some h
    refine ⟨⟨hkept.pid, hkept.recordMode, hkept.replayMode, hkept.performanceReplay,
      hkept.recordNamePrefix, hkept.recordNames⟩, hbuf, hrp, hupdate, ?_⟩
    cases hlogs with
    | same hlog hupdate hrecorder hfiles => exact .same hlog hupdate hrecorder hfiles
    | records hmode m' r hlog hrecord hupdate hrecorder hfiles =>
      exact .records hmode m' r hlog hrecord hupdate hrecorder hfiles
  · cases h
    exact ⟨⟨rfl, rfl, rfl, rfl, rfl, rfl⟩, rfl, rfl, rfl, .same rfl rfl rfl rfl⟩

/-- **What a request does that returns or raises an error.** -/
theorem request_some (h : (b.request q env).2 = some b') :
    ∃ kind m, b.getInstance env.region = some (kind, m) ∧ Kept b b' ∧
      b'.reqBuffer.map Prod.fst = some kind ∧
      (b.replayMode = true → b'.updateReplayFile = false ∧
        ∃ i, b'.replayer = some (Replayer.call b.files i b.currentReplayer).2) ∧
      Logs b b' env.timestamp (b.request q env).1 := by
  rw [request] at h ⊢
  rcases hget : b.getInstance env.region with _ | ⟨kind, m⟩
  · rw [hget] at h
    cases h
  · rw [hget] at h
    simp only [sendRequest] at h ⊢
    split_ifs at h ⊢ with hmode
    · obtain ⟨hkept, hbuf, hrp, hupdate, hlogs⟩ := replayRequest_some h
      exact ⟨kind, m, rfl, hkept, hbuf, fun _ => ⟨hupdate, _, hrp⟩, hlogs⟩
    · obtain ⟨hkept, hbuf, -, -, hlogs⟩ := execute_some h
      exact ⟨kind, m, rfl, hkept, hbuf, fun hm => absurd hm hmode, hlogs⟩

theorem kind_getInstance {region : Option Mem} (h : b.getInstance region = some (kind, m)) :
    kind = (b.reqBuffer.map Prod.fst).getD (if b.replayMode then .calloc else .shared) := by
  rw [getInstance] at h
  rcases hbuf : b.reqBuffer with _ | buf
  · rw [hbuf] at h
    simp only [construct] at h
    split_ifs at h with hmode
    · cases h
      simp [hmode]
    · obtain ⟨r, -, hr⟩ := Option.map_eq_some_iff.mp h
      cases hr
      simp [hmode]
  · rw [hbuf] at h
    cases h
    rfl

end Steps

/-! ## The invariant -/

/-- What the last mode call has settled. -/
def LastInv (b : Backend) : Option ModeCall → Prop
  | none => b.recordMode = false
  | some (.record s dir) => b.recordMode = true ∧
      b.currentRecorder.1 = logName b.pid (ModeCall.recordPath s dir)
  | some (.replay s dir _ entries) => b.recordMode = false ∧
      Replayer.Session b.files (ModeCall.recordNames s dir entries) b.currentReplayer

/-- A process after a run, whose events are listed from the last to the first. -/
structure Inv (pid : ℕ) (es : List Event) (b : Backend) : Prop where
  pid : b.pid = pid
  replayMode : b.replayMode = es.any Event.isReplay
  performanceReplay : b.performanceReplay = es.any Event.isPerf
  kind : b.reqBuffer.map Prod.fst = bufferKind es
  last : b.LastInv (lastCall es)
  recorder : ∀ x ∈ b.recorder, x.2.Inv

variable {pid : ℕ} {es : List Event} {b b' : Backend} {q : Request} {env : Env}

theorem inv_start (pid : ℕ) (files : String → List UInt8) : (start pid files).Inv pid [] :=
  ⟨rfl, rfl, rfl, rfl, rfl, by simp [start]⟩

theorem Inv.currentRecorder (h : b.Inv pid es) : b.currentRecorder.2.Inv := by
  rw [Backend.currentRecorder]
  split_ifs
  · exact Recorder.inv_updateWriteFd _
  · rcases hrecorder : b.recorder with _ | x
    · exact Recorder.inv_updateWriteFd _
    · exact h.recorder x hrecorder

/-- The file of the recorder stays the same. -/
theorem Logs.currentRecorder {timestamp : Bytes sizeofUint64} {out : Out}
    (h : Logs b b' timestamp out) (hkept : Kept b b') :
    b'.currentRecorder.1 = b.currentRecorder.1 := by
  cases h with
  | same _ hupdate hrecorder hfiles =>
    simp only [Backend.currentRecorder, openLog, hupdate, hrecorder, hfiles, hkept.pid,
      hkept.recordNamePrefix]
  | records _ m r _ _ hupdate hrecorder _ =>
    rw [Backend.currentRecorder, hupdate, hrecorder]
    rfl

theorem any_isReplay_of_lastCall {s dir mode : String} {entries : Option (List String)}
    (h : lastCall es = some (.replay s dir mode entries)) : es.any Event.isReplay = true := by
  induction es with
  | nil => cases h
  | cons e es ih =>
    cases e with
    | mode c =>
      cases h
      rfl
    | request q env => exact ih h
    | exit => exact ih h

/-- A request keeps what the last mode call has settled. -/
theorem LastInv.request {c : Option ModeCall} (h : b.LastInv c)
    (hmode : ∀ s dir mode entries, c = some (.replay s dir mode entries) → b.replayMode = true)
    (hstep : (b.request q env).2 = some b') : b'.LastInv c := by
  obtain ⟨kind, m, -, hkept, -, hreplay, hlogs⟩ := request_some hstep
  match c, h with
  | none, h => exact hkept.recordMode.trans h
  | some (.record s dir), ⟨hrec, hname⟩ =>
    refine ⟨hkept.recordMode.trans hrec, ?_⟩
    rw [hlogs.currentRecorder hkept, hname, hkept.pid]
  | some (.replay s dir mode entries), ⟨hrec, hsession⟩ =>
    obtain ⟨hupdate, i, hrp⟩ := hreplay (hmode _ _ _ _ rfl)
    have hcurrent : b'.currentReplayer = (Replayer.call b.files i b.currentReplayer).2 := by
      rw [currentReplayer, hupdate, hrp]
      rfl
    -- The replayer reads its logs, and nothing is written to them while the record mode is off.
    have hfiles : b'.files = b.files := by
      cases hlogs with
      | same _ _ _ hfiles => exact hfiles
      | records hmode => exact absurd (hrec.symm.trans hmode) Bool.false_ne_true
    refine ⟨hkept.recordMode.trans hrec, ?_⟩
    rw [hcurrent, hfiles]
    exact hsession.call i

theorem Inv.request (h : b.Inv pid es) (hstep : (b.request q env).2 = some b') :
    b'.Inv pid (.request q env :: es) := by
  obtain ⟨kind, m, hget, hkept, hbuf, -, hlogs⟩ := request_some hstep
  have hreq : (Event.request q env).isReplay = false := rfl
  have hperf : (Event.request q env).isPerf = false := rfl
  constructor
  · exact hkept.pid.trans h.pid
  · rw [hkept.replayMode, h.replayMode, List.any_cons, hreq, Bool.false_or]
  · rw [hkept.performanceReplay, h.performanceReplay, List.any_cons, hperf, Bool.false_or]
  · rw [hbuf, bufferKind, kind_getInstance hget, h.kind, h.replayMode]
  · apply h.last.request _ hstep
    intro s dir mode entries hlast
    rw [h.replayMode, any_isReplay_of_lastCall hlast]
  · cases hlogs with
    | same _ _ hrecorder _ => rw [hrecorder]; exact h.recorder
    | records _ m r _ hrecord _ hrecorder _ =>
      rw [hrecorder]
      rintro x ⟨⟩
      exact (Recorder.record_of_some h.currentRecorder hrecord).1

theorem Inv.modeCall (h : b.Inv pid es) {c : ModeCall} (hstep : (b.modeCall c).2 = some b') :
    b'.Inv pid (.mode c :: es) := by
  cases c with
  | record s dir =>
    obtain rfl := modeCall_record hstep
    exact ⟨h.pid, h.replayMode, h.performanceReplay, h.kind, ⟨rfl, rfl⟩, h.recorder⟩
  | replay s dir mode entries =>
    obtain rfl := modeCall_replay hstep
    cases entries with
    | none =>
      refine ⟨h.pid, rfl, ?_, h.kind, ⟨rfl, .start _⟩, h.recorder⟩
      rw [List.any_cons]
      exact h.performanceReplay
    | some entries =>
      refine ⟨h.pid, rfl, ?_, h.kind, ⟨rfl, .start _⟩, h.recorder⟩
      rw [List.any_cons, ← h.performanceReplay, Bool.or_comm]
      rfl

theorem inv_of_runs {files : String → List UInt8} (h : Runs (start pid files) es b) :
    b.Inv pid es := by
  induction h with
  | nil => exact inv_start pid files
  | cons e _ hstep ih =>
    cases e with
    | mode c => exact ih.modeCall hstep
    | request q env => exact ih.request hstep
    | exit => cases hstep

/-! ## The kind of the buffer -/

/-- The kind of the buffer that the next request of a run finds. -/
def nextKind (es : List Event) : Kind :=
  (bufferKind es).getD (if es.any Event.isReplay then .calloc else .shared)

/-- A private buffer is there because of a call of `enable_replay_mode`. -/
theorem any_isReplay_of_calloc (h : nextKind es = .calloc) : es.any Event.isReplay = true := by
  induction es with
  | nil => cases h
  | cons e es ih =>
    rw [List.any_cons, Bool.or_eq_true]
    cases e with
    | mode c =>
      cases c with
      | replay s dir mode entries => exact .inl rfl
      | record s dir => exact .inr (ih h)
    | request q env => exact .inr (ih h)
    | exit => exact .inr (ih h)

theorem nextKind_of_getInstance {kind : Kind} {m : Mem} (hi : b.Inv pid es) {region : Option Mem}
    (hget : b.getInstance region = some (kind, m)) : nextKind es = kind := by
  rw [nextKind, ← hi.kind, ← hi.replayMode, kind_getInstance hget]

end Backend

end HEDB
