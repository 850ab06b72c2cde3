import HEDB.Interface.History
import HEDB.RecordReplay.Completeness
import HEDB.RecordReplay.Place

/-!
# The last mode call

A mode call demands how the requests after it are treated (`TreatedAs`): `enable_record_mode` wants
them executed and appended to its log, and `enable_replay_mode` answered from its logs, with pacing
if its mode is "perf". `treatedAs_iff` says when they are. Since `replayMode` and
`performance_replay` are never cleared, a call of `enable_replay_mode` is still obeyed after
`enable_record_mode`, and a mode "perf" after a call with another mode (`earlier_call_wins`).
-/

namespace HEDB

namespace Backend

variable {pid : ℕ} {files : String → List UInt8} {es : List Event} {b : Backend} {c : ModeCall}
  {kind : Kind} {m : Mem} {q : Request} {env : Env}

/-- The request is executed by the server, and what it has completed is appended to the log
`name`. -/
def AppendedTo (b : Backend) (name : String) (q : Request) (timestamp : Bytes sizeofUint64)
    (x : Out × Option Backend) : Prop :=
  ∃ (k : Completed) (b' : Backend) (r : Recorder), k.req = q ∧ k.timestamp = timestamp ∧
    x = (.executed k.resp k.result (some (name, k.buf, k.timestamp)), some b') ∧
    b'.recorder = some (name, r) ∧ b'.files name = r.file ∧ k.encoding ≠ [] ∧
    r.contents = b.currentRecorder.2.contents ++ k.encoding

/-- The request is treated as the mode call demands. -/
def TreatedAs (b : Backend) (q : Request) (env : Env) : ModeCall → Prop
  | .record s dir => b.AppendedTo (logName b.pid (ModeCall.recordPath s dir)) q env.timestamp
      (b.request q env)
  | .replay s dir mode entries =>
      Replayer.Session b.files (ModeCall.recordNames s dir entries) b.currentReplayer ∧
      ∃ kind m result paced, b.getInstance env.region = some (kind, m) ∧
        (b.request q env).1 =
          .answered (b.replayed env.frame (q.serializeTo m)).1 result paced ∧
        (readsRecord b.files env.frame b.currentReplayer (q.serializeTo m) = true →
          (paced = true ↔ mode = "perf"))

/-- An ordinary request. It is not an encryption or decryption, there is a region for it, the server
completes it with a result that an `EncStr` can hold, and so does every record that the replayer may
read for it, with a `resp` that is not a reserved value. -/
structure Ordinary (b : Backend) (q : Request) (env : Env) : Prop where
  replayed : ¬ Replayer.NotReplayed q.cmd.code
  region : env.region.isSome
  served : ∀ m, q.In m → q.In (env.serve m) ∧ q.ResultFits (env.serve m)
  plain : ∀ kind m, b.getInstance env.region = some (kind, m) →
    ∀ c ∈ Replayer.candidates b.files b.currentReplayer,
      Replayer.Plain q env.frame c (q.serializeTo m)

/-- No flag that an earlier call has left behind gets in the way of the mode call, and the recorder
knows the opcode. -/
def Undisturbed (es : List Event) (b : Backend) (q : Request) (env : Env) : ModeCall → Prop
  | .record _ _ => q.cmd ≠ .floatEvalExpr ∧ es.any Event.isReplay = false
  | .replay _ _ mode _ => ∀ kind m, b.getInstance env.region = some (kind, m) →
      readsRecord b.files env.frame b.currentReplayer (q.serializeTo m) = true →
        mode = "perf" ∨ es.any Event.isPerf = false

/-! ## What a request puts out -/

/-- The ways in which a request ends, when the buffer is of the given kind and `m` is the buffer
with the request in it. -/
inductive Ends (b : Backend) (q : Request) (env : Env) (kind : Kind) (m : Mem) (out : Out) : Prop
  | answered (hmode : b.replayMode = true)
      (hret : (b.replayed env.frame m).1 ≠ .returned Replayer.notReplay)
      (hfault : (b.replayed env.frame m).1 ≠ .fault)
      (hout : out = .answered (b.replayed env.frame m).1
        (resultOf q (b.replayed env.frame m).2 (b.replayed env.frame m).1)
        (b.performanceReplay && readsRecord b.files env.frame b.currentReplayer m))
  | fault (hmode : b.replayMode = true) (hret : (b.replayed env.frame m).1 = .fault)
      (hout : out = .fault)
  | stuck (hmode : b.replayMode = true →
        (b.replayed env.frame m).1 = .returned Replayer.notReplay)
      (hkind : kind = .calloc) (hout : out = .stuck)
  | executed (hmode : b.replayMode = true →
        (b.replayed env.frame m).1 = .returned Replayer.notReplay)
      (hkind : kind = .shared) (resp : ℤ) (result : List UInt8) (m' : Mem)
      (hout : out = .executed resp result
        (if b.recordMode then some (b.currentRecorder.1, m', env.timestamp) else none))

theorem execute_eq : (b.execute .shared m q env).1 = .executed
    ((env.serve (m.setInt Layout.status statusSent)).int Layout.resp)
    (q.copyResultFrom (env.serve (m.setInt Layout.status statusSent)))
    (if b.recordMode then some (b.currentRecorder.1,
      env.serve (m.setInt Layout.status statusSent), env.timestamp) else none) := by
  simp only [execute]
  by_cases h : b.recordMode = true
  · rw [if_pos h, if_pos h]
    rfl
  · rw [if_neg h, if_neg h]

theorem ends_execute {b₁ : Backend} {m' : Mem} (hmode : b.replayMode = true →
      (b.replayed env.frame m).1 = .returned Replayer.notReplay)
    (hrec : b₁.recordMode = b.recordMode) (hlog : b₁.currentRecorder = b.currentRecorder) :
    Ends b q env kind m (b₁.execute kind m' q env).1 := by
  cases kind with
  | calloc => exact .stuck hmode rfl rfl
  | shared => exact .executed hmode rfl _ _ _ (by rw [execute_eq, hrec, hlog])

/-- **What a request puts out.** -/
theorem ends_request (hget : b.getInstance env.region = some (kind, m)) :
    Ends b q env kind (q.serializeTo m) (b.request q env).1 := by
  rw [request, hget]
  simp only [sendRequest, replayRequest]
  split_ifs with hmode hret hfault
  · exact ends_execute (fun _ => hret) rfl rfl
  · exact .fault hmode hfault rfl
  · exact .answered hmode hret hfault rfl
  · exact ends_execute (fun h => absurd h hmode) rfl rfl

/-- A request is executed only if the replayer, should it be asked, leaves it to the server, and the
buffer is shared. -/
theorem of_executed {resp : ℤ} {result : List UInt8}
    {log : Option (String × Mem × Bytes sizeofUint64)}
    (h : (b.request q env).1 = .executed resp result log) :
    ∃ m, b.getInstance env.region = some (.shared, m) ∧ (b.replayMode = true →
      (b.replayed env.frame (q.serializeTo m)).1 = .returned Replayer.notReplay) := by
  rcases hget : b.getInstance env.region with _ | ⟨kind, m⟩
  · rw [request, hget] at h
    cases h
  · cases ends_request (q := q) hget with
    | executed hmode hkind => exact ⟨m, by rw [hkind], hmode⟩
    | answered hmode hret hfault hout => cases h.symm.trans hout
    | fault hmode hret hout => cases h.symm.trans hout
    | stuck hmode hkind hout => cases h.symm.trans hout

theorem request_eq_execute (hmode : b.replayMode = false)
    (hget : b.getInstance env.region = some (kind, m)) :
    b.request q env = b.execute kind (q.serializeTo m) q env := by
  rw [request, hget]
  simp only [sendRequest, hmode]
  rfl

/-- In record mode, a process that has never been in replay mode appends the request to its log. -/
theorem appendedTo_of_recordMode (hrecorder : b.currentRecorder.2.Inv) (hrec : b.recordMode = true)
    (hmode : b.replayMode = false) (hget : b.getInstance env.region = some (.shared, m))
    (hq : q.Logged) (hserved : ∀ m, q.In m → q.In (env.serve m) ∧ q.ResultFits (env.serve m)) :
    b.AppendedTo b.currentRecorder.1 q env.timestamp (b.request q env) := by
  have hsent : q.In ((q.serializeTo m).setInt Layout.status statusSent) :=
    in_sent q ⟨m, Replayer.zeroBytes _⟩
  obtain ⟨hin, hfit⟩ := hserved _ hsent
  obtain ⟨ss, hss, hle⟩ : ∃ ss, Recorder.spans _ env.timestamp = some ss ∧ _ :=
    Recorder.spans_of_fits hin hq hfit
  obtain ⟨r, hr⟩ := Recorder.record_isSome hrecorder hss hle
  obtain ⟨tl, htl⟩ := Recorder.encoding_opcode hin hq (by rw [hss, Option.isSome_some])
  rw [request_eq_execute hmode hget]
  simp only [execute, hrec, if_true]
  refine ⟨⟨q, _, env.timestamp, hin⟩, _, r, rfl, rfl, Prod.ext rfl (congrArg (Option.map _) hr),
    rfl, Function.update_self .., ?_, (Recorder.record_of_some hrecorder hr).2⟩
  rw [Completed.encoding, htl]
  exact List.ne_nil_of_length_pos (by rw [List.length_append, length_intBytes]; omega)

/-- In replay mode, a request is answered by the replayer unless this returns `NOT_REPLAY` or does
not return. -/
theorem request_answered_iff (h : b.replayMode = true)
    (hget : b.getInstance env.region = some (kind, m)) {paced : Bool} :
    (∃ result, (b.request q env).1 =
        .answered (b.replayed env.frame (q.serializeTo m)).1 result paced) ↔
      (b.replayed env.frame (q.serializeTo m)).1 ≠ .returned Replayer.notReplay ∧
      (b.replayed env.frame (q.serializeTo m)).1 ≠ .fault ∧
      paced = (b.performanceReplay &&
        readsRecord b.files env.frame b.currentReplayer (q.serializeTo m)) := by
  constructor
  · rintro ⟨result, hans⟩
    cases ends_request (q := q) hget with
    | answered hmode hret hfault hout =>
      rw [hans, Out.answered.injEq] at hout
      exact ⟨hret, hfault, hout.2.2⟩
    | fault hmode hret hout => cases hans.symm.trans hout
    | stuck hmode hkind hout => cases hans.symm.trans hout
    | executed hmode hkind resp result m' hout => cases hans.symm.trans hout
  · rintro ⟨hret, hfault, rfl⟩
    cases ends_request (q := q) hget with
    | answered hmode hret hfault hout => exact ⟨_, hout⟩
    | fault hmode hret => exact absurd hret hfault
    | stuck hmode => exact absurd (hmode h) hret
    | executed hmode => exact absurd (hmode h) hret

/-! ## When the last call wins -/

/-- A session without logs reads no record. -/
theorem readsRecord_nil {fs : String → List UInt8} {rp : Replayer} (h : Replayer.Session fs [] rp)
    (frame m : Mem) : readsRecord fs frame rp m = false := by
  have hrp : rp.replayFile = none ∧ rp.filenames = [] := by
    induction h with
    | start p => exact ⟨rfl, rfl⟩
    | @call rp i _ ih =>
      obtain ⟨hfile, hnames⟩ := ih
      simp only [Replayer.call, Replayer.replay]
      split
      · exact ⟨hfile, hnames⟩
      · rw [hfile, hnames]
        exact ⟨rfl, hnames⟩
  rw [readsRecord, hrp.1, hrp.2]
  rfl

theorem any_isPerf_of_lastCall {s dir : String} {entries : List String}
    (h : lastCall es = some (.replay s dir "perf" (some entries))) :
    es.any Event.isPerf = true := by
  induction es with
  | nil => cases h
  | cons e es ih =>
    cases e with
    | mode c =>
      cases h
      rfl
    | request q env => exact ih h
    | exit => exact ih h

/-- A call with the mode "perf" whose logs answer has set the flag. -/
theorem perf_iff_of_reads {s dir mode : String} {entries : Option (List String)}
    (hlast : lastCall es = some (.replay s dir mode entries)) {fs : String → List UInt8}
    {rp : Replayer} (hsession : Replayer.Session fs (ModeCall.recordNames s dir entries) rp)
    {frame m : Mem} (hreads : readsRecord fs frame rp m = true) :
    (es.any Event.isPerf = true ↔ mode = "perf") ↔
      mode = "perf" ∨ es.any Event.isPerf = false := by
  by_cases hmode : mode = "perf"
  · refine iff_of_true (iff_of_true ?_ hmode) (.inl hmode)
    cases entries with
    | none =>
      rw [readsRecord_nil hsession] at hreads
      cases hreads
    | some entries =>
      rw [hmode] at hlast
      exact any_isPerf_of_lastCall hlast
  · simp [hmode]

/-- In replay mode there is always a buffer. -/
theorem exists_getInstance (h : b.replayMode = true) (region : Option Mem) :
    ∃ kind m, b.getInstance region = some (kind, m) := by
  rw [getInstance]
  rcases b.reqBuffer with _ | ⟨kind, m⟩
  · exact ⟨_, _, if_pos h⟩
  · exact ⟨kind, m, rfl⟩

/-- Without replay mode the buffer is a shared region. -/
theorem getInstance_of_no_replay (hi : b.Inv pid es) (h : es.any Event.isReplay = false)
    {region : Option Mem} (hregion : region.isSome) :
    ∃ m, b.getInstance region = some (.shared, m) := by
  obtain ⟨m₀, rfl⟩ := Option.isSome_iff_exists.mp hregion
  have hget : ∃ kind m, b.getInstance (some m₀) = some (kind, m) := by
    rw [getInstance, construct, hi.replayMode, h]
    rcases b.reqBuffer with _ | ⟨kind, m⟩
    · exact ⟨_, _, rfl⟩
    · exact ⟨kind, m, rfl⟩
  obtain ⟨kind, m, hget⟩ := hget
  cases kind with
  | shared => exact ⟨m, hget⟩
  | calloc =>
    have hany := any_isReplay_of_calloc (nextKind_of_getInstance hi hget)
    rw [h] at hany
    cases hany

/-- **The last mode call wins exactly when no earlier call disturbs it.** After `enable_record_mode`
there must have been no call of `enable_replay_mode`, and the expression evaluation is not recorded
at all; after `enable_replay_mode` either its mode is "perf" or there was no "perf" before. -/
theorem treatedAs_iff (h : Runs (start pid files) es b) (hlast : lastCall es = some c)
    (q : Request) (env : Env) (hord : b.Ordinary q env) :
    b.TreatedAs q env c ↔ Undisturbed es b q env c := by
  have hi := inv_of_runs h
  have hc := hi.last
  have hplain {kind : Kind} {m : Mem} (hget : b.getInstance env.region = some (kind, m)) :=
    Replayer.call_of_plain (q.in_serializeTo m) hord.replayed (hord.plain kind m hget)
  rw [hlast] at hc
  cases c with
  | record s dir =>
    obtain ⟨hrec, hname⟩ := hc
    rw [TreatedAs, Undisturbed, ← hname]
    constructor
    · rintro ⟨k, b', r, rfl, -, hx, -, -, henc, -⟩
      obtain ⟨m, hget, hserver⟩ := of_executed (congrArg Prod.fst hx)
      refine ⟨fun hcmd => henc ?_, Bool.eq_false_iff.mpr fun hany => ?_⟩
      · exact Recorder.encoding_of_not_logged k.holds
          (fun hlogged => (Replayer.logged_iff.mp hlogged).2 hcmd) _
      · exact (hplain hget).1 (hserver (hi.replayMode.trans hany))
    · rintro ⟨hcmd, hany⟩
      obtain ⟨m, hget⟩ := getInstance_of_no_replay hi hany hord.region
      exact appendedTo_of_recordMode hi.currentRecorder hrec (hi.replayMode.trans hany) hget
        (Replayer.logged_iff.mpr ⟨hord.replayed, hcmd⟩) hord.served
  | replay s dir mode entries =>
    obtain ⟨-, hsession⟩ := hc
    have hmode : b.replayMode = true := by rw [hi.replayMode, any_isReplay_of_lastCall hlast]
    obtain ⟨kind, m, hget⟩ := exists_getInstance hmode env.region
    have hpaced : (readsRecord b.files env.frame b.currentReplayer (q.serializeTo m) = true →
        ((b.performanceReplay &&
          readsRecord b.files env.frame b.currentReplayer (q.serializeTo m)) = true ↔
            mode = "perf")) ↔
        (readsRecord b.files env.frame b.currentReplayer (q.serializeTo m) = true →
          mode = "perf" ∨ es.any Event.isPerf = false) := by
      refine imp_congr_right fun hreads => ?_
      rw [hreads, Bool.and_true, hi.performanceReplay]
      exact perf_iff_of_reads hlast hsession hreads
    constructor
    · rintro ⟨-, kind', m', result, paced, hget', hout, hiff⟩ kind'' m'' hget''
      cases hget.symm.trans hget'
      cases hget.symm.trans hget''
      obtain ⟨-, -, rfl⟩ := (request_answered_iff hmode hget).mp ⟨result, hout⟩
      exact hpaced.mp hiff
    · intro hundisturbed
      obtain ⟨hret, hfault⟩ := hplain hget
      obtain ⟨result, hout⟩ := (request_answered_iff hmode hget).mpr ⟨hret, hfault, rfl⟩
      exact ⟨hsession, kind, m, result, _, hget, hout, hpaced.mpr (hundisturbed kind m hget)⟩

/-! ## A recording that is replayed -/

open Replayer (samplePlus sampleCmp)

/-- A quiet environment: the region is free and the server leaves the buffer as it is. -/
def quietEnv : Env := ⟨Mem.zero, some Mem.zero, id, Replayer.zeroBytes _⟩

/-- A process that records its requests in a shared region, which holds `m`. -/
structure Recording (b : Backend) (m : Mem) : Prop where
  recordMode : b.recordMode = true
  replayMode : b.replayMode = false
  shared : b.getInstance quietEnv.region = some (.shared, m)
  recorder : b.currentRecorder.2.Inv

/-- A process that records goes on. -/
theorem Recording.request (hb : b.Recording m) (hq : q.FixedWidth) :
    ∃ (k : Completed) (b' : Backend) (m' : Mem) (r : Recorder), k.req = q ∧
      k.buf = (q.serializeTo m).setInt Layout.status statusSent ∧
      b.step (.request q quietEnv) =
        (.executed k.resp k.result (some (b.currentRecorder.1, k.buf, quietEnv.timestamp)),
          some b') ∧
      b'.Recording m' ∧ b'.currentRecorder = (b.currentRecorder.1, r) ∧
      b'.files b.currentRecorder.1 = r.file ∧
      r.contents = b.currentRecorder.2.contents ++ k.encoding := by
  have happended : b.AppendedTo b.currentRecorder.1 q quietEnv.timestamp (b.request q quietEnv) :=
    appendedTo_of_recordMode hb.recorder hb.recordMode hb.replayMode hb.shared hq.logged
      fun m hm => ⟨hm, hq.resultFits m⟩
  obtain ⟨k, b', r, rfl, hts, hx, hrecorder, hfile, -, hcontents⟩ := happended
  have hbuf : k.buf = (k.req.serializeTo m).setInt Layout.status statusSent := by
    have hout := congrArg Prod.fst hx
    rw [request_eq_execute hb.replayMode hb.shared, execute_eq, if_pos hb.recordMode] at hout
    simp only [Out.executed.injEq, Option.some.injEq, Prod.mk.injEq] at hout
    exact hout.2.2.2.1.symm
  obtain ⟨kind, m', hget', hkept, hkind, -, hlogs⟩ := request_some (congrArg Prod.snd hx)
  cases hb.shared.symm.trans hget'
  cases hlogs with
  | same hlog => rw [hx] at hlog; cases hlog
  | records _ m'' r' _ hrecord hupdate hrecorder' _ =>
    cases hrecorder.symm.trans hrecorder'
    have hcurrent : b'.currentRecorder = (b.currentRecorder.1, r) := by
      rw [currentRecorder, hupdate, hrecorder]
      rfl
    obtain ⟨buf, hreq, hkind⟩ := Option.map_eq_some_iff.mp hkind
    refine ⟨k, b', buf.2, r, rfl, hbuf, hts ▸ hx, ⟨hkept.recordMode.trans hb.recordMode,
      hkept.replayMode.trans hb.replayMode, ?_, ?_⟩, hcurrent, hfile, hcontents⟩
    · rw [getInstance, hreq, ← hkind]
    · rw [hcurrent]
      exact (Recorder.record_of_some hb.recorder hrecord).1

/-- The buffer of a new process. -/
def freshBuffer : Mem := Mem.zero.setInt Layout.status statusNone

theorem recording_start : ((start pid files).enableRecordMode "q" "").Recording freshBuffer :=
  ⟨rfl, rfl, rfl, Recorder.inv_updateWriteFd _⟩

/-- A session is recorded, and then replayed with pacing. -/
theorem treatedAs_own_recording : ∃ b, Runs (start 7 fun _ => [])
      [.mode (.replay "q" "" "perf" (some ["q-7.log"])), .request sampleCmp.req quietEnv,
        .request samplePlus.req quietEnv, .mode (.record "q" "")] b ∧
    b.Ordinary samplePlus.req quietEnv ∧
    b.TreatedAs samplePlus.req quietEnv (.replay "q" "" "perf" (some ["q-7.log"])) := by
  have hb₁ : ((start 7 fun _ => []).enableRecordMode "q" "").Recording freshBuffer :=
    recording_start
  obtain ⟨k₂, b₂, m₂, r₂, hk₂, hbuf₂, hx₂, hb₂, hr₂, -, hc₂⟩ :=
    hb₁.request (q := samplePlus.req) trivial
  obtain ⟨k₃, b₃, m₃, r₃, -, -, hx₃, hb₃, -, hfile, hc₃⟩ := hb₂.request (q := sampleCmp.req) trivial
  have hname : b₂.currentRecorder.1 = "/tmp/q-7.log" := by
    rw [hr₂]
    exact (by decide : logName 7 (ModeCall.recordPath "q" "") = "/tmp/q-7.log")
  have hrun : Runs (start 7 fun _ => []) [.request sampleCmp.req quietEnv,
      .request samplePlus.req quietEnv, .mode (.record "q" "")] b₃ :=
    .cons _ (.cons _ (.cons _ .nil (congrArg Prod.snd (if_pos (by decide))))
      (congrArg Prod.snd hx₂)) (congrArg Prod.snd hx₃)
  have hrun' := hrun.cons (.mode (.replay "q" "" "perf" (some ["q-7.log"])))
    (congrArg Prod.snd (if_pos (by decide)))
  set b₄ := (b₃.enableReplayMode "q" "" "perf" (some ["q-7.log"])).2
  have hcandidates : Replayer.candidates b₄.files b₄.currentReplayer = [⟨r₃.file, 0⟩] := by
    have hnames : ModeCall.recordNames "q" "" (some ["q-7.log"]) = ["/tmp/q-7.log"] := by decide
    rw [hname] at hfile
    show List.map (fun name => Cursor.mk (b₃.files name) 0)
      (ModeCall.recordNames "q" "" (some ["q-7.log"])) = _
    rw [hnames, List.map_singleton, hfile]
  have hord : b₄.Ordinary samplePlus.req quietEnv := by
    refine ⟨by decide, rfl, fun m hm => ⟨hm, trivial⟩, fun kind m _ => ?_⟩
    rw [hcandidates, List.forall_mem_singleton, ← hk₂]
    have hfixed : k₂.req.FixedWidth := by rw [hk₂]; trivial
    have hresp : k₂.resp = 0 := by
      rw [Completed.resp, hbuf₂]
      decide +kernel
    have hrest : (Cursor.mk r₃.file 0).rest =
        k₂.encoding ++ (k₃.encoding ++ r₃.file.drop r₃.fileCursor) := by
      have hfirst : r₂.contents = k₂.encoding := hc₂
      rw [hr₂, hfirst] at hc₃
      rw [← List.append_assoc, ← hc₃]
      exact r₃.file_eq_contents_append
    exact Replayer.plain_of_resends (Replayer.resends_of_in hfixed (k₂.req.in_serializeTo m))
      (k₂.req.in_serializeTo m) hrest (by rw [hresp]; decide) (by rw [hresp]; decide)
  exact ⟨b₄, hrun', hord, (treatedAs_iff hrun' rfl _ _ hord).mpr fun _ _ _ _ => .inl rfl⟩

/-! ## Flags that are left behind -/

/-- A request that is sent again is answered from the only log, and read to its end. -/
theorem readsRecord_of_log (fs : String → List UInt8) (name : String) {k : Completed} {m : Mem}
    {tl : List UInt8} (hk : Replayer.Resends k m) (hresp : k.resp ≠ Replayer.retryFailed)
    (hfs : fs name = k.encoding ++ tl) (p : ℤ) :
    (Replayer.call fs (Mem.zero, m) (Replayer.start [name] p)).1.1 = .returned k.resp ∧
      readsRecord fs Mem.zero (Replayer.start [name] p) m = true := by
  have hc : (Cursor.mk (fs name) 0).rest = k.encoding ++ tl := hfs
  obtain ⟨hout, -⟩ := Replayer.next_start p hfs hresp (Mem.zero, m) hk
  refine ⟨congrArg Prod.fst hout, ?_⟩
  simp only [readsRecord, Replayer.start, someReachesEnd, hk.replayRequest hc, reachesEnd,
    Bool.true_or]

/-- A process in which "perf" was called before "random", on the same log. -/
def perfThenRandom (files : String → List UInt8) : Backend :=
  (((start 7 files).enableReplayMode "p" "" "perf" (some ["p-1.log"])).2.enableReplayMode
    "p" "" "random" (some ["p-1.log"])).2

theorem currentReplayer_perfThenRandom (files : String → List UInt8) :
    (perfThenRandom files).currentReplayer = Replayer.start ["/tmp/p-1.log"] 0 := by
  have hnames : ModeCall.recordNames "p" "" (some ["p-1.log"]) = ["/tmp/p-1.log"] := by decide
  simp only [perfThenRandom, enableReplayMode, currentReplayer, if_true, hnames]
  rfl

/-- Its request is answered from the log, with pacing, although the last call did not ask for it. -/
theorem paced_perfThenRandom {files : String → List UInt8} {tl : List UInt8}
    (hfile : files "/tmp/p-1.log" = samplePlus.encoding ++ tl) :
    (∃ result, ((perfThenRandom files).request samplePlus.req quietEnv).1 =
      .answered (.returned 0) result true) ∧
    ¬ (perfThenRandom files).TreatedAs samplePlus.req quietEnv
      (.replay "p" "" "random" (some ["p-1.log"])) := by
  have hget : (perfThenRandom files).getInstance quietEnv.region =
      some (.calloc, Mem.zero.setInt Layout.status statusNone) := rfl
  set m := samplePlus.req.serializeTo (Mem.zero.setInt Layout.status statusNone)
  have hresends : Replayer.Resends samplePlus m :=
    Replayer.resends_of_in (show samplePlus.req.FixedWidth from trivial)
      (Request.in_serializeTo _ _)
  obtain ⟨hcall, hreads⟩ := readsRecord_of_log files "/tmp/p-1.log" hresends (by decide) hfile 0
  rw [← currentReplayer_perfThenRandom files] at hcall hreads
  have hret : ((perfThenRandom files).replayed quietEnv.frame m).1 = .returned 0 := hcall
  have hout : ∃ result, ((perfThenRandom files).request samplePlus.req quietEnv).1 =
      .answered ((perfThenRandom files).replayed quietEnv.frame m).1 result true := by
    apply (request_answered_iff rfl hget).mpr
    rw [hret]
    exact ⟨by decide, Replayer.Ret.noConfusion, hreads.symm⟩
  rw [hret] at hout
  refine ⟨hout, ?_⟩
  obtain ⟨result, hout⟩ := hout
  rintro ⟨-, kind, m', result', paced, hget', hout', hiff⟩
  rw [hget] at hget'
  cases hget'
  rw [hout, Out.answered.injEq] at hout'
  obtain ⟨-, -, rfl⟩ := hout'
  exact absurd ((hiff hreads).mp rfl) (by decide)

/-- **Earlier calls win.** A request after `enable_record_mode` is not executed if
`enable_replay_mode` was called before, and a request after `enable_replay_mode` with the mode
"random" is paced if there was a call with the mode "perf" before. -/
theorem earlier_call_wins :
    (∃ b, Runs (start 7 fun _ => [])
        [.mode (.record "q" ""), .mode (.replay "p" "" "random" (some []))] b ∧
      ¬ b.TreatedAs samplePlus.req quietEnv (.record "q" "")) ∧
    ∃ files b, Runs (start 7 files) [.mode (.replay "p" "" "random" (some ["p-1.log"])),
        .mode (.replay "p" "" "perf" (some ["p-1.log"]))] b ∧
      (∃ result, (b.request samplePlus.req quietEnv).1 = .answered (.returned 0) result true) ∧
      ¬ b.TreatedAs samplePlus.req quietEnv (.replay "p" "" "random" (some ["p-1.log"])) := by
  constructor
  · refine ⟨_, .cons _ (.cons _ .nil (congrArg Prod.snd (if_pos (by decide))))
      (congrArg Prod.snd (if_pos (by decide))), fun h => ?_⟩
    obtain ⟨k, b', r, -, -, hx, -⟩ := h
    obtain ⟨m, hget, -⟩ := of_executed (congrArg Prod.fst hx)
    cases hget
  · obtain ⟨R, hR⟩ := recordRun_isSome [] [samplePlus]
      (List.forall_mem_singleton.mpr ⟨trivial, trivial⟩)
    obtain ⟨tl, hfile⟩ := file_of_log hR
    rw [List.flatMap_singleton] at hfile
    refine ⟨fun _ => R.file, perfThenRandom fun _ => R.file, ?_, paced_perfThenRandom hfile⟩
    exact .cons _ (.cons _ .nil (congrArg Prod.snd (if_pos (by decide))))
      (congrArg Prod.snd (if_pos (by decide)))

end Backend

end HEDB
