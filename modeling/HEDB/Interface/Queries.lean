import HEDB.Interface.Backend
import HEDB.Pipeline.Codes
import HEDB.RecordReplay.FixedWidth
import HEDB.RecordReplay.Text

/-!
# Queries that are recorded and replayed

A query drives the client library adaptively: which request it sends next may depend on every
answer so far. In record mode each request is executed by a child of the server and its record goes
to the log; in replay mode the log answers.

A query that has been recorded on a fresh region returns the same result when it is replayed by
another process, from the log alone (`replays_recording`). The buffers of the two processes differ;
what has to agree are the order tags of the texts, which are recorded with the operands and which
`serializeTo` does not write (`SameTags`).
-/

namespace HEDB

open Layout

/-! ## Queries -/

/-- A query: it returns, or goes on with the `resp` and the result of a request. -/
inductive Query (ρ : Type)
  | ret (result : ρ)
  | call (q : Request) (next : ℤ → List UInt8 → Query ρ)

/-- What a request gives to the query, unless an error is raised or it does not return. -/
def Out.reply : Out → Option (ℤ × List UInt8)
  | .executed resp result _ => some (resp, result)
  | .answered (.returned v) (some result) _ => some (v, result)
  | _ => none

namespace Query

variable {ρ : Type}

/-- Every request is of a type that is logged. -/
def Logged : Query ρ → Prop
  | ret _ => True
  | call q next => q.Logged ∧ ∀ resp result, (next resp result).Logged

/-- A query in a backend, with what the environment does during each request. -/
def run : Query ρ → Backend → (ℕ → Env) → Option (ρ × Backend)
  | ret result, b, _ => some (result, b)
  | call q next, b, envs => do
    let reply ← (b.request q (envs 0)).1.reply
    let b' ← (b.request q (envs 0)).2
    (next reply.1 reply.2).run b' fun n => envs (n + 1)

/-- The buffer when a request has been posted in it. -/
def posted (q : Request) (m : Mem) : Mem := (q.serializeTo m).setInt status statusSent

/-- The query returns, and all its requests are executed by children of the server, on the region
that the backend is given. Texts are delivered with success. -/
inductive Executes (g : Gcm) (F : FloatOps) (region : Mem) :
    Query ρ → Backend → ρ → Backend → Prop
  | ret (result : ρ) (b : Backend) : Executes g F region (.ret result) b result b
  | call {q : Request} {next : ℤ → List UInt8 → Query ρ} {b b' b'' : Backend} {env : Env} {m : Mem}
      {iv : Bytes ivSize} {served : OpsProcess} {result : ρ} (hregion : env.region = some region)
      (hget : b.getInstance env.region = some (.shared, m))
      (hchild : handler g F ⟨posted q m, iv⟩ = some served)
      (hserve : env.serve (posted q m) = served.mem)
      (htext : q.IsSubstring ∨ q.IsConcat → served.mem.int resp = 0)
      (hstep : (b.request q env).2 = some b')
      (hrest : Executes g F region (next (served.mem.int resp) (q.copyResultFrom served.mem)) b'
        result b'') :
      Executes g F region (.call q next) b result b''

end Query

/-! ## The two buffers -/

/-- The bytes of the order tags of a substring and of a concatenation. -/
def TagByte (a : ℕ) : Prop :=
  (subStr ≤ a ∧ a < subStr + 4) ∨ (calcLeft ≤ a ∧ a < calcLeft + 4) ∨
    (calcRight sizeofEncStr ≤ a ∧ a < calcRight sizeofEncStr + 4)

/-- The buffers agree on the order tags. -/
def SameTags (m b : Mem) : Prop := ∀ a, TagByte a → b a = m a

section Tags

variable {m b : Mem} {k : Completed} {q : Request} {a : ℕ}

theorem SameTags.subTag (h : SameTags m b) : SubTag m b :=
  Mem.read_congr fun i hi => h _ (.inl ⟨by omega, by omega⟩)

theorem SameTags.concatTags (h : SameTags m b) : ConcatTags m b :=
  ⟨Mem.read_congr fun i hi => h _ (.inr (.inl ⟨by omega, by omega⟩)),
    Mem.read_congr fun i hi => h _ (.inr (.inr ⟨by omega, by omega⟩))⟩

/-- The order tags are not in the header. -/
theorem TagByte.le (ha : TagByte a) : 12 ≤ a := by
  simp only [TagByte, subStr, calcLeft, calcRight] at ha
  omega

/-- The order tags are not in a result. -/
theorem TagByte.outside (ha : TagByte a) (hq : q.Logged) :
    a < q.resultSpan.1 ∨ q.resultSpan.1 + q.resultSpan.2 ≤ a := by
  simp only [TagByte, subStr, calcLeft, calcRight, sizeofEncStr, encStringLength, stringLength,
    ivSize, tagSize] at ha
  cases q with
  | cmp f left right =>
    cases f <;> simp [Request.resultSpan, Fam.size] <;> omega
  | calcNum n op left right =>
    cases n <;> simp [Request.resultSpan, Num.size] <;> omega
  | bulk n items h =>
    cases n <;> simp [Request.resultSpan, Num.size] <;> omega
  | extractYear | strCmp | strLike | substring | concat =>
    simp [Request.resultSpan]
    omega
  | enc | dec | strEnc | strDec | evalExpr => exact hq.elim

/-- The result that is replayed is part of the result field. -/
theorem resultField_subset (hq : q.Logged) (hfit : q.ResultFits m) :
    (q.resultField m).1 = q.resultSpan.1 ∧ (q.resultField m).2 ≤ q.resultSpan.2 := by
  cases q with
  | cmp | calcNum | bulk | extractYear | strCmp | strLike => exact ⟨rfl, le_rfl⟩
  | substring | concat =>
    refine ⟨rfl, ?_⟩
    have hlen := hfit
    rw [Request.ResultFits] at hlen
    rw [Request.resultField, Replayer.sizeAt_of_le hfit]
    show _ ≤ 4 + 4 + encStringLength
    omega
  | enc | dec | strEnc | strDec | evalExpr => exact hq.elim

theorem Request.Logged.fixedWidth_or_isText (hq : q.Logged) : q.FixedWidth ∨ q.IsText := by
  cases q with
  | cmp | calcNum | bulk | extractYear => exact .inl trivial
  | strCmp | strLike | substring | concat => exact .inr trivial
  | enc | dec | strEnc | strDec | evalExpr => exact hq.elim

theorem resultArea_eq (hq : q.IsText) : q.resultArea = q.resultSpan := by
  cases q with
  | strCmp | strLike | substring | concat => rfl
  | cmp | calcNum | bulk | extractYear | enc | dec | strEnc | strDec | evalExpr => exact hq.elim

theorem setStatus_apply (v : ℤ) (ha : 4 ≤ a) : m.setInt status v a = m a :=
  Mem.write_apply_of_not (by rw [length_intBytes]; simp only [status]; omega)

variable (hq : k.req.Logged) (hkept : k.req.Unchanged (Query.posted k.req m) k.buf)
  (hfit : k.req.ResultFits k.buf) (htags : SameTags m b)

include hq hkept hfit htags in
/-- **A request that is sent again is answered from its record.** -/
theorem resends_of_sameTags : Replayer.Resends k (k.req.serializeTo b) := by
  rcases hq.fixedWidth_or_isText with hfixed | htext
  · exact Replayer.resends_of_in hfixed (k.req.in_serializeTo b)
  · refine Replayer.resends_text htext (fun a ha => ?_) hfit (fun _ => htags.concatTags)
      fun _ => htags.subTag
    simp only [Request.InAnswer, resultArea_eq htext, not_or, not_and_or, not_lt, not_le] at ha
    rw [hkept a (by omega) (by omega)]
    exact setStatus_apply _ ha.1

include hq hkept hfit htags in
/-- The tags still agree when the request has been answered. -/
theorem sameTags_step :
    SameTags (k.buf.setInt status statusNone) (Replayer.replayed k (k.req.serializeTo b)) := by
  intro a ha
  have h12 := ha.le
  have hout := ha.outside hq
  obtain ⟨hstart, hlen⟩ := resultField_subset hq hfit
  have hreplayed : Replayer.replayed k (k.req.serializeTo b) a = k.req.serializeTo b a := by
    refine Mem.write_apply_of_not ?_
    rw [Mem.length_read, hstart]
    omega
  rw [hreplayed, setStatus_apply _ (by omega), hkept a (.inr (by simp only [resp]; omega)) hout,
    Query.posted, setStatus_apply _ (by omega)]
  exact Mem.writeAll_congr (htags a ha) _

end Tags

/-! ## Recording -/

/-- No code of `decrypt_bytes` is one of the values that the replayer gives a meaning of its own. -/
def Gcm.Unreserved (g : Gcm) : Prop :=
  ∀ x, (g.decryptBytes x).1 ≠ Replayer.retryFailed ∧ (g.decryptBytes x).1 ≠ Replayer.notReplay

theorem Gcm.identity_unreserved : Gcm.identity.Unreserved := by
  intro x
  unfold Gcm.decryptBytes Gcm.gcmDecrypt Gcm.identity
  dsimp only
  split_ifs <;> simp [Replayer.retryFailed, Replayer.notReplay]

/-- What a query does, request by request: the answers of the server, each with the buffer in which
it stood when it was recorded. The buffer before the first one is `m`. -/
inductive Answered {ρ : Type} : Mem → Query ρ → List Completed → ρ → Prop
  | ret (m : Mem) (result : ρ) : Answered m (.ret result) [] result
  | call {m : Mem} {next : ℤ → List UInt8 → Query ρ} {k : Completed} {ks : List Completed}
      {result : ρ} (hq : k.req.Logged)
      (hkept : k.req.Unchanged (Query.posted k.req m) k.buf) (hfit : k.req.ResultFits k.buf)
      (hresp : k.resp ≠ Replayer.retryFailed ∧ k.resp ≠ Replayer.notReplay)
      (hrest : Answered (k.buf.setInt status statusNone) (next k.resp k.result) ks result) :
      Answered m (.call k.req next) (k :: ks) result

namespace Backend

/-- The backend records to the log `name`, and its buffer is the region. -/
structure RecordsTo (b : Backend) (name : String) (R : Recorder) (region m : Mem) : Prop where
  recordMode : b.recordMode = true
  replayMode : b.replayMode = false
  recorder : b.currentRecorder = (name, R)
  buffer : b.getInstance (some region) = some (.shared, m)

variable {b b' : Backend} {name : String} {R : Recorder} {region m : Mem} {q : Request} {env : Env}

theorem recordsTo_start (pid : ℕ) (files : String → List UInt8) (s dir : String) (region : Mem) :
    ((start pid files).enableRecordMode s dir).RecordsTo (logName pid (ModeCall.recordPath s dir))
      (Recorder.updateWriteFd (files (logName pid (ModeCall.recordPath s dir)))) region
      (region.setInt status statusNone) :=
  ⟨rfl, rfl, rfl, rfl⟩

/-- A request is recorded. -/
theorem RecordsTo.request (h : b.RecordsTo name R region m) (hregion : env.region = some region)
    (hstep : (b.request q env).2 = some b') :
    ∃ R', R.record (env.serve (Query.posted q m)) env.timestamp = some R' ∧
      b'.RecordsTo name R' region ((env.serve (Query.posted q m)).setInt status statusNone) ∧
      b'.files name = R'.file := by
  rw [Backend.request, hregion, h.buffer] at hstep
  simp only [sendRequest, execute] at hstep
  split_ifs at hstep with hreplay hrecord
  · exact absurd (h.replayMode.symm.trans hreplay) (by decide)
  · obtain ⟨R', hR', rfl⟩ := Option.map_eq_some_iff.1 hstep
    have hlog : b.currentRecorder.2.record (env.serve (Query.posted q m)) env.timestamp =
      some R' := hR'
    rw [h.recorder] at hlog
    refine ⟨R', hlog, ⟨h.recordMode, h.replayMode, ?_, rfl⟩, ?_⟩
    · show (b.currentRecorder.1, R') = _
      rw [h.recorder]
    · show Function.update b.files b.currentRecorder.1 R'.file name = _
      rw [h.recorder, Function.update_self]
  · exact absurd h.recordMode hrecord

/-- Nothing stops the recorder from recording a request that the server has answered. -/
theorem RecordsTo.exists_request (h : b.RecordsTo name R region m) (hR : R.Inv) (env : Env)
    (hregion : env.region = some region) (hq : q.Logged)
    (hin : q.In (env.serve (Query.posted q m)))
    (hfit : q.ResultFits (env.serve (Query.posted q m))) : ∃ b', (b.request q env).2 = some b' := by
  obtain ⟨ss, hss, hle⟩ := Recorder.spans_of_fits hin hq hfit
  obtain ⟨R', hR'⟩ := Recorder.record_isSome hR hss hle
  rw [Backend.request, hregion, h.buffer]
  simp only [sendRequest, execute]
  split_ifs with hreplay hrecord
  · exact absurd (h.replayMode.symm.trans hreplay) (by decide)
  · have hlog : b.currentRecorder.2.record (env.serve (Query.posted q m)) env.timestamp =
        some R' := by
      rw [h.recorder]
      exact hR'
    exact ⟨_, congrArg (Option.map _) hlog⟩
  · exact absurd h.recordMode hrecord

/-- The replayer answers from the files, and the buffer is private. -/
structure ReplaysFrom (b : Backend) (fs : String → List UInt8) (rp : Replayer) (m : Mem) :
    Prop where
  replayMode : b.replayMode = true
  files : b.files = fs
  replayer : b.currentReplayer = rp
  buffer : ∀ region, b.getInstance region = some (.calloc, m)

/-- A request is answered from the log. -/
theorem ReplaysFrom.request {fs : String → List UInt8} {rp : Replayer} {v : ℤ} {m' : Mem}
    (h : b.ReplaysFrom fs rp m)
    (hcall : (Replayer.call fs (env.frame, q.serializeTo m) rp).1 = (.returned v, m'))
    (hv : v ≠ Replayer.notReplay) :
    ∃ b' paced, b.request q env = (.answered (.returned v) (some (q.copyResultFrom m')) paced,
      some b') ∧ b'.ReplaysFrom fs (Replayer.call fs (env.frame, q.serializeTo m) rp).2 m' := by
  have hreplayed : b.replayed env.frame (q.serializeTo m) = (.returned v, m') := by
    rw [replayed, h.files, h.replayer, hcall]
  rw [Backend.request, h.buffer]
  simp only [sendRequest, h.replayMode, if_true, replayRequest, hreplayed,
    Replayer.Ret.returned.injEq, hv, if_false, reduceCtorEq, resultOf]
  refine ⟨_, _, rfl, h.replayMode, h.files, ?_, fun _ => rfl⟩
  show (Replayer.call b.files (env.frame, q.serializeTo m) b.currentReplayer).2 = _
  rw [h.files, h.replayer]

end Backend

open Backend

section Queries

variable {ρ : Type} {s : Query ρ} {result : ρ} {g : Gcm} {F : FloatOps} {region m : Mem}

/-- **The log of an executed query holds its answers.** -/
theorem exists_answered (hg : g.IntCodes) (hcodes : g.Unreserved) {b b' : Backend}
    (h : s.Executes g F region b result b') (hs : s.Logged) {name : String}
    {R : Recorder} (hb : b.RecordsTo name R region m) :
    ∃ ks R', Answered m s ks result ∧
      R.recordAll (ks.map fun k => (k.buf, k.timestamp)) = some R' ∧
      (ks = [] ∧ b' = b ∨ b'.files name = R'.file) := by
  induction h generalizing m R with
  | ret result b => exact ⟨[], R, .ret m result, rfl, .inl ⟨rfl, rfl⟩⟩
  | @call q next b b₁ b' env m' iv served result hregion hget hchild hserve htext hstep hrest ih =>
    obtain rfl : m' = m := by
      rw [hregion, hb.buffer] at hget
      cases hget
      rfl
    obtain ⟨R₁, hR₁, hb₁, hfile⟩ := hb.request hregion hstep
    rw [hserve] at hR₁ hb₁
    have hin : q.In (Query.posted q m') := in_sent q ⟨m', iv⟩
    have hkept := unchanged_of_handler hs.1 hin hchild
    obtain ⟨-, -, -, hcode⟩ := exists_operation_of_handler hg hs.1 hin hchild
    have hfit : q.ResultFits served.mem := by
      by_cases hcase : q.IsSubstring ∨ q.IsConcat
      · exact resultFits_of_handler hg hs.1 hin hchild (htext hcase)
      · cases q with
        | substring => exact absurd (.inl trivial) hcase
        | concat => exact absurd (.inr trivial) hcase
        | _ => trivial
    have hresp : served.mem.int resp ≠ Replayer.retryFailed ∧
        served.mem.int resp ≠ Replayer.notReplay := by
      rcases hcode with hzero | ⟨x, hx⟩
      · rw [hzero]
        decide
      · rw [hx]
        exact hcodes x
    obtain ⟨ks, R', hans, hall, hend⟩ := ih (hs.2 _ _) hb₁
    let k : Completed := ⟨q, served.mem, env.timestamp, hin.of_unchanged hkept⟩
    refine ⟨k :: ks, R', .call (k := k) hs.1 hkept hfit hresp hans, ?_, .inr ?_⟩
    · rw [List.map_cons, Recorder.recordAll, List.foldlM_cons]
      show (R.record served.mem env.timestamp).bind _ = some R'
      rw [hR₁]
      exact hall
    · rcases hend with ⟨rfl, rfl⟩ | hend
      · cases hall
        exact hfile
      · exact hend

/-- **A query whose answers are in the log is replayed.** -/
theorem run_of_answered {ks : List Completed} (h : Answered m s ks result)
    {fs : String → List UInt8} {rp : Replayer} {b : Backend} {m' : Mem}
    (hb : b.ReplaysFrom fs rp m') (htags : SameTags m m') (tl : List UInt8)
    (hnext : ∀ k ks', ks = k :: ks' →
      Replayer.Next fs rp k (ks'.flatMap Completed.encoding ++ tl)) (envs : ℕ → Env) :
    ∃ b', s.run b envs = some (result, b') := by
  induction h generalizing rp b m' envs with
  | ret m result => exact ⟨b, rfl⟩
  | @call m next k ks result hq hkept hfit hresp hrest ih =>
    have hres := resends_of_sameTags hq hkept hfit htags
    obtain ⟨hcall, hbefore⟩ := hnext k ks rfl ((envs 0).frame, k.req.serializeTo m') hres
    obtain ⟨b₁, paced, hrequest, hb₁⟩ := hb.request hcall hresp.2
    have hresult : k.req.copyResultFrom (Replayer.replayed k (k.req.serializeTo m')) = k.result :=
      (Replayer.answers_replayed hres).2
    obtain ⟨b', hrun⟩ := ih hb₁ (sameTags_step hq hkept hfit htags)
      (fun k' ks' hks => Replayer.next_of_before (by rw [hks] at hbefore; simpa using hbefore))
      fun n => envs (n + 1)
    refine ⟨b', ?_⟩
    rw [hresult] at hrequest
    rw [Query.run, hrequest]
    exact hrun

/-- A fresh process that replays one log. -/
theorem replaysFrom_start (pid : ℕ) (files : String → List UInt8) {s dir mode : String}
    {entries : List String} {name : String}
    (hnames : ModeCall.recordNames s dir (some entries) = [name]) :
    ((start pid files).enableReplayMode s dir mode (some entries)).2.ReplaysFrom files
      (Replayer.start [name] 0) (Mem.zero.setInt status statusNone) := by
  refine ⟨rfl, rfl, ?_, fun _ => rfl⟩
  rw [← hnames]
  rfl

/-- **A recorded query can be replayed.** When a query of logged requests has run in record mode, on
a region without stale order tags, then another process that replays its log returns the same
result, whatever the server and the rest of the environment do. -/
theorem replays_recording (g : Gcm) (F : FloatOps) (hg : g.IntCodes) (hcodes : g.Unreserved)
    (s : Query ρ) (hs : s.Logged) (pid : ℕ) (files : String → List UInt8) (name dir : String)
    (region : Mem) (hregion : SameTags region Mem.zero) (result : ρ) (b : Backend)
    (h : s.Executes g F region ((start pid files).enableRecordMode name dir) result b)
    (mode : String) (entries : List String)
    (hentries : ModeCall.recordNames name dir (some entries) =
      [logName pid (ModeCall.recordPath name dir)]) (pid' : ℕ) (envs : ℕ → Env) :
    ∃ b', s.run ((start pid' b.files).enableReplayMode name dir mode (some entries)).2 envs =
      some (result, b') := by
  obtain ⟨ks, R, hans, hall, hend⟩ := exists_answered hg hcodes h hs (recordsTo_start ..)
  have htags : SameTags (region.setInt status statusNone) (Mem.zero.setInt status statusNone) := by
    intro a ha
    have h4 : 4 ≤ a := le_trans (by decide) ha.le
    rw [setStatus_apply _ h4, setStatus_apply _ h4, hregion a ha]
  obtain ⟨tl, hfile⟩ := file_of_log hall
  refine run_of_answered hans (replaysFrom_start pid' b.files hentries) htags tl ?_ envs
  rintro k ks rfl
  have hlog := hend.resolve_left (by simp)
  rw [hfile, List.flatMap_cons, List.append_assoc] at hlog
  cases hans with
  | call hq hkept hfit hresp hrest => exact Replayer.next_start 0 hlog hresp.1

/-- The comparison of ciphertexts of 3 and 5, recorded by one process and replayed by another. -/
theorem replays_recording_less : ∃ (s : Query Bool) (b : Backend), s.Logged ∧
    s.Executes .identity .null Mem.zero ((start 7 fun _ => []).enableRecordMode "q" "") true b ∧
    ∀ envs, ∃ b', s.run ((start 8 b.files).enableReplayMode "q" "" "" (some ["q-7.log"])).2 envs =
      some (true, b') := by
  obtain ⟨a₃, h₃⟩ : ∃ c : Bytes encInt32Length, Gcm.identity.Decrypts c.bytes (intBytes 3) :=
    Gcm.exists_cipher _ rfl
  obtain ⟨a₅, h₅⟩ : ∃ c : Bytes encInt32Length, Gcm.identity.Decrypts c.bytes (intBytes 5) :=
    Gcm.exists_cipher _ rfl
  let q : Request := .cmp .int a₃ a₅
  let s : Query Bool := .call q fun _ result => .ret (result = intBytes (-1))
  let m : Mem := Mem.zero.setInt status statusNone
  let r : OpsProcess := ⟨Query.posted q m, OpsProcess.zero.iv⟩
  have hb₀ := recordsTo_start 7 (fun _ => []) "q" "" Mem.zero
  have hin : q.In r.mem := in_sent q ⟨m, OpsProcess.zero.iv⟩
  obtain ⟨served, hcmd, hdelivered⟩ := answers_cmp (F := .null) (r := r) hin h₃ h₅
  let final : OpsProcess := ⟨served.mem.setInt resp 0, served.iv⟩
  have hchild : handler .identity .null r = some final := by
    rw [handler_of_in hin, ← handleCmd_eq, hcmd, setResp_some]
  have hresult : q.copyResultFrom final.mem = intBytes (-1) := by
    refine (Mem.read_write_of_disjoint _ (.inr ?_)).trans hdelivered
    rw [length_intBytes]
    decide
  have hkept := unchanged_of_handler (q := q) trivial hin hchild
  let env : Env := ⟨Mem.zero, some Mem.zero, fun _ => final.mem, ⟨List.replicate 8 0, rfl⟩⟩
  obtain ⟨b, hb⟩ := hb₀.exists_request (q := q) (Recorder.inv_updateWriteFd _) env rfl trivial
    (hin.of_unchanged hkept) trivial
  have hexec : s.Executes .identity .null Mem.zero
      ((start 7 fun _ => []).enableRecordMode "q" "") true b := by
    refine .call (show env.region = some Mem.zero from rfl) rfl hchild rfl ?_ hb ?_
    · rintro (h | h) <;> exact h.elim
    · rw [hresult]
      exact .ret true b
  refine ⟨s, b, ⟨trivial, fun _ _ => trivial⟩, hexec, fun envs => ?_⟩
  exact replays_recording .identity .null Gcm.identity_intCodes Gcm.identity_unreserved s
    ⟨trivial, fun _ _ => trivial⟩ 7 (fun _ => []) "q" "" Mem.zero (fun _ _ => rfl) true b hexec ""
    ["q-7.log"] (by decide) 8 envs

end Queries

end HEDB
