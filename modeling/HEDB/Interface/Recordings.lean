import HEDB.Interface.Modes
import HEDB.RecordReplay.LogEnd

/-!
# A new recording

`enable_record_mode` names the log of the requests that follow. The log is opened at the first of
them, and it may hold an earlier recording under the same name. `Since` follows a run of a process
and collects the records that have been made since the last call of `enable_record_mode`.

The log then starts with these records, and what is left of the earlier recording follows them
(`file_of_since`). It holds exactly the new recording when no opcode stands where the new records
end (`holdsExactly_iff`). A second recording that is shorter than the first leaves some of its
records in the log (`old_record_left`).
-/

namespace HEDB

namespace Backend

/-- A run since the last call of `enable_record_mode`: the log of this call, what it held at the
time of the call, and the buffers that have been recorded since. -/
inductive Since (b₀ : Backend) :
    List Event → Backend → String → List UInt8 → List (Mem × Bytes sizeofUint64) → Prop
  | enable {es : List Event} {b b' : Backend} (s dir : String) : Runs b₀ es b →
      (b.step (.mode (.record s dir))).2 = some b' →
      Since b₀ (.mode (.record s dir) :: es) b' (logName b.pid (ModeCall.recordPath s dir))
        (b.files (logName b.pid (ModeCall.recordPath s dir))) []
  | replay {es : List Event} {b b' : Backend} {name : String} {old : List UInt8}
      {ms : List (Mem × Bytes sizeofUint64)} (s dir mode : String)
      (entries : Option (List String)) : Since b₀ es b name old ms →
      (b.step (.mode (.replay s dir mode entries))).2 = some b' →
      Since b₀ (.mode (.replay s dir mode entries) :: es) b' name old ms
  | request {es : List Event} {b b' : Backend} {name : String} {old : List UInt8}
      {ms : List (Mem × Bytes sizeofUint64)} (q : Request) (env : Env) :
      Since b₀ es b name old ms → (b.step (.request q env)).2 = some b' →
      Since b₀ (.request q env :: es) b' name old
        (ms ++ ((b.step (.request q env)).1.log.map Prod.snd).toList)

/-- The bytes of the records. -/
def encodings (ms : List (Mem × Bytes sizeofUint64)) : List UInt8 :=
  ms.flatMap fun m => Recorder.encoding m.1 m.2

/-- A reader that starts at the beginning of the file finds the records, and no further one. -/
structure HoldsExactly (file : List UInt8) (ms : List (Mem × Bytes sizeofUint64)) : Prop where
  records : encodings ms <+: file
  ends : ¬ FurtherRecord ⟨file, (encodings ms).length⟩

variable {pid : ℕ} {files : String → List UInt8} {es : List Event} {b b' : Backend} {name : String}
  {old : List UInt8} {ms : List (Mem × Bytes sizeofUint64)} {q : Request} {env : Env}

/-! ## The log of a recording -/

/-- The log is what the recorder has made of the old file. -/
def SinceInv (b : Backend) (name : String) (old : List UInt8)
    (ms : List (Mem × Bytes sizeofUint64)) : Prop :=
  ∃ R, (Recorder.updateWriteFd old).recordAll ms = some R ∧ b.files name = R.file ∧
    (b.recordMode = true → b.currentRecorder = (name, R))

theorem SinceInv.request (h : b.SinceInv name old ms) (hstep : (b.request q env).2 = some b') :
    b'.SinceInv name old (ms ++ ((b.request q env).1.log.map Prod.snd).toList) := by
  obtain ⟨R, hR, hfile, hcurrent⟩ := h
  obtain ⟨-, -, -, hkept, -, -, hlogs⟩ := request_some hstep
  cases hlogs with
  | same hlog hupdate hrecorder hfiles =>
    rw [hlog, Option.map_none, Option.toList_none, List.append_nil]
    refine ⟨R, hR, by rw [hfiles, hfile], fun hrec => ?_⟩
    rw [← hcurrent (hkept.recordMode ▸ hrec)]
    simp only [currentRecorder, openLog, hupdate, hrecorder, hfiles, hkept.pid,
      hkept.recordNamePrefix]
  | records hmode m r hlog hrecord hupdate hrecorder hfiles =>
    have hc := hcurrent hmode
    rw [hc] at hrecord hrecorder hfiles
    rw [hlog]
    refine ⟨r, ?_, by rw [hfiles, Function.update_self], fun _ => ?_⟩
    · rw [Recorder.recordAll, Option.map_some, Option.toList_some, List.foldlM_append]
      exact Option.bind_eq_some_iff.mpr ⟨R, hR, by simpa using hrecord⟩
    · rw [currentRecorder, hupdate, hrecorder]
      rfl

theorem sinceInv_of_since (h : Since (start pid files) es b name old ms) :
    b.SinceInv name old ms := by
  induction h with
  | enable s dir _ hstep =>
    obtain rfl := modeCall_record hstep
    exact ⟨_, rfl, rfl, fun _ => rfl⟩
  | replay s dir mode entries _ hstep ih =>
    obtain rfl := modeCall_replay hstep
    obtain ⟨R, hR, hfile, -⟩ := ih
    cases entries with
    | none => exact ⟨R, hR, hfile, fun h => absurd h Bool.false_ne_true⟩
    | some entries => exact ⟨R, hR, hfile, fun h => absurd h Bool.false_ne_true⟩
  | request q env _ hstep ih => exact ih.request hstep

/-- **The log starts with the new records, and what is left of the old file follows.** -/
theorem file_of_since (h : Since (start pid files) es b name old ms) :
    b.files name = encodings ms ++
      (Recorder.resized old (encodings ms).length).drop (encodings ms).length := by
  obtain ⟨R, hR, hfile, -⟩ := sinceInv_of_since h
  exact hfile.trans (Recorder.file_of_recordAll hR)

/-- Behind the new records a reader finds what is left of the old file. -/
theorem rest_of_since (h : Since (start pid files) es b name old ms) :
    (Cursor.mk (b.files name) (encodings ms).length).rest =
      (Cursor.mk (Recorder.resized old (encodings ms).length) (encodings ms).length).rest := by
  rw [Cursor.rest, file_of_since h, List.drop_left]
  rfl

/-- **A log holds exactly its recording when no opcode is left where this ends.** -/
theorem holdsExactly_iff (h : Since (start pid files) es b name old ms) :
    HoldsExactly (b.files name) ms ↔
      ¬ FurtherRecord ⟨Recorder.resized old (encodings ms).length, (encodings ms).length⟩ := by
  rw [← furtherRecord_congr (rest_of_since h)]
  constructor
  · intro hexact
    exact hexact.ends
  · intro hends
    exact ⟨⟨_, (file_of_since h).symm⟩, hends⟩

/-! ## A log name that is used twice -/

open Replayer (samplePlus sampleCmp)

theorem Since.runs {b₀ : Backend} (h : Since b₀ es b name old ms) : Runs b₀ es b := by
  induction h with
  | enable s dir hruns hstep => exact .cons _ hruns hstep
  | replay s dir mode entries _ hstep ih => exact .cons _ ih hstep
  | request q env _ hstep ih => exact .cons _ ih hstep

/-- A process that records adds a record. -/
theorem exists_recorded {m : Mem} (h : Since (start pid files) es b name old ms)
    (hb : b.Recording m) (hq : q.FixedWidth) : ∃ b' m' m'', q.In m' ∧ b'.Recording m'' ∧
      Since (start pid files) (.request q quietEnv :: es) b' name old
        (ms ++ [(m', quietEnv.timestamp)]) := by
  obtain ⟨k, b', m'', r, rfl, -, hstep, hb', -⟩ := hb.request hq
  have hsince := Since.request k.req quietEnv h (congrArg Prod.snd hstep)
  rw [hstep] at hsince
  exact ⟨b', k.buf, m'', k.holds, hb', hsince⟩

/-- A process may open its log, or open it again. -/
theorem exists_enabled {m : Mem} (h : Runs (start pid files) es b) (hmode : b.replayMode = false)
    (hshared : b.getInstance quietEnv.region = some (.shared, m)) :
    ∃ b', b'.Recording m ∧ Since (start pid files) (.mode (.record "q" "") :: es) b'
      (logName pid "/tmp/q") (b.files (logName pid "/tmp/q")) [] := by
  have hpath : ModeCall.recordPath "q" "" = "/tmp/q" := by decide
  have hstep : (b.step (.mode (.record "q" ""))).2 = some (b.enableRecordMode "q" "") :=
    congrArg Prod.snd (if_pos (by decide))
  have hsince := Since.enable "q" "" h hstep
  rw [(inv_of_runs h).pid, hpath] at hsince
  exact ⟨b.enableRecordMode "q" "", ⟨rfl, hmode, hshared, Recorder.inv_updateWriteFd _⟩, hsince⟩

/-- The size of the record of a sum. -/
theorem length_encoding_plus {m : Mem} (h : samplePlus.req.In m) (ts : Bytes sizeofUint64) :
    (Recorder.encoding m ts).length = 112 := by
  rw [(Recorder.encoding_calc h).2]
  simp [Mem.length_read, Bytes.size]

/-- The size of the record of a comparison. -/
theorem length_encoding_cmp {m : Mem} (h : sampleCmp.req.In m) (ts : Bytes sizeofUint64) :
    (Recorder.encoding m ts).length = 92 := by
  rw [(Recorder.encoding_cmp h).2]
  simp [Mem.length_read, Bytes.size]

/-- A recording that is longer than the one that it is written over. -/
theorem holdsExactly_over_old : ∃ b name m m' ts,
    Since (start 7 fun _ => samplePlus.encoding) [.request sampleCmp.req quietEnv,
      .request samplePlus.req quietEnv, .mode (.record "q" ""), .mode (.record "r" "")] b name
      samplePlus.encoding [(m, ts), (m', ts)] ∧
    HoldsExactly (b.files name) [(m, ts), (m', ts)] := by
  have hrun : Runs (start 7 fun _ => samplePlus.encoding) [.mode (.record "r" "")] _ :=
    .cons _ .nil (congrArg Prod.snd (if_pos (by decide)))
  obtain ⟨b₁, hb₁, h₁⟩ := exists_enabled hrun rfl rfl
  obtain ⟨b₂, m₂, _, hin₂, hb₂, h₂⟩ := exists_recorded h₁ hb₁ (q := samplePlus.req) trivial
  obtain ⟨b₃, m₃, _, hin₃, -, h₃⟩ := exists_recorded h₂ hb₂ (q := sampleCmp.req) trivial
  refine ⟨b₃, _, m₂, m₃, _, h₃, (holdsExactly_iff h₃).mpr ?_⟩
  have hlen : (encodings ([] ++ [(m₂, quietEnv.timestamp)] ++
      [(m₃, quietEnv.timestamp)])).length = 204 := by
    rw [List.nil_append, List.singleton_append, encodings, List.flatMap_cons,
      List.flatMap_singleton, List.length_append, length_encoding_plus hin₂,
      length_encoding_cmp hin₃]
  rw [hlen]
  apply not_furtherRecord_of_le
  · decide
  · show samplePlus.encoding.length ≤ 204
    exact (length_encoding_plus samplePlus.holds _).le.trans (by decide)
  · decide

/-- A comparison that follows a sum in the old file is found after a sum in the new one. -/
theorem furtherRecord_of_old {m m' m₀ : Mem} (hold : samplePlus.req.In m)
    (hnext : sampleCmp.req.In m') (hnew : samplePlus.req.In m₀) (ts ts' ts₀ : Bytes sizeofUint64)
    (tl : List UInt8) :
    FurtherRecord ⟨Recorder.resized
      (Recorder.encoding m ts ++ (Recorder.encoding m' ts' ++ tl))
        (Recorder.encoding m₀ ts₀).length,
      (Recorder.encoding m₀ ts₀).length⟩ := by
  have hlen := length_encoding_plus hold ts
  have hroom : (Recorder.encoding m ts).length + (intBytes Fam.timestamp.cmpCmd.code).length ≤
      dataLength := by
    rw [hlen]
    decide
  rw [length_encoding_plus hnew, ← hlen, (Recorder.encoding_cmp hnext).2, List.append_assoc]
  apply (furtherRecord_of_rest (Cmd.isInt_code _)
    (Recorder.rest_resized (by omega) hroom).choose_spec).mpr
  exact ⟨_, by decide, rfl⟩

/-- **A record of the first recording stays in the log of a shorter second one.** -/
theorem old_record_left : ∃ b name old m ts,
    Since (start 7 fun _ => []) [.request samplePlus.req quietEnv, .mode (.record "q" ""),
      .request sampleCmp.req quietEnv, .request samplePlus.req quietEnv, .mode (.record "q" "")]
      b name old [(m, ts)] ∧
    FurtherRecord ⟨b.files name, (encodings [(m, ts)]).length⟩ ∧
    ¬ HoldsExactly (b.files name) [(m, ts)] := by
  obtain ⟨b₁, hb₁, h₁⟩ := exists_enabled (.nil : Runs (start 7 fun _ => []) [] _) rfl rfl
  obtain ⟨b₂, m₂, _, hin₂, hb₂, h₂⟩ := exists_recorded h₁ hb₁ (q := samplePlus.req) trivial
  obtain ⟨b₃, m₃, _, hin₃, hb₃, h₃⟩ := exists_recorded h₂ hb₂ (q := sampleCmp.req) trivial
  obtain ⟨b₄, hb₄, h₄⟩ := exists_enabled h₃.runs hb₃.replayMode hb₃.shared
  obtain ⟨b₅, m₅, _, hin₅, -, h₅⟩ := exists_recorded h₄ hb₄ (q := samplePlus.req) trivial
  rw [List.nil_append] at h₅
  have hold := file_of_since h₃
  rw [List.nil_append, List.singleton_append, encodings, List.flatMap_cons, List.flatMap_singleton,
    List.append_assoc] at hold
  have hfurther : FurtherRecord ⟨b₅.files (logName 7 "/tmp/q"),
      (encodings [(m₅, quietEnv.timestamp)]).length⟩ := by
    rw [furtherRecord_congr (rest_of_since h₅), hold, encodings, List.flatMap_singleton]
    exact furtherRecord_of_old hin₂ hin₃ hin₅ _ _ _ _
  exact ⟨b₅, _, _, m₅, _, h₅, hfurther, fun hexact => hexact.ends hfurther⟩

end Backend

end HEDB
