import HEDB.Pipeline.Calls
import HEDB.RecordReplay.Choice

/-!
# A backend process

The mode of a backend is kept in global flags. `enable_record_mode` and `enable_replay_mode` set
them, `TEEInvoker` consults `replayMode` when it is constructed (at the first request), at every
request and when the process exits, and `sendRequest` clears the two `update` flags.

The model is the process as a whole: the flags, the request buffer, the recorder with its log, the
replayer, and the files. What the process does not decide is part of an event: the entries of the
directory, the region that `getSharedBuffer` returns, what the server does to the buffer, the stack
frame of `replay_request`, the cycle counter.

An array that overflows and a null buffer are a `fault`.
-/

namespace HEDB

open Layout

/-- `MAX_NAME_LENGTH`. -/
def maxNameLength : ℕ := 256

/-- `MAX_RECORDS_NUM`. -/
def maxRecordsNum : ℕ := 17

/-- The calls that choose a mode. Those of `enable_replay_mode` come with the entries that `readdir`
returns, or with nothing if the directory cannot be opened. -/
inductive ModeCall
  | record (s dir : String)
  | replay (s dir mode : String) (entries : Option (List String))
  deriving DecidableEq

namespace ModeCall

/-- `dir_arg`, with its default. -/
def dirArg (dir : String) : String := if dir = "" then "/tmp" else dir

/-- What `enable_record_mode` leaves in `record_name_prefix`. -/
def recordPath (s dir : String) : String := dirArg dir ++ "/" ++ s

/-- What `enable_replay_mode` leaves in `record_names`. -/
def recordNames (s dir : String) : Option (List String) → List String
  | none => []
  | some entries =>
    (entries.filter fun entry => (s ++ "-").toList <+: entry.toList).map fun entry =>
      dirArg dir ++ "/" ++ entry

/-- The text that `enable_replay_mode` prints into `tmp`. -/
def infoText (names : List String) : String :=
  "find " ++ toString names.length ++ " log file(s)\n" ++
    String.join (names.zipIdx.map fun (name, i) => toString i ++ ": " ++ name ++ "\n")

/-- The names fit the arrays. -/
def Fits : ModeCall → Prop
  | record s dir => (recordPath s dir).utf8ByteSize < maxNameLength
  | replay s dir _ entries => (s ++ "-").utf8ByteSize < maxNameLength ∧
      (recordNames s dir entries).length ≤ maxRecordsNum ∧
      (∀ name ∈ recordNames s dir entries, name.utf8ByteSize < maxNameLength) ∧
      (infoText (recordNames s dir entries)).utf8ByteSize < 256

instance : (c : ModeCall) → Decidable c.Fits
  | record _ _ => inferInstanceAs (Decidable (_ < _))
  | replay _ _ _ _ => inferInstanceAs (Decidable (_ ∧ _))

end ModeCall

/-- What the environment does during a request. -/
structure Env where
  /-- The stack frame of `replay_request`. -/
  frame : Mem
  /-- The region that `getSharedBuffer` returns, as it finds it, or nothing if it gives up. -/
  region : Option Mem
  /-- What the server makes of the buffer. -/
  serve : Mem → Mem
  timestamp : Bytes sizeofUint64

/-- The events in the life of a backend. -/
inductive Event
  | mode (c : ModeCall)
  | request (q : Request) (env : Env)
  | exit

/-- What the request buffer is. -/
inductive Kind
  /-- A region of the shared memory, with a child of the server that polls it. -/
  | shared
  /-- A block from `calloc`. -/
  | calloc
  deriving DecidableEq, Repr

/-- How the buffer is released. -/
inductive Release
  | freeBuffer
  | free
  deriving DecidableEq, Repr

/-- What an event does. -/
inductive Out
  /-- A mode call returns. -/
  | returned
  /-- `enable_replay_mode` raises "could not open directory". -/
  | couldNotOpen
  /-- The request is answered by `Replayer::replay`, with or without pacing. The result is copied
  unless an error is raised. -/
  | answered (ret : Replayer.Ret) (result : Option (List UInt8)) (paced : Bool)
  /-- The request is executed by the server, and then recorded if there is a log. -/
  | executed (resp : ℤ) (result : List UInt8) (log : Option (String × Mem × Bytes sizeofUint64))
  /-- The request is posted in a private buffer, and waited for. -/
  | stuck
  /-- The buffer is released at exit. -/
  | released (kind : Kind) (by_ : Release)
  | fault

/-- The call of `Recorder::record`, if there is one: the log, the buffer and the cycle counter. -/
def Out.log : Out → Option (String × Mem × Bytes sizeofUint64)
  | .executed _ _ log => log
  | _ => none

/-- A backend process. `record_names` stands for its first `records_cnt` entries. -/
structure Backend where
  pid : ℕ
  recordMode : Bool
  replayMode : Bool
  updateRecordFile : Bool
  updateReplayFile : Bool
  performanceReplay : Bool
  recordNamePrefix : String
  recordNames : List String
  /-- `req_buffer`, once there is a `TEEInvoker`. -/
  reqBuffer : Option (Kind × Mem)
  /-- The recorder, once constructed, and the name of its file. -/
  recorder : Option (String × Recorder)
  /-- The replayer, once constructed. -/
  replayer : Option Replayer
  files : String → List UInt8

namespace Backend

/-- A backend that has just been started. -/
def start (pid : ℕ) (files : String → List UInt8) : Backend where
  pid := pid
  recordMode := false
  replayMode := false
  updateRecordFile := false
  updateReplayFile := false
  performanceReplay := false
  recordNamePrefix := ""
  recordNames := []
  reqBuffer := none
  recorder := none
  replayer := none
  files := files

/-! ## The mode calls -/

/-- `enable_record_mode`. -/
def enableRecordMode (b : Backend) (s dir : String) : Backend :=
  { b with
    recordMode := true
    updateRecordFile := true
    recordNamePrefix := ModeCall.recordPath s dir }

/-- `enable_replay_mode`. When the directory cannot be opened, the error leaves the call before it
looks at the mode. -/
def enableReplayMode (b : Backend) (s dir mode : String) (entries : Option (List String)) :
    Out × Backend :=
  let b := { b with
    recordMode := false
    replayMode := true
    updateReplayFile := true
    recordNamePrefix := s ++ "-"
    recordNames := ModeCall.recordNames s dir entries }
  match entries with
  | none => (.couldNotOpen, b)
  | some _ => (.returned, { b with performanceReplay := b.performanceReplay || mode = "perf" })

/-- A mode call, unless a name leaves its array. -/
def modeCall (b : Backend) (c : ModeCall) : Out × Option Backend :=
  if c.Fits then
    match c with
    | .record s dir => (.returned, some (b.enableRecordMode s dir))
    | .replay s dir mode entries =>
      ((b.enableReplayMode s dir mode entries).1, some (b.enableReplayMode s dir mode entries).2)
  else (.fault, none)

/-! ## Requests -/

/-- The constructor of `TEEInvoker`. A null buffer is written to. -/
def construct (b : Backend) (region : Option Mem) : Option (Kind × Mem) :=
  if b.replayMode then some (.calloc, Mem.zero.setInt status statusNone)
  else region.map fun m => (.shared, m.setInt status statusNone)

/-- `getInstance`: the request buffer. -/
def getInstance (b : Backend) (region : Option Mem) : Option (Kind × Mem) :=
  match b.reqBuffer with
  | some buf => some buf
  | none => b.construct region

/-- The name of the log, from `record_name_prefix`. -/
def logName (pid : ℕ) (path : String) : String :=
  (if path = "" then "record" else path) ++ "-" ++ toString pid ++ ".log"

/-- `update_write_fd`. -/
def openLog (b : Backend) : String × Recorder :=
  (logName b.pid b.recordNamePrefix,
    Recorder.updateWriteFd (b.files (logName b.pid b.recordNamePrefix)))

/-- The recorder that records the request. -/
def currentRecorder (b : Backend) : String × Recorder :=
  if b.updateRecordFile then b.openLog else b.recorder.getD b.openLog

/-- The replayer that is asked for the answer. Its `previous_op` is zero when it is constructed. -/
def currentReplayer (b : Backend) : Replayer :=
  let rp := b.replayer.getD (Replayer.start b.recordNames 0)
  if b.updateReplayFile then { rp with replayFile := none, filenames := b.recordNames } else rp

/-- The part of `sendRequest` that asks the server, on the buffer `m` with the request. -/
def execute (b : Backend) (kind : Kind) (m : Mem) (q : Request) (env : Env) :
    Out × Option Backend :=
  match kind with
  | .calloc => (.stuck, none)
  | .shared =>
    let m := env.serve (m.setInt status statusSent)
    let b := { b with reqBuffer := some (.shared, m.setInt status statusNone) }
    if b.recordMode then
      let (name, r) := b.currentRecorder
      (.executed (m.int Layout.resp) (q.copyResultFrom m) (some (name, m, env.timestamp)),
        (r.record m env.timestamp).map fun r =>
          { b with
            recorder := some (name, r)
            updateRecordFile := false
            files := Function.update b.files name r.file })
    else (.executed (m.int Layout.resp) (q.copyResultFrom m) none, some b)

/-- `replay_request` runs to its end, where the pacing is. -/
def reachesEnd : Outcome → Bool
  | .answer _ => true
  | _ => false

/-- Some log answers, in the loop over the logs at the first request. -/
def someReachesEnd (fs : String → List UInt8) (frame : Mem) (s : ℤ × Mem) : List String → Bool
  | [] => false
  | name :: rest => reachesEnd (Replayer.replayRequest frame ⟨fs name, 0⟩ s.2 s.1).1 ||
      Replayer.PassedOver fs frame s name &&
        someReachesEnd fs frame (Replayer.passing fs frame s name) rest

/-- A record is read to its end when the replayer is asked. -/
def readsRecord (fs : String → List UInt8) (frame : Mem) (rp : Replayer) (m : Mem) : Bool :=
  match rp.replayFile with
  | none => someReachesEnd fs frame (rp.previousOp, m) rp.filenames
  | some c => reachesEnd (Replayer.replayRequest frame c m rp.previousOp).1

/-- The result that is copied when `replay` returns. -/
def resultOf (q : Request) (m : Mem) : Replayer.Ret → Option (List UInt8)
  | .returned _ => some (q.copyResultFrom m)
  | _ => none

/-- What `Replayer::replay` returns for the request in `m`, and the buffer after it. -/
def replayed (b : Backend) (frame m : Mem) : Replayer.Ret × Mem :=
  (Replayer.call b.files (frame, m) b.currentReplayer).1

/-- The process after `Replayer::replay`. -/
def asked (b : Backend) (frame m : Mem) : Backend :=
  { b with
    replayer := some (Replayer.call b.files (frame, m) b.currentReplayer).2
    updateReplayFile := false }

/-- The part of `sendRequest` that asks the replayer, on the buffer `m` with the request. -/
def replayRequest (b : Backend) (kind : Kind) (m : Mem) (q : Request) (env : Env) :
    Out × Option Backend :=
  let (ret, m') := b.replayed env.frame m
  if ret = .returned Replayer.notReplay then (b.asked env.frame m).execute kind m' q env
  else if ret = .fault then (.fault, none)
  else (.answered ret (resultOf q m' ret)
      (b.performanceReplay && readsRecord b.files env.frame b.currentReplayer m),
    some { b.asked env.frame m with reqBuffer := some (kind, m') })

/-- `sendRequest`, on the buffer. -/
def sendRequest (b : Backend) (kind : Kind) (m : Mem) (q : Request) (env : Env) :
    Out × Option Backend :=
  if b.replayMode then b.replayRequest kind (q.serializeTo m) q env
  else b.execute kind (q.serializeTo m) q env

/-- A request. -/
def request (b : Backend) (q : Request) (env : Env) : Out × Option Backend :=
  match b.getInstance env.region with
  | none => (.fault, none)
  | some (kind, m) => b.sendRequest kind m q env

/-! ## Exit and whole runs -/

/-- `exit_handler`, which is registered when the `TEEInvoker` is constructed. -/
def atExit (b : Backend) : Out :=
  match b.reqBuffer with
  | none => .returned
  | some (kind, _) => .released kind (if b.replayMode then .free else .freeBuffer)

/-- What an event does, and the process after it, unless it has ended or does not go on. -/
def step (b : Backend) : Event → Out × Option Backend
  | .mode c => b.modeCall c
  | .request q env => b.request q env
  | .exit => (b.atExit, none)

/-- The runs of a process. The events of a run are listed from the last to the first. -/
inductive Runs (b₀ : Backend) : List Event → Backend → Prop
  | nil : Runs b₀ [] b₀
  | cons {es : List Event} {b b' : Backend} (e : Event) :
      Runs b₀ es b → (b.step e).2 = some b' → Runs b₀ (e :: es) b'

end Backend

end HEDB
