import HEDB.Foundations.System
import HEDB.Types.Request

/-!
# The shared memory protocol

Database backends talk to the operator server through one shared memory: a header, through which a
backend asks for a region and gives it back (`getSharedBuffer` and `freeBuffer`, served by the main
loop of the server), and sixteen regions, through which the owner of a region sends requests to the
child process that was forked for it (`sendRequest`, served by the loop of `fork_ops_process`).

A process is given by its program counter, one for each point of the code at which the shared memory
is read or written, and a step is one such access. `step` runs one step of one process; the label
says which process, and what it chooses where the code leaves a choice (the next request of a
backend, a connection timeout, the entropy of a handler run). A process that waits in a loop leaves
the state as it is. Memory is sequentially consistent, and every fork succeeds; `Forking.step` is
the system in which a fork may fail.

Three parts of the state are not in the memory of the program: which process holds the spin lock,
the region that the server has allocated for the current `SHM_GET` (`granted`), and the log of what
happened to each region (`events`). No step depends on them, apart from the lock being free or not.

The request handler is a parameter: a program on the bytes of a region that takes steps of its own.
-/

namespace HEDB

namespace SharedMemory

/-! ## The bitmap -/

/-- `MAX_REGION_NUM`. -/
def maxRegionNum : ℕ := 16

/-- The number of a region. -/
abbrev Region := Fin maxRegionNum

/-- `GET(a, n)`. -/
def getBit (a : BitVec 32) (n : ℕ) : BitVec 32 := (a >>> n) &&& 1#32

/-- `SET(a, n)`. -/
def setBit (a : BitVec 32) (n : ℕ) : BitVec 32 := a ||| (1#32 <<< n)

/-- `CLEAR(a, n)`. -/
def clearBit (a : BitVec 32) (n : ℕ) : BitVec 32 := a &&& ~~~(1#32 <<< n)

/-- The region is taken, as the bitmap has it. -/
def HasBit (a : BitVec 32) (r : Region) : Prop := a.getLsbD r = true

instance (a : BitVec 32) (r : Region) : Decidable (HasBit a r) :=
  inferInstanceAs (Decidable (_ = _))

theorem getBit_eq (a : BitVec 32) (n : ℕ) : getBit a n = if a.getLsbD n then 1#32 else 0#32 := by
  ext i hi
  by_cases h0 : i = 0
  · subst h0
    cases h : a.getLsbD n <;> simpa [getBit] using h
  · cases h : a.getLsbD n <;> simp [getBit, h0]

theorem getBit_eq_zero (a : BitVec 32) (r : Region) : getBit a r = 0#32 ↔ ¬ HasBit a r := by
  rw [getBit_eq, HasBit]
  cases a.getLsbD r <;> simp

theorem getBit_eq_one (a : BitVec 32) (r : Region) : getBit a r = 1#32 ↔ HasBit a r := by
  rw [getBit_eq, HasBit]
  cases a.getLsbD r <;> simp

theorem hasBit_setBit (a : BitVec 32) (r r' : Region) :
    HasBit (setBit a r) r' ↔ r' = r ∨ HasBit a r' := by
  have hr' : (r' : ℕ) < 32 := r'.isLt.trans (by decide)
  simp only [HasBit, setBit, BitVec.getLsbD_or, BitVec.getLsbD_shiftLeft, BitVec.getLsbD_one,
    Fin.ext_iff, Bool.or_eq_true, Bool.and_eq_true, decide_eq_true_eq, Bool.not_eq_true']
  simp only [decide_eq_false_iff_not]
  constructor
  · rintro (h | h)
    · exact .inr h
    · exact .inl (by omega)
  · rintro (h | h)
    · exact .inr (by omega)
    · exact .inl h

theorem hasBit_clearBit (a : BitVec 32) (r r' : Region) :
    HasBit (clearBit a r) r' ↔ r' ≠ r ∧ HasBit a r' := by
  have hr' : (r' : ℕ) < 32 := r'.isLt.trans (by decide)
  simp only [HasBit, clearBit, BitVec.getLsbD_and, BitVec.getLsbD_not, BitVec.getLsbD_shiftLeft,
    BitVec.getLsbD_one, ne_eq, Fin.ext_iff, Bool.and_eq_true, decide_eq_true_eq,
    Bool.not_eq_true', Bool.and_eq_false_iff, decide_eq_false_iff_not, Bool.not_eq_false']
  constructor
  · rintro ⟨h, -, h'⟩
    exact ⟨by omega, h⟩
  · rintro ⟨h', h⟩
    exact ⟨h, hr', by omega⟩

/-! ## Processes -/

/-- A program on the bytes of a region, which runs in steps from a state that it draws. -/
structure Handler where
  Local : Type
  start : ℕ → Local
  step : Local × Mem → Local × Mem
  finished : Local → Bool

/-- `m` is the memory of a handler run on `m₀` that has come to the local state `l`. -/
def Handler.At (h : Handler) (m₀ : Mem) (l : h.Local) (m : Mem) : Prop :=
  ∃ seed n, h.step^[n] (h.start seed, m₀) = (l, m) ∧
    ∀ i < n, h.finished (h.step^[i] (h.start seed, m₀)).1 = false

/-- A complete handler run turns `m₀` into `m`. -/
def Handler.Runs (h : Handler) (m₀ m : Mem) : Prop := ∃ l, h.At m₀ l m ∧ h.finished l = true

/-- Every run of the handler ends. -/
def Handler.Terminates (h : Handler) : Prop :=
  ∀ seed m, ∃ n, h.finished (h.step^[n] (h.start seed, m)).1 = true

/-- The values of `ShmReqStat` in use. -/
inductive ShmStatus
  | none | get | free | done
  deriving DecidableEq, Repr

/-- The values of `ReqStat`. -/
inductive ReqStatus
  | none | sent | done | exit
  deriving DecidableEq, Repr

/-- A region: the status word and the other bytes. -/
structure RegionMem where
  status : ReqStatus
  mem : Mem

/-- A backend in `getSharedBuffer`, before it has a region. -/
inductive AskPc
  /-- It has the lock and checks the status. -/
  | locked
  /-- It posts `SHM_GET`. -/
  | post
  /-- It waits for `SHM_DONE`. -/
  | wait
  /-- It reads `ret_id`. -/
  | read
  deriving DecidableEq

/-- A backend that has a region. -/
inductive HoldPc
  /-- In `getSharedBuffer`: it clears the status, and releases the lock. -/
  | getReset | getUnlock
  /-- In the constructor: it clears the status of the region. -/
  | ctor
  /-- Between requests. -/
  | ready
  /-- In `sendRequest`: the fields `ws` of the request are still to be copied; when there are none
  it posts `SENT`. -/
  | serialize (q : Request) (ws : List (ℕ × List UInt8))
  /-- It waits for `DONE`, copies the result, reads `resp` and clears the status. -/
  | waitDone (q : Request) | copy (q : Request) | readResp (q : Request) | reset
  /-- In `freeBuffer`: it takes the lock, checks the status, writes `free_id`, posts `SHM_FREE`,
  waits for `SHM_DONE`, clears the status and releases the lock. -/
  | freeLock | freeLocked | freeId | freePost | freeWait | freeReset | freeUnlock

/-- A database backend. -/
inductive BackendPc
  /-- Before the construction of its `TEEInvoker`. -/
  | init
  | asking (p : AskPc)
  | holding (r : Region) (p : HoldPc)
  /-- After the destruction of its `TEEInvoker`. -/
  | gone
  /-- The wait for a region has timed out: the constructor writes through a null pointer. -/
  | timedOut
  /-- An assertion has failed. -/
  | aborted

/-- The main loop of the server. -/
inductive ServerPc
  /-- It tests the status for `SHM_GET`, then for `SHM_FREE`. -/
  | poll | poll2
  /-- It tests bit `i`. -/
  | scan (i : ℕ)
  /-- It has found a clear bit: it sets the bit, writes `ret_id`, and forks. -/
  | setBit (r : Region) | setRet (r : Region) | fork (r : Region)
  /-- It posts `SHM_DONE`. -/
  | setDone
  /-- It reads `free_id`, posts `EXIT`, checks the bit, clears it and waits for the child. -/
  | freeRead | freeExit (r : Region) | freeAssert (r : Region) | freeClear (r : Region)
  | freeWait (r : Region)
  | aborted

/-- The loop of a child. -/
inductive ChildPc (h : Handler)
  /-- It tests the status for `EXIT`, then for `SENT`. -/
  | poll | poll2
  /-- It tests the request type. -/
  | check
  | handling (l : h.Local)
  /-- It posts `DONE`. -/
  | post
  /-- It has read `EXIT`: it clears the status, and calls `exit`. -/
  | exiting | leaving
  | exited

/-- A child process and the region that it serves. -/
structure Child (h : Handler) where
  region : Region
  pc : ChildPc h

/-- What happens to a region. -/
inductive Event
  /-- The server forks a child for the region, for the process that holds the lock. -/
  | forked (owner : Option ℕ) (pid : ℕ)
  /-- A backend starts to serialize a request; these are the bytes that the region holds. -/
  | begin (b : ℕ) (q : Request) (m : Mem)
  /-- It posts `SENT`. -/
  | sent (b : ℕ) (q : Request) (m : Mem)
  /-- A child calls the handler. -/
  | start (pid : ℕ) (m : Mem)
  /-- The handler returns. -/
  | finish (pid : ℕ) (m : Mem)
  /-- A backend copies its result. -/
  | copied (b : ℕ) (q : Request) (m : Mem)
  /-- It reads `resp`. -/
  | resp (b : ℕ) (q : Request) (m : Mem)
  /-- The server posts `EXIT`. -/
  | exit
  /-- A child reads `EXIT`. -/
  | exits (pid : ℕ)
  /-- The server has waited for the child. -/
  | reaped

/-! ## States -/

/-- The state of the system. -/
structure State (h : Handler) where
  lock : Option ℕ
  status : ShmStatus
  freeId : Region
  retId : Region
  bitmap : BitVec 32
  regions : Region → RegionMem
  /-- `child_pids`, local to the server. -/
  childPids : Region → ℕ
  server : ServerPc
  children : ℕ → Option (Child h)
  nextPid : ℕ
  backends : ℕ → BackendPc
  granted : Option Region
  events : Region → List Event

namespace State

variable {h : Handler}

/-- Zero-filled memory, and no backend has started. -/
def start (h : Handler) : State h where
  lock := none
  status := .none
  freeId := ⟨0, by decide⟩
  retId := ⟨0, by decide⟩
  bitmap := 0
  regions := fun _ => ⟨.none, Mem.zero⟩
  childPids := fun _ => 0
  server := .poll
  children := fun _ => none
  nextPid := 1
  backends := fun _ => .init
  granted := none
  events := fun _ => []

/-- A backend goes on. -/
def goto (s : State h) (b : ℕ) (pc : BackendPc) : State h :=
  { s with backends := Function.update s.backends b pc }

/-- A child goes on. -/
def childGoto (s : State h) (pid : ℕ) (r : Region) (pc : ChildPc h) : State h :=
  { s with children := Function.update s.children pid (some ⟨r, pc⟩) }

/-- Write the status word of a region. -/
def setStatus (s : State h) (r : Region) (st : ReqStatus) : State h :=
  { s with regions := Function.update s.regions r ⟨st, (s.regions r).mem⟩ }

/-- Write the other bytes of a region. -/
def setMem (s : State h) (r : Region) (m : Mem) : State h :=
  { s with regions := Function.update s.regions r ⟨(s.regions r).status, m⟩ }

/-- Add an event to the log of a region. -/
def log (s : State h) (r : Region) (e : Event) : State h :=
  { s with events := Function.update s.events r (s.events r ++ [e]) }

end State

/-! ## Steps -/

section Steps

variable {h : Handler}

/-- What a backend chooses. -/
inductive Choice
  /-- Go on. -/
  | go
  /-- Send a request. -/
  | send (q : Request)
  /-- Free the region and end. -/
  | free
  /-- Give up waiting for a region. -/
  | timeout

/-- One step of a backend that has no region: `getSharedBuffer`. -/
def askStep (s : State h) (b : ℕ) (c : Choice) : AskPc → State h
  | .locked => if s.status = .none then s.goto b (.asking .post) else s.goto b .aborted
  | .post => { s with status := .get, granted := none }.goto b (.asking .wait)
  | .wait =>
    match c with
    | .timeout => s.goto b .timedOut
    | _ => if s.status = .done then s.goto b (.asking .read) else s
  | .read => s.goto b (.holding s.retId .getReset)

/-- One step of a backend that has a region. -/
def holdStep (s : State h) (b : ℕ) (r : Region) (c : Choice) : HoldPc → State h
  | .getReset => { s with status := .none }.goto b (.holding r .getUnlock)
  | .getUnlock => { s with lock := none }.goto b (.holding r .ctor)
  | .ctor => (s.setStatus r .none).goto b (.holding r .ready)
  | .ready =>
    match c with
    | .send q => (s.log r (.begin b q (s.regions r).mem)).goto b
        (.holding r (.serialize q q.writes))
    | .free => s.goto b (.holding r .freeLock)
    | _ => s
  | .serialize q ((o, bs) :: ws) =>
    (s.setMem r ((s.regions r).mem.write o bs)).goto b (.holding r (.serialize q ws))
  | .serialize q [] =>
    ((s.setStatus r .sent).log r (.sent b q (s.regions r).mem)).goto b (.holding r (.waitDone q))
  | .waitDone q => if (s.regions r).status = .done then s.goto b (.holding r (.copy q)) else s
  | .copy q => (s.log r (.copied b q (s.regions r).mem)).goto b (.holding r (.readResp q))
  | .readResp q => (s.log r (.resp b q (s.regions r).mem)).goto b (.holding r .reset)
  | .reset => (s.setStatus r .none).goto b (.holding r .ready)
  | .freeLock =>
    if s.lock = none then { s with lock := some b }.goto b (.holding r .freeLocked) else s
  | .freeLocked => if s.status = .none then s.goto b (.holding r .freeId) else s.goto b .aborted
  | .freeId => { s with freeId := r }.goto b (.holding r .freePost)
  | .freePost => { s with status := .free }.goto b (.holding r .freeWait)
  | .freeWait => if s.status = .done then s.goto b (.holding r .freeReset) else s
  | .freeReset => { s with status := .none }.goto b (.holding r .freeUnlock)
  | .freeUnlock => { s with lock := none }.goto b .gone

/-- One step of a backend. -/
def backendStep (s : State h) (b : ℕ) (c : Choice) : State h :=
  match s.backends b with
  | .init => if s.lock = none then { s with lock := some b }.goto b (.asking .locked) else s
  | .asking p => askStep s b c p
  | .holding r p => holdStep s b r c p
  | .gone => s
  | .timedOut => s
  | .aborted => s

/-- One step of the main loop of the server, whose forks succeed. -/
def serverStep (s : State h) : State h :=
  match s.server with
  | .poll => { s with server := if s.status = .get then .scan 0 else .poll2 }
  | .poll2 => { s with server := if s.status = .free then .freeRead else .poll }
  | .scan i =>
    if hi : i < maxRegionNum then
      { s with server := if getBit s.bitmap i = 0#32 then .setBit ⟨i, hi⟩ else .scan (i + 1) }
    else { s with server := .setDone }
  | .setBit r => { s with bitmap := setBit s.bitmap r, server := .setRet r }
  | .setRet r => { s with retId := r, server := .fork r }
  | .fork r =>
    { s with
      childPids := Function.update s.childPids r s.nextPid
      children := Function.update s.children s.nextPid (some ⟨r, .poll⟩)
      nextPid := s.nextPid + 1
      granted := some r
      server := .setDone }.log r (.forked s.lock s.nextPid)
  | .setDone => { s with status := .done, server := .poll }
  | .freeRead => { s with server := .freeExit s.freeId }
  | .freeExit r => { s with server := .freeAssert r }.setStatus r .exit |>.log r .exit
  | .freeAssert r =>
    { s with server := if getBit s.bitmap r = 1#32 then .freeClear r else .aborted }
  | .freeClear r => { s with bitmap := clearBit s.bitmap r, server := .freeWait r }
  | .freeWait r =>
    match s.children (s.childPids r) with
    -- `waitpid` fails at once when there is no such child
    | none => { s with server := .setDone }
    | some ⟨_, .exited⟩ =>
      { s with
        children := Function.update s.children (s.childPids r) none
        server := .setDone }.log r .reaped
    | some _ => s
  | .aborted => s

/-- One step of a child at a program counter. -/
def childRun (s : State h) (pid : ℕ) (r : Region) (seed : ℕ) : ChildPc h → State h
  | .poll =>
    if (s.regions r).status = .exit then (s.log r (.exits pid)).childGoto pid r .exiting
    else s.childGoto pid r .poll2
  | .poll2 =>
    if (s.regions r).status = .sent then s.childGoto pid r .check else s.childGoto pid r .poll
  | .check =>
    if 0 < (s.regions r).mem.int Layout.reqType then
      (s.log r (.start pid (s.regions r).mem)).childGoto pid r (.handling (h.start seed))
    else s.childGoto pid r .post
  | .handling l =>
    if h.finished l then (s.log r (.finish pid (s.regions r).mem)).childGoto pid r .post
    else (s.setMem r (h.step (l, (s.regions r).mem)).2).childGoto pid r
      (.handling (h.step (l, (s.regions r).mem)).1)
  | .post => (s.setStatus r .done).childGoto pid r .poll
  | .exiting => (s.setStatus r .none).childGoto pid r .leaving
  | .leaving => s.childGoto pid r .exited
  | .exited => s

/-- One step of a child. -/
def childStep (s : State h) (pid seed : ℕ) : State h :=
  match s.children pid with
  | none => s
  | some c => childRun s pid c.region seed c.pc

/-- The process that takes the next step, and its choice. -/
inductive Label
  | server
  | child (pid seed : ℕ)
  | backend (b : ℕ) (c : Choice)

/-- One step of the system. -/
def step (s : State h) : Label → State h
  | .server => serverStep s
  | .child pid seed => childStep s pid seed
  | .backend b c => backendStep s b c

end Steps

/-! ## Holding a region -/

/-- A backend has obtained a region and has not yet freed it. -/
def State.Holds {h : Handler} (s : State h) (b : ℕ) (r : Region) : Prop :=
  ∃ p, s.backends b = .holding r p

/-- **Each region is held by one backend at a time.** -/
def State.Exclusive {h : Handler} (s : State h) : Prop :=
  ∀ b b' r, s.Holds b r → s.Holds b' r → b = b'

end SharedMemory

end HEDB
