import HEDB.SharedMemory.Model

/-!
# The invariant of the shared memory protocol

A region goes through phases: it is free; it is owned by a backend and served by a child that was
forked for it; a request is being serialized, has been sent, is being handled, has been answered,
its result has been copied; and the child is told to exit and exits. `Handshake` says which event
leads from which phase to which.

The invariant ties the log of a region to its phase, and the phase to the memory and the program
counters. It comes in two layers.

* `Control` is about the header: who has the lock, what the status and the server are at (`Stage`),
  which regions the bitmap has, and which backends and children there are. Of a phase it only sees
  the `Role`.
* `Row` is about one region: the status word and the bytes of the region, and the program counters
  of its owner and its child.
-/

namespace HEDB

namespace SharedMemory

variable {h : Handler}

/-! ## Phases -/

/-- What a region is for. -/
inductive Role
  | free
  /-- It is allocated to backend `b` and served by child `pid`. -/
  | owned (b pid : ℕ)
  /-- Its child has been told to exit. -/
  | closing (b pid : ℕ)

/-- The phases of a region. The memory of a phase is what the region held when the phase began, and
for `preparing` when the serialization began. -/
inductive Phase
  | free
  | owned (b pid : ℕ)
  | preparing (b pid : ℕ) (q : Request) (m : Mem)
  | sent (b pid : ℕ) (q : Request) (m : Mem)
  | handling (b pid : ℕ) (q : Request) (m : Mem)
  | finished (b pid : ℕ) (q : Request) (m : Mem)
  | copied (b pid : ℕ) (q : Request) (m : Mem)
  | exiting (b pid : ℕ)
  | leaving (b pid : ℕ)

def Phase.role : Phase → Role
  | free => .free
  | owned b pid => .owned b pid
  | preparing b pid _ _ => .owned b pid
  | sent b pid _ _ => .owned b pid
  | handling b pid _ _ => .owned b pid
  | finished b pid _ _ => .owned b pid
  | copied b pid _ _ => .owned b pid
  | exiting b pid => .closing b pid
  | leaving b pid => .closing b pid

def Role.owner : Role → Option ℕ
  | free => none
  | owned b _ => some b
  | closing b _ => some b

def Role.child : Role → Option ℕ
  | free => none
  | owned _ pid => some pid
  | closing _ pid => some pid

theorem Role.eq_free_of_owner {ρ : Role} (hρ : ρ.owner = none) : ρ = .free := by
  cases ρ <;> simp_all [Role.owner]

/-- **The handshake.** Every event of a region belongs to one phase. A request is handled on the
bytes that were sent, which are those of its serialization; its result is read from the bytes that
the handler left, by the backend that sent it; and a child handles and exits only for the backend
that it was forked for. -/
inductive Handshake (h : Handler) : Phase → Event → Phase → Prop
  | forked (b pid : ℕ) : Handshake h .free (.forked (some b) pid) (.owned b pid)
  | begin (b pid : ℕ) (q : Request) (m : Mem) :
      Handshake h (.owned b pid) (.begin b q m) (.preparing b pid q m)
  | sent (b pid : ℕ) (q : Request) (m : Mem) :
      Handshake h (.preparing b pid q m) (.sent b q (q.serializeTo m))
        (.sent b pid q (q.serializeTo m))
  | start (b pid : ℕ) (q : Request) (m : Mem) :
      Handshake h (.sent b pid q m) (.start pid m) (.handling b pid q m)
  | finish (b pid : ℕ) (q : Request) (m m' : Mem) : h.Runs m m' →
      Handshake h (.handling b pid q m) (.finish pid m') (.finished b pid q m')
  | copied (b pid : ℕ) (q : Request) (m : Mem) :
      Handshake h (.finished b pid q m) (.copied b q m) (.copied b pid q m)
  | resp (b pid : ℕ) (q : Request) (m : Mem) :
      Handshake h (.copied b pid q m) (.resp b q m) (.owned b pid)
  | exit (b pid : ℕ) : Handshake h (.owned b pid) .exit (.exiting b pid)
  | exits (b pid : ℕ) : Handshake h (.exiting b pid) (.exits pid) (.leaving b pid)
  | reaped (b pid : ℕ) : Handshake h (.leaving b pid) .reaped .free

/-! ## One region -/

/-- A backend that waits for the region that the server allocates to it. -/
inductive BackendPc.Pending : BackendPc → Prop
  | wait : Pending (.asking .wait)
  | read : Pending (.asking .read)
  | timedOut : Pending .timedOut

/-- A backend that holds a region, has no request in it and has not been answered in
`freeBuffer`. -/
inductive HoldPc.AtRest : HoldPc → Prop
  | getReset : AtRest .getReset
  | getUnlock : AtRest .getUnlock
  | ctor : AtRest .ctor
  | ready : AtRest .ready
  | freeLock : AtRest .freeLock
  | freeLocked : AtRest .freeLocked
  | freeId : AtRest .freeId
  | freePost : AtRest .freePost
  | freeWait : AtRest .freeWait

/-- A backend that constructs its `TEEInvoker` or is between or in calls of `sendRequest`. -/
inductive HoldPc.Inside : HoldPc → Prop
  | ctor : Inside .ctor
  | ready : Inside .ready
  | serialize (q : Request) (ws : List (ℕ × List UInt8)) : Inside (.serialize q ws)
  | waitDone (q : Request) : Inside (.waitDone q)
  | copy (q : Request) : Inside (.copy q)
  | readResp (q : Request) : Inside (.readResp q)
  | reset : Inside .reset

/-- A child that polls. -/
inductive ChildPc.Idle : ChildPc h → Prop
  | poll : Idle .poll
  | poll2 : Idle .poll2

/-- The status word and the bytes of a region `r` in a phase, with the program counter of its owner,
while its child polls. -/
inductive IdleRow (r : Region) (granted : Option Region) :
    Phase → ReqStatus → Mem → BackendPc → Prop
  | pending {b pid : ℕ} {m : Mem} {pc : BackendPc} :
      pc.Pending → granted = some r → IdleRow r granted (.owned b pid) .none m pc
  | held {b pid : ℕ} {m : Mem} {p : HoldPc} :
      p.AtRest → IdleRow r granted (.owned b pid) .none m (.holding r p)
  | reset {b pid : ℕ} {m : Mem} : IdleRow r granted (.owned b pid) .done m (.holding r .reset)
  | serialize {b pid : ℕ} {q : Request} {m₀ m : Mem} {ws : List (ℕ × List UInt8)} :
      m.writeAll ws = q.serializeTo m₀ →
      IdleRow r granted (.preparing b pid q m₀) .none m (.holding r (.serialize q ws))
  | sent {b pid : ℕ} {q : Request} {m : Mem} :
      q.In m → IdleRow r granted (.sent b pid q m) .sent m (.holding r (.waitDone q))
  | done {b pid : ℕ} {q : Request} {m : Mem} :
      IdleRow r granted (.finished b pid q m) .done m (.holding r (.waitDone q))
  | copying {b pid : ℕ} {q : Request} {m : Mem} :
      IdleRow r granted (.finished b pid q m) .done m (.holding r (.copy q))
  | copied {b pid : ℕ} {q : Request} {m : Mem} :
      IdleRow r granted (.copied b pid q m) .done m (.holding r (.readResp q))
  | exiting {b pid : ℕ} {m : Mem} :
      IdleRow r granted (.exiting b pid) .exit m (.holding r .freeWait)

/-- The same with the program counter of the child. -/
inductive Row (r : Region) (granted : Option Region) :
    Phase → ReqStatus → Mem → BackendPc → ChildPc h → Prop
  | idle {φ : Phase} {st : ReqStatus} {m : Mem} {pc : BackendPc} {c : ChildPc h} :
      IdleRow r granted φ st m pc → c.Idle → Row r granted φ st m pc c
  | received {b pid : ℕ} {q : Request} {m : Mem} :
      q.In m → Row r granted (.sent b pid q m) .sent m (.holding r (.waitDone q)) .check
  | handling {b pid : ℕ} {q : Request} {m₀ m : Mem} {l : h.Local} :
      h.At m₀ l m →
      Row r granted (.handling b pid q m₀) .sent m (.holding r (.waitDone q)) (.handling l)
  | answered {b pid : ℕ} {q : Request} {m : Mem} :
      Row r granted (.finished b pid q m) .sent m (.holding r (.waitDone q)) .post
  | leaving {b pid : ℕ} {m : Mem} :
      Row r granted (.leaving b pid) .exit m (.holding r .freeWait) .exiting
  | cleared {b pid : ℕ} {m : Mem} :
      Row r granted (.leaving b pid) .none m (.holding r .freeWait) .leaving
  | exited {b pid : ℕ} {m : Mem} :
      Row r granted (.leaving b pid) .none m (.holding r .freeWait) .exited

/-- A region that is allocated to `b` and served by `pid` is as its phase says. -/
structure Served (s : State h) (r : Region) (φ : Phase) (b pid : ℕ) : Prop where
  isPid : s.childPids r = pid
  row : ∃ c, s.children pid = some ⟨r, c⟩ ∧
    Row r s.granted φ (s.regions r).status (s.regions r).mem (s.backends b) c

/-- The region is as its phase says. -/
def RegionInv (s : State h) (r : Region) (φ : Phase) : Prop :=
  match φ.role with
  | .free => (s.regions r).status = .none
  | .owned b pid => Served s r φ b pid
  | .closing b pid => Served s r φ b pid

/-! ## The header -/

/-- A backend that has the lock, or that ended without releasing it. -/
def BackendPc.Critical : BackendPc → Prop
  | .asking _ => True
  | .holding _ p =>
    match p with
    | .getReset | .getUnlock | .freeLocked | .freeId | .freePost | .freeWait | .freeReset
    | .freeUnlock => True
    | _ => False
  | .timedOut => True
  | .aborted => True
  | .init => False
  | .gone => False

/-- A backend that has freed its region. -/
inductive HoldPc.Released : HoldPc → Prop
  | freeWait : Released .freeWait
  | freeReset : Released .freeReset
  | freeUnlock : Released .freeUnlock

/-- The server polls. -/
def ServerPc.Idle (pc : ServerPc) : Prop := pc = .poll ∨ pc = .poll2

/-- The server has not yet allocated a region for the current `SHM_GET`. -/
inductive Searching (bitmap : BitVec 32) (retId : Region) (ρ : Region → Role) : ServerPc → Prop
  | poll : Searching bitmap retId ρ .poll
  | poll2 : Searching bitmap retId ρ .poll2
  | scan (i : ℕ) : (∀ r : Region, r < i → HasBit bitmap r) → Searching bitmap retId ρ (.scan i)
  | setBit (r : Region) : ρ r = .free → Searching bitmap retId ρ (.setBit r)
  | setRet (r : Region) : ρ r = .free → Searching bitmap retId ρ (.setRet r)
  | fork : ρ retId = .free → Searching bitmap retId ρ (.fork retId)

/-- The server frees region `r` of backend `b`. -/
inductive Freeing (ρ : Region → Role) (b : ℕ) (r : Region) : ServerPc → Prop
  | poll (pid : ℕ) : ρ r = .owned b pid → Freeing ρ b r .poll
  | poll2 (pid : ℕ) : ρ r = .owned b pid → Freeing ρ b r .poll2
  | freeRead (pid : ℕ) : ρ r = .owned b pid → Freeing ρ b r .freeRead
  | freeExit (pid : ℕ) : ρ r = .owned b pid → Freeing ρ b r (.freeExit r)
  | freeAssert (pid : ℕ) : ρ r = .closing b pid → Freeing ρ b r (.freeAssert r)
  | freeClear (pid : ℕ) : ρ r = .closing b pid → Freeing ρ b r (.freeClear r)
  | freeWait (pid : ℕ) : ρ r = .closing b pid → Freeing ρ b r (.freeWait r)
  | setDone : ρ r = .free → Freeing ρ b r .setDone

/-- The answer to the `SHM_GET` of backend `b`: the region that `ret_id` names has been allocated to
it, or there was no free region, and `ret_id` is what it was. -/
def Answer (s : State h) (ρ : Region → Role) (b : ℕ) : Prop :=
  (s.granted = some s.retId ∧ ∃ pid, ρ s.retId = .owned b pid) ∨
    (s.granted = none ∧ ∀ r, ρ r ≠ .free)

/-- No request to the server is under way. -/
def State.Quiet (s : State h) : Prop := s.status = .none ∧ s.server.Idle

/-- The server has not answered the `SHM_GET` of backend `b`. -/
def Asked (s : State h) (ρ : Region → Role) (b : ℕ) : Prop :=
  s.status = .get ∧
    (s.granted = none ∧ Searching s.bitmap s.retId ρ s.server ∨ s.server = .setDone ∧ Answer s ρ b)

/-- The server has answered it. -/
def Answered (s : State h) (ρ : Region → Role) (b : ℕ) : Prop :=
  s.status = .done ∧ s.server.Idle ∧ Answer s ρ b

/-- The server has freed region `r`. -/
def Freed (s : State h) (ρ : Region → Role) (r : Region) : Prop :=
  s.status = .done ∧ s.server.Idle ∧ ρ r = .free

/-- Where the status and the server stand, by the program counter of the backend `b` that has the
lock. -/
def Holder (s : State h) (ρ : Region → Role) (b : ℕ) : BackendPc → Prop
  | .asking .locked => s.Quiet
  | .asking .post => s.Quiet
  | .asking .wait => Asked s ρ b ∨ Answered s ρ b
  | .timedOut => Asked s ρ b ∨ Answered s ρ b
  | .asking .read => Answered s ρ b
  | .holding r p =>
    match p with
    | .getReset => s.status = .done ∧ s.server.Idle
    | .getUnlock => s.Quiet
    | .freeLocked => s.Quiet
    | .freeId => s.Quiet
    | .freePost => s.Quiet ∧ s.freeId = r
    | .freeWait => s.status = .free ∧ s.freeId = r ∧ Freeing ρ b r s.server ∨ Freed s ρ r
    | .freeReset => Freed s ρ r
    | .freeUnlock => s.Quiet
    | _ => False
  | _ => False

/-- Where the status and the server stand. -/
def Stage (s : State h) (ρ : Region → Role) : Prop :=
  match s.lock with
  | none => s.Quiet
  | some b => Holder s ρ b (s.backends b)

/-- What holds of the header and the processes. -/
structure Control (s : State h) (ρ : Region → Role) : Prop where
  critical : ∀ b, (s.backends b).Critical ↔ s.lock = some b
  stage : Stage s ρ
  bits : ∀ r, HasBit s.bitmap r ↔
    (ρ r ≠ .free ∧ s.server ≠ .freeWait r) ∨ s.server = .setRet r ∨ s.server = .fork r
  children : ∀ pid c, s.children pid = some c → (ρ c.region).child = some pid
  fresh : ∀ pid, s.nextPid ≤ pid → s.children pid = none
  holds : ∀ b r p, s.backends b = .holding r p →
    (ρ r).owner = some b ∨ (ρ r = .free ∧ p.Released)

/-- **The invariant**, for the phases `ph` of the regions. -/
structure Inv (s : State h) (ph : Region → Phase) : Prop where
  control : Control s fun r => (ph r).role
  regions : ∀ r, RegionInv s r (ph r)
  log : ∀ r, Follows (Handshake h) .free (s.events r) (ph r)

end SharedMemory

end HEDB
