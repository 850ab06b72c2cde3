import HEDB.SharedMemory.Forks
import HEDB.SharedMemory.Processes

/-!
# The books of the server

The server keeps its books on the regions in three places: the bitmap, the array `child_pids` and
the processes that it has forked. They are changed by separate steps, in the order in which clients
post `SHM_GET` and `SHM_FREE`, and with the `free_id` that a client has written.

Only the server changes them, so they agree whatever the clients do (`Table.server`, `Table.child`):
at the points between the steps of a branch `Occupied` says which regions have a child, and at all
other points the bitmap does. Of a client it is assumed that it writes no `EXIT` into a region
(`ClientMove`). It may post any request at any time, with any region; the backends of the model do
no more than that (`clientMove_backendStep`).
-/

namespace HEDB

namespace SharedMemory

variable {h : Handler} {s s' : State h}

/-! ## What clients may do -/

/-- A step of some client: the data of the server is as before, and so is the bitmap, and no `EXIT`
has been written into a region. -/
structure ClientMove (s s' : State h) : Prop where
  bitmap : s'.bitmap = s.bitmap
  childPids : s'.childPids = s.childPids
  server : s'.server = s.server
  children : s'.children = s.children
  nextPid : s'.nextPid = s.nextPid
  exit : ∀ r, (s'.regions r).status = .exit → (s.regions r).status = .exit

/-- A step of the server, of a child, of a backend, or of any other client, and whether it is a fork
that fails. -/
inductive Forking.Move (f : Forking h) : (failed : Prop) → Forking h → Prop
  | step (x : Kernel × Label) : Move f (f.Fails x) (f.step x)
  | client (s' : State h) : ClientMove f.state s' → Move f False ⟨s', f.unforked⟩

theorem status_setStatus (s : State h) (r r' : Region) (st : ReqStatus) :
    ((s.setStatus r st).regions r').status = if r' = r then st else (s.regions r').status := by
  simp only [State.setStatus, Function.update_apply]
  split <;> rfl

theorem status_setMem (s : State h) (r r' : Region) (m : Mem) :
    ((s.setMem r m).regions r').status = (s.regions r').status := by
  simp only [State.setMem, Function.update_apply]
  split
  · subst r'
    rfl
  · rfl

theorem exit_of_setStatus {r r' : Region} {st : ReqStatus} (hst : st ≠ .exit)
    (hexit : ((s.setStatus r st).regions r').status = .exit) :
    r' ≠ r ∧ (s.regions r').status = .exit := by
  rw [status_setStatus] at hexit
  split at hexit
  · exact absurd hexit hst
  · exact ⟨‹_›, hexit⟩

/-- **The backends are clients.** -/
theorem clientMove_backendStep (s : State h) (b : ℕ) (c : Choice) :
    ClientMove s (backendStep s b c) := by
  unfold backendStep
  cases s.backends b with
  | init => dsimp only; split <;> exact ⟨rfl, rfl, rfl, rfl, rfl, fun _ => id⟩
  | asking p =>
    cases p with
    | locked => dsimp only [askStep]; split <;> exact ⟨rfl, rfl, rfl, rfl, rfl, fun _ => id⟩
    | wait =>
      dsimp only [askStep]
      repeat' split
      all_goals exact ⟨rfl, rfl, rfl, rfl, rfl, fun _ => id⟩
    | post | read => exact ⟨rfl, rfl, rfl, rfl, rfl, fun _ => id⟩
  | holding r p =>
    cases p with
    | ctor | reset =>
      exact ⟨rfl, rfl, rfl, rfl, rfl, fun _ he => (exit_of_setStatus (by decide) he).2⟩
    | ready => cases c <;> exact ⟨rfl, rfl, rfl, rfl, rfl, fun _ => id⟩
    | serialize q ws =>
      cases ws with
      | nil => exact ⟨rfl, rfl, rfl, rfl, rfl, fun _ he => (exit_of_setStatus (by decide) he).2⟩
      | cons w ws => exact ⟨rfl, rfl, rfl, rfl, rfl, fun _ he => status_setMem s r _ _ ▸ he⟩
    | waitDone | freeLock | freeLocked | freeWait =>
      dsimp only [holdStep]
      split <;> exact ⟨rfl, rfl, rfl, rfl, rfl, fun _ => id⟩
    | getReset | getUnlock | copy | readResp | freeId | freePost | freeReset | freeUnlock =>
      exact ⟨rfl, rfl, rfl, rfl, rfl, fun _ => id⟩
  | gone | timedOut | aborted => exact ⟨rfl, rfl, rfl, rfl, rfl, fun _ => id⟩

/-! ## The table of processes -/

/-- The region has a child: its bit is set, and is not that of a region for which the child has not
been forked yet; or the server has cleared the bit and waits for the child. -/
def Occupied (bitmap : BitVec 32) (pc : ServerPc) (r : Region) : Prop :=
  HasBit bitmap r ∧ pc ≠ .setRet r ∧ pc ≠ .fork r ∨ pc = .freeWait r

/-- What the server knows of the bit of the region that it is at. -/
def ServerPc.Knows (bitmap : BitVec 32) : ServerPc → Prop
  | .setBit r => ¬ HasBit bitmap r
  | .setRet r => HasBit bitmap r
  | .fork r => HasBit bitmap r
  | .freeClear r => HasBit bitmap r
  | .freeWait r => ¬ HasBit bitmap r
  | _ => True

/-- The region that a process serves. -/
def State.serves (s : State h) (pid : ℕ) : Option Region := (s.children pid).map Child.region

/-- The books of the server agree. -/
structure Table (s : State h) : Prop where
  knows : s.server.Knows s.bitmap
  child_iff : ∀ r, Occupied s.bitmap s.server r ↔ s.serves (s.childPids r) = some r
  pid_eq : ∀ pid r, s.serves pid = some r → pid = s.childPids r
  fresh : ∀ pid, s.nextPid ≤ pid → s.serves pid = none

theorem Table.congr (ht : Table s) (hbitmap : s'.bitmap = s.bitmap) (hserver : s'.server = s.server)
    (hpids : s'.childPids = s.childPids) (hnext : s'.nextPid = s.nextPid)
    (hserves : s'.serves = s.serves) : Table s' := by
  obtain ⟨hknows, hchild, hpid, hfresh⟩ := ht
  constructor
  · rwa [hserver, hbitmap]
  · rwa [hserver, hbitmap, hpids, hserves]
  · rwa [hserves, hpids]
  · rwa [hnext, hserves]

/-- A point at which the bitmap says what is served. -/
def ServerPc.Settled (pc : ServerPc) : Prop :=
  ∀ r, pc ≠ .setRet r ∧ pc ≠ .fork r ∧ pc ≠ .freeWait r

theorem occupied_of_settled {bitmap : BitVec 32} {pc : ServerPc} (hpc : pc.Settled) (r : Region) :
    Occupied bitmap pc r ↔ HasBit bitmap r := by
  simp [Occupied, hpc r]

/-- The server goes on and the bitmap says the same. -/
theorem Table.goto (ht : Table s) (hserves : s'.serves = s.serves)
    (hpids : s'.childPids = s.childPids)
    (hnext : s'.nextPid = s.nextPid) (hknows : s'.server.Knows s'.bitmap)
    (hocc : ∀ r, Occupied s'.bitmap s'.server r ↔ Occupied s.bitmap s.server r) : Table s' := by
  refine ⟨hknows, fun r => ?_, ?_, ?_⟩
  · rw [hocc, ht.child_iff, hserves, hpids]
  · rw [hserves, hpids]
    exact ht.pid_eq
  · rw [hnext, hserves]
    exact ht.fresh

/-- The server goes on from one such point to another. -/
theorem Table.settled (ht : Table s) (hpc : s.server.Settled) (hpc' : s'.server.Settled)
    (hserves : s'.serves = s.serves) (hpids : s'.childPids = s.childPids)
    (hnext : s'.nextPid = s.nextPid) (hbitmap : s'.bitmap = s.bitmap)
    (hknows : s'.server.Knows s.bitmap) : Table s' := by
  refine ht.goto hserves hpids hnext (hbitmap ▸ hknows) fun r => ?_
  rw [occupied_of_settled hpc, occupied_of_settled hpc', hbitmap]

theorem serves_update (s : State h) (pid : ℕ) (o : Option (Child h)) (pid' : ℕ) :
    (Function.update s.children pid o pid').map Child.region =
      if pid' = pid then o.map Child.region else s.serves pid' := by
  rw [Function.update_apply]
  split <;> rfl

/-- The server forks. -/
theorem Table.fork (ht : Table s) {r : Region} (hpc : s.server = .fork r) :
    Table (serverStep s) := by
  obtain ⟨hknows, hchild, hpid, hfresh⟩ := ht
  rw [hpc] at hknows hchild
  have hnone : s.serves (s.childPids r) ≠ some r := by
    rw [ne_eq, ← hchild]
    simp [Occupied]
  have hserves (pid : ℕ) : (serverStep s).serves pid =
      if pid = s.nextPid then some r else s.serves pid := by
    simp only [serverStep, hpc]
    exact serves_update s _ _ pid
  have hpids (r' : Region) : (serverStep s).childPids r' =
      if r' = r then s.nextPid else s.childPids r' := by
    simp only [serverStep, hpc]
    exact Function.update_apply ..
  have hserver : (serverStep s).server = .setDone := by
    simp only [serverStep, hpc]
    rfl
  have hbitmap : (serverStep s).bitmap = s.bitmap := by
    simp only [serverStep, hpc]
    rfl
  have hnext : (serverStep s).nextPid = s.nextPid + 1 := by
    simp only [serverStep, hpc]
    rfl
  refine ⟨by rw [hserver]; trivial, fun r' => ?_, fun pid r' hr' => ?_, fun pid hle => ?_⟩
  · rw [hserver, hbitmap, occupied_of_settled (by simp [ServerPc.Settled]), hpids, hserves]
    by_cases hr : r' = r
    · subst hr
      rw [if_pos rfl, if_pos rfl]
      exact iff_of_true hknows rfl
    · have hold : HasBit s.bitmap r' ↔ s.serves (s.childPids r') = some r' := by
        rw [← hchild]
        simp [Occupied, Ne.symm hr]
      rw [if_neg hr, hold]
      split
      · rename_i heq
        rw [heq, hfresh _ le_rfl]
        exact iff_of_false (by simp) (by simpa using Ne.symm hr)
      · rfl
  · rw [hserves] at hr'
    rw [hpids]
    split at hr'
    · rw [if_pos (Option.some.inj hr').symm]
      assumption
    · obtain rfl := hpid pid r' hr'
      rw [if_neg]
      rintro rfl
      exact hnone hr'
  · rw [hnext] at hle
    rw [hserves, if_neg (by omega)]
    exact hfresh pid (by omega)

/-- A step of the server that waits for a child: the child is there, and it is reaped once it has
exited. -/
theorem Table.freeWait_step (ht : Table s) {r : Region} (hpc : s.server = .freeWait r) :
    ∃ c, s.children (s.childPids r) = some ⟨r, c⟩ ∧
      (c ≠ .exited ∧ serverStep s = s ∨
        c = .exited ∧ serverStep s = { s with
          children := Function.update s.children (s.childPids r) none
          server := .setDone }.log r .reaped) := by
  obtain ⟨⟨r', c⟩, hc, rfl⟩ := Option.map_eq_some_iff.mp ((ht.child_iff r).mp (.inr hpc))
  refine ⟨c, hc, ?_⟩
  simp only [serverStep, hpc, hc]
  cases c with
  | exited => exact .inr ⟨rfl, rfl⟩
  | _ => exact .inl ⟨nofun, rfl⟩

/-- The server has waited for a child. -/
theorem Table.freeWait (ht : Table s) {r : Region} (hpc : s.server = .freeWait r) :
    Table (serverStep s) := by
  obtain ⟨c, hc, ⟨-, hs⟩ | ⟨-, hs⟩⟩ := ht.freeWait_step hpc
  · rwa [hs]
  obtain ⟨hknows, hchild, hpid, hfresh⟩ := ht
  have hold : s.serves (s.childPids r) = some r := by rw [State.serves, hc, Option.map_some]
  rw [hpc] at hknows hchild
  have hserves (pid : ℕ) : (serverStep s).serves pid =
      if pid = s.childPids r then none else s.serves pid := by
    rw [hs]
    exact serves_update s _ _ pid
  have hpids : (serverStep s).childPids = s.childPids := by rw [hs]; rfl
  have hserver : (serverStep s).server = .setDone := by rw [hs]; rfl
  have hbitmap : (serverStep s).bitmap = s.bitmap := by rw [hs]; rfl
  have hnext : (serverStep s).nextPid = s.nextPid := by rw [hs]; rfl
  refine ⟨by rw [hserver]; trivial, fun r' => ?_, fun pid r' hr' => ?_, fun pid hle => ?_⟩
  · rw [hserver, hbitmap, occupied_of_settled (by simp [ServerPc.Settled]), hpids, hserves]
    by_cases hr : r' = r
    · subst hr
      rw [if_pos rfl]
      exact iff_of_false hknows (by simp)
    · have hold' : HasBit s.bitmap r' ↔ s.serves (s.childPids r') = some r' := by
        rw [← hchild]
        simp [Occupied, Ne.symm hr]
      rw [hold']
      split
      · rename_i heq
        rw [heq, hold]
        exact iff_of_false (by simpa using Ne.symm hr) (by simp)
      · rfl
  · rw [hserves] at hr'
    rw [hpids]
    split at hr'
    · cases hr'
    · exact hpid pid r' hr'
  · rw [hnext] at hle
    rw [hserves]
    split
    · rfl
    · exact hfresh pid hle

/-- **The steps of the server keep its books.** -/
theorem Table.server (ht : Table s) : Table (serverStep s) := by
  have hknows := ht.knows
  cases hpc : s.server with
  | fork r => exact ht.fork hpc
  | freeWait r => exact ht.freeWait hpc
  | setBit r =>
    rw [hpc] at hknows
    change ¬ HasBit s.bitmap r at hknows
    simp only [serverStep, hpc]
    refine ht.goto rfl rfl rfl ((hasBit_setBit ..).mpr (.inl rfl)) fun r' => ?_
    have hold : Occupied s.bitmap (.setBit r) r' ↔ HasBit s.bitmap r' :=
      occupied_of_settled (by simp [ServerPc.Settled]) r'
    rw [hpc, hold]
    by_cases hr : r' = r
    · subst hr
      simp [Occupied, hknows]
    · simp [Occupied, hasBit_setBit, hr, Ne.symm hr]
  | setRet r =>
    rw [hpc] at hknows
    simp only [serverStep, hpc]
    refine ht.goto rfl rfl rfl hknows fun r' => ?_
    rw [hpc]
    simp [Occupied]
  | freeClear r =>
    rw [hpc] at hknows
    change HasBit s.bitmap r at hknows
    simp only [serverStep, hpc]
    refine ht.goto rfl rfl rfl (by simp [ServerPc.Knows, hasBit_clearBit]) fun r' => ?_
    have hold : Occupied s.bitmap (.freeClear r) r' ↔ HasBit s.bitmap r' :=
      occupied_of_settled (by simp [ServerPc.Settled]) r'
    rw [hpc, hold]
    by_cases hr : r' = r
    · subst hr
      simp [Occupied, hknows]
    · simp [Occupied, hasBit_clearBit, hr, Ne.symm hr]
  | scan i =>
    simp only [serverStep, hpc]
    split
    · refine ht.settled (by simp [hpc, ServerPc.Settled]) ?_ rfl rfl rfl rfl ?_
      · dsimp only; split <;> simp [ServerPc.Settled]
      · dsimp only
        split
        · exact (getBit_eq_zero ..).mp ‹_›
        · trivial
    · exact ht.settled (by simp [hpc, ServerPc.Settled])
        (by simp [ServerPc.Settled]) rfl rfl rfl rfl trivial
  | freeAssert r =>
    simp only [serverStep, hpc]
    refine ht.settled (by simp [hpc, ServerPc.Settled]) ?_ rfl rfl rfl rfl ?_
    · dsimp only; split <;> simp [ServerPc.Settled]
    · dsimp only
      split
      · exact (getBit_eq_one ..).mp ‹_›
      · trivial
  | poll | poll2 =>
    simp only [serverStep, hpc]
    refine ht.settled (by simp [hpc, ServerPc.Settled]) ?_ rfl rfl rfl rfl ?_
    · dsimp only; split <;> simp [ServerPc.Settled]
    · dsimp only; split <;> trivial
  | setDone | freeRead | freeExit r =>
    simp only [serverStep, hpc]
    exact ht.settled (by simp [hpc, ServerPc.Settled])
      (fun r => ⟨nofun, nofun, nofun⟩) rfl rfl rfl rfl
      trivial
  | aborted => simpa only [serverStep, hpc] using ht

/-- A child goes on. -/
theorem serves_childGoto {pid : ℕ} {r : Region} {c : ChildPc h}
    (hc : s.children pid = some ⟨r, c⟩) (c' : ChildPc h) :
    (s.childGoto pid r c').serves = s.serves := by
  funext pid'
  rw [State.serves, State.childGoto, serves_update]
  split
  · rename_i heq
    rw [heq, State.serves, hc]
    rfl
  · rfl

theorem serves_childStep (s : State h) (pid seed : ℕ) :
    (childStep s pid seed).serves = s.serves := by
  unfold childStep
  cases hc : s.children pid with
  | none => rfl
  | some child =>
    obtain ⟨r, c⟩ := child
    have hgoto {s' : State h} (c' : ChildPc h)
        (hchildren : s'.children = Function.update s.children pid (some ⟨r, c'⟩)) :
        s'.serves = s.serves := by
      rw [← serves_childGoto hc c']
      funext pid'
      rw [State.serves, hchildren]
      rfl
    cases c with
    | poll | poll2 | check | handling l =>
      simp only [childRun]
      split <;> exact hgoto _ rfl
    | post | exiting | leaving => exact hgoto _ rfl
    | exited => rfl

theorem Table.child (ht : Table s) (pid seed : ℕ) : Table (childStep s pid seed) := by
  have hserves := serves_childStep s pid seed
  obtain ⟨rs, es, c, heq, -⟩ := childStep_eq s pid seed
  rw [heq] at hserves ⊢
  exact ht.congr rfl rfl rfl rfl hserves

end SharedMemory

end HEDB
