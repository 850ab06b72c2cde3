import HEDB.SharedMemory.Ledger
import HEDB.SharedMemory.Exclusivity

/-!
# Bits and children

When the server is not in one of its branches, the bit of a region is set exactly when one live
child serves the region, and `child_pids` has the pid of this child. This holds in every run in
which no fork fails, with any number of clients, also of clients that free a region twice or free
the region of another one: the server stops at the assertion, or frees the region of its present
owner. After the first fork that fails the server comes back to its loop with a bit that is set for
a region without a child (`corresponds_iff`).

The table of processes is as the bitmap says (`Table`). It remains to see that a child exits only
while the server waits for it (`Exits`). `EXIT` is written by the server alone, and it is gone from
the region when the child has exited. A child that never sees the `EXIT`, because a client has
written over it, keeps the server in its branch.
-/

namespace HEDB

namespace SharedMemory

variable {h : Handler} {s s' : State h}

/-! ## Exits -/

/-- The server has told the child of a region to exit, or it has stopped. -/
def ServerPc.Closing (pc : ServerPc) (r : Region) : Prop :=
  pc = .freeAssert r ∨ pc = .freeClear r ∨ pc = .freeWait r ∨ pc = .aborted

/-- A child that has cleared its status word. -/
inductive ChildPc.Left : ChildPc h → Prop
  | leaving : Left .leaving
  | exited : Left .exited

/-- A child that has been told to exit. -/
inductive ChildPc.Ending : ChildPc h → Prop
  | exiting : Ending .exiting
  | left {c : ChildPc h} : c.Left → Ending c

/-- Children exit when the server waits for them, and `EXIT` does not stay behind. -/
structure Exits (s : State h) : Prop where
  told : ∀ r, (s.regions r).status = .exit → s.server.Closing r
  ending : ∀ pid r c, s.children pid = some ⟨r, c⟩ → c.Ending → s.server.Closing r
  cleared : ∀ pid r c, s.children pid = some ⟨r, c⟩ → c.Left → (s.regions r).status ≠ .exit

/-- A step that leaves the children alone and writes no `EXIT`. -/
theorem Exits.of_regions (he : Exits s) (hchildren : s'.children = s.children)
    (hexit : ∀ r, (s'.regions r).status = .exit → (s.regions r).status = .exit)
    (hserver : ∀ r, s.server.Closing r → s'.server.Closing r) : Exits s' where
  told r hr := hserver r (he.told r (hexit r hr))
  ending pid r c hc hend := hserver r (he.ending pid r c (hchildren ▸ hc) hend)
  cleared pid r c hc hleft hr := he.cleared pid r c (hchildren ▸ hc) hleft (hexit r hr)

/-- The server tells a child to exit. -/
theorem Exits.freeExit (he : Exits s) {r : Region} (hpc : s.server = .freeExit r) :
    Exits (serverStep s) := by
  have hno (r' : Region) : ¬ s.server.Closing r' := by simp [hpc, ServerPc.Closing]
  simp only [serverStep, hpc]
  refine ⟨fun r' hr' => ?_, fun pid r' c hc hend => ?_, fun pid r' c hc hleft => ?_⟩
  · by_cases hr : r' = r
    · exact .inl (hr ▸ rfl)
    · have hold : (s.regions r').status = .exit := by
        rw [← hr']
        exact ((status_setStatus _ r r' .exit).trans (if_neg hr)).symm
      exact absurd (he.told r' hold) (hno r')
  · exact absurd (he.ending pid r' c hc hend) (hno r')
  · exact absurd (he.ending pid r' c hc (.left hleft)) (hno r')

/-- The server reaps a child. -/
theorem Exits.freeWait (he : Exits s) (ht : Table s) {r : Region} (hpc : s.server = .freeWait r) :
    Exits (serverStep s) := by
  obtain ⟨c, hc, ⟨-, hs⟩ | ⟨rfl, hs⟩⟩ := ht.freeWait_step hpc
  · rwa [hs]
  have hclosing (r' : Region) (h' : s.server.Closing r') : r' = r := by
    rw [hpc] at h'
    rcases h' with h' | h' | h' | h' <;> cases h'
    rfl
  have hgone (pid : ℕ) (r' : Region) (c' : ChildPc h)
      (hc' : (serverStep s).children pid = some ⟨r', c'⟩) :
      s.children pid = some ⟨r', c'⟩ ∧ ¬ c'.Ending := by
    rw [hs] at hc'
    change Function.update s.children (s.childPids r) none pid = _ at hc'
    rw [Function.update_apply] at hc'
    split at hc'
    · cases hc'
    · rename_i hne
      refine ⟨hc', fun hend => hne ?_⟩
      obtain rfl := hclosing r' (he.ending pid r' c' hc' hend)
      exact ht.pid_eq pid r' (by rw [State.serves, hc']; rfl)
  have hstatus (r' : Region) : ((serverStep s).regions r').status ≠ .exit := by
    rw [hs]
    intro hexit
    obtain rfl := hclosing r' (he.told r' hexit)
    exact he.cleared _ _ _ hc .exited hexit
  refine ⟨fun r' hr' => absurd hr' (hstatus r'), fun pid r' c' hc' hend => ?_, ?_⟩
  · exact absurd hend (hgone pid r' c' hc').2
  · exact fun _ r' _ _ _ => hstatus r'

/-- The server goes on. -/
theorem Exits.goto (he : Exits s) (hchildren : s'.children = s.children)
    (hregions : s'.regions = s.regions) (hserver : ∀ r, s.server.Closing r → s'.server.Closing r) :
    Exits s' :=
  he.of_regions hchildren (fun _ hr => hregions ▸ hr) hserver

/-- A new child polls. -/
theorem Exits.fork (he : Exits s) {r : Region} (hpc : s.server = .fork r) :
    Exits (serverStep s) := by
  have hno (r' : Region) : ¬ s.server.Closing r' := by simp [hpc, ServerPc.Closing]
  have hending (pid : ℕ) (r' : Region) (c : ChildPc h)
      (hc : (serverStep s).children pid = some ⟨r', c⟩) : ¬ c.Ending := by
    simp only [serverStep, hpc] at hc
    change Function.update s.children s.nextPid _ pid = _ at hc
    rw [Function.update_apply] at hc
    split at hc
    · cases hc
      rintro (_ | ⟨⟨⟩⟩)
    · exact fun hend => hno r' (he.ending pid r' c hc hend)
  refine ⟨fun r' hr' => ?_, fun pid r' c hc hend => ?_, fun pid r' c hc hleft => ?_⟩
  · simp only [serverStep, hpc] at hr'
    exact absurd (he.told r' hr') (hno r')
  · exact absurd hend (hending pid r' c hc)
  · exact absurd (.left hleft) (hending pid r' c hc)

theorem Exits.server (he : Exits s) (ht : Table s) : Exits (serverStep s) := by
  cases hpc : s.server with
  | freeExit r => exact he.freeExit hpc
  | freeWait r => exact he.freeWait ht hpc
  | fork r => exact he.fork hpc
  | freeAssert r =>
    simp only [serverStep, hpc]
    refine he.goto rfl rfl fun r' hr' => ?_
    simp only [hpc, ServerPc.Closing] at hr' ⊢
    split <;> simp_all
  | freeClear r =>
    simp only [serverStep, hpc]
    refine he.goto rfl rfl fun r' hr' => ?_
    simp only [hpc, ServerPc.Closing] at hr' ⊢
    simp_all
  | scan i =>
    simp only [serverStep, hpc]
    split <;> exact he.goto rfl rfl (by simp [hpc, ServerPc.Closing])
  | poll | poll2 | setBit | setRet | setDone | freeRead =>
    simp only [serverStep, hpc]
    exact he.goto rfl rfl (by simp [hpc, ServerPc.Closing])
  | aborted => simpa only [serverStep, hpc] using he

/-- One child goes on. -/
theorem Exits.childGoto (he : Exits s) {pid : ℕ} {r : Region} {c : ChildPc h}
    (hchildren : s'.children = Function.update s.children pid (some ⟨r, c⟩))
    (hserver : s'.server = s.server)
    (hexit : ∀ r, (s'.regions r).status = .exit → (s.regions r).status = .exit)
    (hend : c.Ending → s.server.Closing r) (hleft : c.Left → (s'.regions r).status ≠ .exit) :
    Exits s' := by
  refine ⟨fun r' hr' => ?_, fun pid' r' c' hc' hend' => ?_, fun pid' r' c' hc' hleft' => ?_⟩
  · rw [hserver]
    exact he.told r' (hexit r' hr')
  · rw [hserver]
    rw [hchildren, Function.update_apply] at hc'
    split at hc'
    · cases hc'
      exact hend hend'
    · exact he.ending pid' r' c' hc' hend'
  · rw [hchildren, Function.update_apply] at hc'
    split at hc'
    · cases hc'
      exact hleft hleft'
    · exact fun hr' => he.cleared pid' r' c' hc' hleft' (hexit r' hr')

theorem Exits.child (he : Exits s) (pid seed : ℕ) : Exits (childStep s pid seed) := by
  unfold childStep
  cases hc : s.children pid with
  | none => exact he
  | some child =>
    obtain ⟨r, c⟩ := child
    dsimp only
    -- A child that does not exit writes no `EXIT`.
    have hpolls {s' : State h} {c' : ChildPc h}
        (hchildren : s'.children = Function.update s.children pid (some ⟨r, c'⟩))
        (hserver : s'.server = s.server)
        (hexit : ∀ r, (s'.regions r).status = .exit → (s.regions r).status = .exit)
        (hc' : ¬ c'.Ending) : Exits s' :=
      he.childGoto hchildren hserver hexit (fun h' => absurd h' hc') fun h' => absurd (.left h') hc'
    cases c with
    | poll =>
      simp only [childRun]
      split
      · exact he.childGoto rfl rfl (fun _ => id) (fun _ => he.told r ‹_›) (by rintro ⟨⟩)
      · exact hpolls rfl rfl (fun _ => id) (by rintro (_ | ⟨⟨⟩⟩))
    | poll2 | check =>
      simp only [childRun]
      split <;> exact hpolls rfl rfl (fun _ => id) (by rintro (_ | ⟨⟨⟩⟩))
    | handling l =>
      simp only [childRun]
      split
      · exact hpolls rfl rfl (fun _ => id) (by rintro (_ | ⟨⟨⟩⟩))
      · exact hpolls rfl rfl (fun r' he' => status_setMem s r r' _ ▸ he') (by rintro (_ | ⟨⟨⟩⟩))
    | post =>
      exact hpolls rfl rfl (fun _ he' => (exit_of_setStatus (by decide) he').2)
        (by rintro (_ | ⟨⟨⟩⟩))
    | exiting =>
      refine he.childGoto rfl rfl (fun _ he' => (exit_of_setStatus (by decide) he').2)
        (fun _ => he.ending pid r _ hc .exiting) fun _ he' => ?_
      exact (exit_of_setStatus (by decide) he').1 rfl
    | leaving =>
      exact he.childGoto rfl rfl (fun _ => id) (fun _ => he.ending pid r _ hc (.left .leaving))
        fun _ => he.cleared pid r _ hc .leaving
    | exited => exact he

/-! ## The books agree -/

/-- What holds in every run. -/
structure Ledger (s : State h) : Prop where
  table : Table s
  exits : Exits s

theorem ledger_start (h : Handler) : Ledger (State.start h) where
  table := ⟨trivial, fun r => by simp [Occupied, State.start, HasBit, State.serves], nofun,
    fun _ _ => rfl⟩
  exits := ⟨nofun, nofun, nofun⟩

theorem Ledger.client (hl : Ledger s) (hm : ClientMove s s') : Ledger s' where
  table := hl.table.congr hm.bitmap hm.server hm.childPids hm.nextPid
    (by funext pid; rw [State.serves, hm.children]; rfl)
  exits := hl.exits.of_regions hm.children hm.exit fun r hr => by rwa [hm.server]

theorem Ledger.step (hl : Ledger s) (l : Label) : Ledger (SharedMemory.step s l) := by
  cases l with
  | server => exact ⟨hl.table.server, hl.exits.server hl.table⟩
  | child pid seed => exact ⟨hl.table.child pid seed, hl.exits.child pid seed⟩
  | backend b c => exact hl.client (clientMove_backendStep s b c)

/-- The process is a live child that serves the region. -/
def State.Serves (s : State h) (pid : ℕ) (r : Region) : Prop :=
  ∃ c, s.children pid = some ⟨r, c⟩ ∧ c ≠ .exited

/-- The bit of a region says whether a child serves it, which is then the only one and the one in
`child_pids`. -/
structure Corresponds (f : Forking h) (r : Region) : Prop where
  bit_iff : HasBit f.state.bitmap r ↔ ∃! pid, f.state.Serves pid r
  isPid : HasBit f.state.bitmap r → ∃ pid : ℕ, f.childPid r = pid ∧ f.state.Serves pid r
  clear : ¬ HasBit f.state.bitmap r → ∀ pid, ¬ f.state.Serves pid r

/-- The books, of a server whose forks have all succeeded. -/
structure Forking.Books (f : Forking h) : Prop where
  forked : f.unforked = fun _ => false
  ledger : Ledger f.state

namespace Forking

variable {f f' : Forking h} {r : Region} {p : Prop}

theorem Books.corresponds (hf : f.Books) (hidle : f.state.server.Idle) (r : Region) :
    Corresponds f r := by
  obtain ⟨s, u⟩ := f
  obtain ⟨rfl, ht, he⟩ := hf
  change Table s at ht
  change Exits s at he
  change s.server.Idle at hidle
  have hsettled : s.server.Settled := by rcases hidle with h' | h' <;> simp [h', ServerPc.Settled]
  have hbit : HasBit s.bitmap r ↔ s.serves (s.childPids r) = some r := by
    rw [← ht.child_iff, occupied_of_settled hsettled]
  have hlive (pid : ℕ) : s.Serves pid r ↔ s.serves pid = some r := by
    constructor
    · rintro ⟨c, hc, -⟩
      rw [State.serves, hc]
      rfl
    · intro hserves
      obtain ⟨⟨r', c⟩, hc, rfl⟩ := Option.map_eq_some_iff.mp hserves
      refine ⟨c, hc, ?_⟩
      rintro rfl
      have hclosing := he.ending pid _ _ hc (.left .exited)
      rcases hidle with h' | h' <;> simp [h', ServerPc.Closing] at hclosing
  refine ⟨?_, fun hb => ⟨s.childPids r, rfl, (hlive _).mpr (hbit.mp hb)⟩, fun hb pid hpid => ?_⟩
  · show HasBit s.bitmap r ↔ ∃! pid, s.Serves pid r
    rw [hbit]
    constructor
    · intro hserves
      exact ⟨_, (hlive _).mpr hserves, fun pid hpid => ht.pid_eq pid r ((hlive pid).mp hpid)⟩
    · rintro ⟨pid, hpid, -⟩
      have hserves := (hlive pid).mp hpid
      rwa [← ht.pid_eq pid r hserves]
  · have hserves := (hlive pid).mp hpid
    rw [ht.pid_eq pid r hserves] at hserves
    exact hb (hbit.mpr hserves)

/-- **Every move but a fork that fails keeps the books.** -/
theorem Books.move (hf : f.Books) (hm : f.Move p f') (hp : ¬ p) : f'.Books := by
  obtain ⟨s, u⟩ := f
  obtain ⟨rfl, hl⟩ := hf
  cases hm with
  | step x =>
    rw [step_of_not_fails s hp]
    exact ⟨rfl, hl.step x.2⟩
  | client s' hs' => exact ⟨rfl, hl.client hs'⟩

/-! ## A fork that fails -/

/-- The server is about to post `SHM_DONE` for a region that no child serves. -/
structure Unserved (f : Forking h) (r : Region) : Prop where
  server : f.state.server = .setDone
  bit : HasBit f.state.bitmap r
  unserved : ∀ pid, f.state.serves pid ≠ some r

/-- A fork that fails leaves its region without a child. -/
theorem Books.unserved_of_fails (hf : f.Books) (hm : f.Move p f') (hp : p) :
    ∃ r, f'.Unserved r := by
  cases hm with
  | client s' hs' => exact hp.elim
  | step x =>
  obtain ⟨r, hr, hstep⟩ := step_of_fails hp
  rw [hstep]
  obtain ⟨hknows, hchild, hpid, -⟩ := hf.ledger.table
  rw [hr] at hknows hchild
  refine ⟨r, rfl, hknows, fun pid hserves => ?_⟩
  have hocc : Occupied f.state.bitmap (.fork r) r := by
    rw [hchild, ← hpid pid r hserves]
    exact hserves
  simp [Occupied] at hocc

theorem Unserved.client (hu : f.Unserved r) {s' : State h} (hs' : ClientMove f.state s') :
    Unserved ⟨s', f.unforked⟩ r := by
  refine ⟨hs'.server.trans hu.server, ?_, fun pid => ?_⟩
  · show HasBit s'.bitmap r
    rw [hs'.bitmap]
    exact hu.bit
  · show s'.serves pid ≠ _
    rw [State.serves, hs'.children]
    exact hu.unserved pid

/-- The region stays without a child until the server is back in its loop. -/
theorem Unserved.move (hu : f.Unserved r) (hm : f.Move p f') :
    f'.Unserved r ∨ f'.state.server.Idle ∧ ¬ Corresponds f' r := by
  cases hm with
  | client s' hs' => exact .inl (hu.client hs')
  | step x =>
    obtain ⟨k, l⟩ := x
    cases l with
    | backend b c => exact .inl (hu.client (clientMove_backendStep f.state b c))
    | child pid seed =>
      have hserves := serves_childStep f.state pid seed
      obtain ⟨rs, es, c, heq, -⟩ := childStep_eq f.state pid seed
      simp only [step, SharedMemory.step]
      rw [heq] at hserves ⊢
      exact .inl ⟨hu.server, hu.bit, fun pid' => by rw [hserves]; exact hu.unserved pid'⟩
    | server =>
      have hstep : f.step (k, .server) =
          ⟨{ f.state with status := .done, server := .poll }, f.unforked⟩ := by
        simp only [step, serverStep, SharedMemory.serverStep, hu.server]
      rw [hstep]
      refine .inr ⟨.inl rfl, fun hc => ?_⟩
      obtain ⟨pid, -, c, hserves, -⟩ := hc.isPid hu.bit
      exact hu.unserved pid (congrArg (Option.map Child.region) hserves)

section Runs

variable {run : ℕ → Forking h} {fails : ℕ → Prop} {n : ℕ}

theorem books_of_run (h₀ : run 0 = start h) (hrun : ∀ i < n, (run i).Move (fails i) (run (i + 1)))
    (hfails : ∀ i < n, ¬ fails i) : (run n).Books := by
  induction n with
  | zero =>
    rw [h₀]
    exact ⟨rfl, ledger_start h⟩
  | succ n ih =>
    have hn := ih (fun i hi => hrun i (by omega)) fun i hi => hfails i (by omega)
    exact hn.move (hrun n (by omega)) (hfails n (by omega))

/-- The server comes back to its loop with a region that has no child. -/
theorem Unserved.exists_idle {i : ℕ} (hu : (run i).Unserved r) (hin : i ≤ n)
    (hrun : ∀ i < n, (run i).Move (fails i) (run (i + 1))) (hidle : (run n).state.server.Idle) :
    ∃ j ≤ n, (run j).state.server.Idle ∧ ¬ Corresponds (run j) r := by
  -- downwards from the end, at which the server is back in its loop
  induction hin using Nat.decreasingInduction with
  | self =>
    rw [hu.server] at hidle
    rcases hidle with h' | h' <;> cases h'
  | of_succ i hi ih =>
    rcases hu.move (hrun i hi) with hu' | hbad
    · exact ih hu'
    · exact ⟨i + 1, hi, hbad⟩

end Runs

end Forking

/-- **Bits and children correspond in the loop of the server exactly as long as no fork fails**,
whatever the clients do: in every run that ends in the loop of the server. -/
theorem corresponds_iff (run : ℕ → Forking h) (fails : ℕ → Prop) (n : ℕ)
    (h₀ : run 0 = Forking.start h) (hrun : ∀ i < n, (run i).Move (fails i) (run (i + 1)))
    (hidle : (run n).state.server.Idle) :
    (∀ i ≤ n, (run i).state.server.Idle → ∀ r, Corresponds (run i) r) ↔ ∀ i < n, ¬ fails i := by
  constructor
  · intro hall
    by_contra hsome
    push Not at hsome
    -- the first fork that fails
    classical
    obtain ⟨hn, hfail⟩ := Nat.find_spec hsome
    have hbefore : ∀ i < Nat.find hsome, ¬ fails i := fun i hi hf =>
      Nat.find_min hsome hi ⟨hi.trans hn, hf⟩
    generalize Nat.find hsome = i at hn hfail hbefore
    have hbooks := Forking.books_of_run h₀ (fun j hj => hrun j (hj.trans hn)) hbefore
    obtain ⟨r, hu⟩ := hbooks.unserved_of_fails (hrun i hn) hfail
    obtain ⟨j, hj, hjidle, hbad⟩ := hu.exists_idle hn hrun hidle
    exact hbad (hall j hj hjidle r)
  · intro hno i hi hi_idle r
    have hbooks := Forking.books_of_run (n := i) h₀ (fun j hj => hrun j (by omega)) fun j hj =>
      hno j (by omega)
    exact hbooks.corresponds hi_idle r

/-- A backend connects. -/
def connecting : List Label :=
  [.backend 0 .go, .backend 0 .go, .backend 0 .go, .server, .server, .server, .server, .server,
    .server]

/-- A backend connects, and all forks succeed or all fail. -/
def connectingRun (forks : Bool) : ℕ → Forking .idle :=
  trace Forking.step (Forking.start .idle) fun i => (⟨forks, 0⟩, connecting.getD i .server)

theorem move_connectingRun (forks : Bool) (i : ℕ) :
    (connectingRun forks i).Move
      ((connectingRun forks i).Fails (⟨forks, 0⟩, connecting.getD i .server))
      (connectingRun forks (i + 1)) :=
  .step _

theorem corresponds_connecting : HasBit (connectingRun true 9).state.bitmap firstRegion ∧
    Corresponds (connectingRun true 9) firstRegion := by
  have hiff := corresponds_iff (connectingRun true) _ 9 rfl (fun i _ => move_connectingRun true i)
    (.inl rfl)
  exact ⟨rfl, hiff.mpr (fun _ _ => Forking.not_fails_of_forks rfl) 9 le_rfl (.inl rfl) _⟩

/-- **A fork that fails leaves a bit that is set without a child**, and `-1` in `child_pids`. -/
theorem unserved_connecting : (connectingRun false 9).state.server = .poll ∧
    HasBit (connectingRun false 9).state.bitmap firstRegion ∧
    (connectingRun false 9).childPid firstRegion = -1 ∧
    (∀ pid r, ¬ (connectingRun false 9).state.Serves pid r) ∧
    ¬ Corresponds (connectingRun false 9) firstRegion := by
  have hnone : ∀ pid r, ¬ (connectingRun false 9).state.Serves pid r := by
    rintro pid r ⟨c, hc, -⟩
    cases hc
  refine ⟨rfl, rfl, rfl, hnone, fun hc => ?_⟩
  obtain ⟨pid, -, hserves⟩ := hc.isPid rfl
  exact hnone pid _ hserves

end SharedMemory

end HEDB
