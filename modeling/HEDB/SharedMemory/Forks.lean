import HEDB.SharedMemory.Model

/-!
# Forks that fail

`fork_ops_process` returns what `fork` returns, and the main loop of the server does not look at it.
When `fork` fails, the bit of the region is set, `child_pids` holds `-1` and `SHM_DONE` is posted
all the same, for a region that no child serves. When the region is freed, the server waits for any
of its children: this is what `waitpid` does with `-1`.

`step` is the system in which every fork succeeds, and `Forking.step` the one with both outcomes,
between which the kernel chooses. A run in which no fork fails is a run of `step`
(`Forking.reach_iff`, `Forking.trace_eq`).
-/

namespace HEDB

namespace SharedMemory

variable {h : Handler}

/-- What the kernel chooses: whether a fork succeeds, and the child that `waitpid` returns when it
waits for any. -/
structure Kernel where
  forks : Bool
  reaps : ℕ

/-- The state of the system, and the regions for which `child_pids` holds `-1`. -/
structure Forking (h : Handler) where
  state : State h
  unforked : Region → Bool

namespace Forking

/-- No fork has failed. -/
def start (h : Handler) : Forking h := ⟨State.start h, fun _ => false⟩

/-- `child_pids[r]`. -/
def childPid (f : Forking h) (r : Region) : ℤ := if f.unforked r then -1 else f.state.childPids r

/-- `fork` fails for a region whose bit is set: the loop goes on to post `SHM_DONE`. -/
def failFork (f : Forking h) (r : Region) : Forking h :=
  ⟨{ f.state with granted := some r, server := .setDone }, Function.update f.unforked r true⟩

/-- `waitpid(-1)`, which returns a child that has exited. -/
def waitAny (s : State h) (pid : ℕ) : State h :=
  match s.children pid with
  | some ⟨r, .exited⟩ =>
    { s with children := Function.update s.children pid none, server := .setDone }.log r .reaped
  | _ =>
    -- `waitpid` fails at once when there are no children
    if (List.range s.nextPid).all fun pid => (s.children pid).isNone then
      { s with server := .setDone }
    else s

/-- One step of the main loop of the server. -/
def serverStep (f : Forking h) (k : Kernel) : Forking h :=
  match f.state.server with
  | .fork r =>
    if k.forks then ⟨SharedMemory.serverStep f.state, Function.update f.unforked r false⟩
    else f.failFork r
  | .freeWait r =>
    if f.unforked r then ⟨waitAny f.state k.reaps, f.unforked⟩
    else ⟨SharedMemory.serverStep f.state, f.unforked⟩
  | _ => ⟨SharedMemory.serverStep f.state, f.unforked⟩

/-- One step of the system. -/
def step (f : Forking h) : Kernel × Label → Forking h
  | (k, .server) => f.serverStep k
  | (_, l) => ⟨SharedMemory.step f.state l, f.unforked⟩

/-- The step is a fork that fails. -/
def Fails (f : Forking h) (x : Kernel × Label) : Prop :=
  x.1.forks = false ∧ x.2 = .server ∧ ∃ r, f.state.server = .fork r

variable {f : Forking h} {x : Kernel × Label}

theorem not_fails_of_forks (hx : x.1.forks = true) : ¬ f.Fails x := by
  rintro ⟨hforks, -⟩
  rw [hx] at hforks
  cases hforks

theorem step_of_fails (hx : f.Fails x) :
    ∃ r, f.state.server = .fork r ∧ f.step x = f.failFork r := by
  obtain ⟨k, l⟩ := x
  obtain ⟨hforks, rfl, r, hr⟩ := hx
  refine ⟨r, hr, ?_⟩
  simp only [step, serverStep, hr]
  exact if_neg (by rw [hforks]; decide)

/-- **As long as no fork fails, a step is one of `step`.** -/
theorem step_of_not_fails (s : State h) (hx : ¬ Fails ⟨s, fun _ => false⟩ x) :
    step ⟨s, fun _ => false⟩ x = ⟨SharedMemory.step s x.2, fun _ => false⟩ := by
  obtain ⟨k, l⟩ := x
  cases l with
  | child pid seed => rfl
  | backend b c => rfl
  | server =>
    simp only [step, serverStep, SharedMemory.step]
    cases hserver : s.server with
    | fork r =>
      have hforks : k.forks = true := by
        by_contra hforks
        exact hx ⟨Bool.eq_false_iff.mpr hforks, rfl, r, hserver⟩
      have hupdate : Function.update (fun _ : Region => false) r false = fun _ => false :=
        Function.update_eq_self ..
      simp only [hforks, if_true, hupdate]
    | freeWait r => rfl
    | _ => rfl

/-- **The runs in which no fork fails are those of `step`.** -/
theorem reach_iff {P : State h → Prop} :
    Reach step (fun f x => ¬ f.Fails x ∧ P (f.step x).state) (start h) f ↔
      f.unforked = (fun _ => false) ∧
        Reach SharedMemory.step (fun s l => P (SharedMemory.step s l)) (State.start h) f.state := by
  constructor
  · intro hf
    induction hf with
    | init => exact ⟨rfl, .init⟩
    | @step f x _ hok ih =>
      obtain ⟨s, u⟩ := f
      obtain ⟨rfl, hs⟩ := ih
      rw [step_of_not_fails s hok.1] at hok ⊢
      exact ⟨rfl, hs.step x.2 hok.2⟩
  · obtain ⟨s, u⟩ := f
    rintro ⟨rfl, hs⟩
    change Reach _ _ _ s at hs
    induction hs with
    | init => exact .init
    | @step s l _ hok ih =>
      have hx : ¬ Fails ⟨s, fun _ => false⟩ (⟨true, 0⟩, l) := not_fails_of_forks rfl
      have hstep := step_of_not_fails s hx
      rw [← hstep]
      exact ih.step _ ⟨hx, by rw [hstep]; exact hok⟩

/-- **A schedule under which no fork fails gives the run of `step`.** -/
theorem trace_eq {sched : ℕ → Kernel × Label}
    (hforks : ∀ n, ¬ (trace step (start h) sched n).Fails (sched n)) (n : ℕ) :
    trace step (start h) sched n =
      ⟨trace SharedMemory.step (State.start h) (fun n => (sched n).2) n, fun _ => false⟩ := by
  induction n with
  | zero => rfl
  | succ n ih =>
    have hn := hforks n
    rw [ih] at hn
    rw [trace, trace, ih, step_of_not_fails _ hn]

end Forking

end SharedMemory

end HEDB
