import HEDB.SharedMemory.Invariant

/-!
# What the step of one process leaves alone

A label names the process that takes the step. A child touches its region and its own program
counter (`childStep_eq`); the server touches neither the lock nor a backend (`serverStep_eq`); a
backend touches neither the server nor a child, no region but its own, and the header only when it
has the lock or takes it (`ofBackend`).

Runs are built from such steps: a backend that has just got its region sends its first request
(`reach_posted`), whatever else the run allows.
-/

namespace HEDB

namespace SharedMemory

variable {h : Handler} {s : State h} {b : ℕ} {r : Region}

/-! ## Processes -/

/-- A process of the system. -/
inductive Process
  | server
  | child (pid : ℕ)
  | backend (b : ℕ)

/-- The process that takes the step. -/
def Label.process : Label → Process
  | .server => .server
  | .child pid _ => .child pid
  | .backend b _ => .backend b

/-! ## One step -/

theorem childRun_eq (s : State h) (pid : ℕ) (r : Region) (seed : ℕ) {pc : ChildPc h}
    (hch : s.children pid = some ⟨r, pc⟩) : ∃ x es c, childRun s pid r seed pc = { s with
      regions := Function.update s.regions r x
      events := es
      children := Function.update s.children pid c } := by
  have hself : Function.update s.children pid (some ⟨r, pc⟩) = s.children := by
    rw [← hch, Function.update_eq_self]
  have hreg : Function.update s.regions r (s.regions r) = s.regions := Function.update_eq_self ..
  cases pc with
  | poll | poll2 | check =>
    simp only [childRun]
    split_ifs
    · exact ⟨s.regions r, _, _, by rw [hreg]; rfl⟩
    · exact ⟨s.regions r, _, _, by rw [hreg]; rfl⟩
  | handling l =>
    simp only [childRun]
    split_ifs
    · exact ⟨s.regions r, _, _, by rw [hreg]; rfl⟩
    · exact ⟨_, _, _, rfl⟩
  | post => exact ⟨_, _, _, rfl⟩
  | exiting => exact ⟨_, _, _, rfl⟩
  | leaving => exact ⟨s.regions r, _, _, by rw [hreg]; rfl⟩
  | exited => exact ⟨s.regions r, s.events, _, by rw [hreg, hself]; rfl⟩

/-- **A child touches its region and itself.** -/
theorem childStep_eq (s : State h) (pid seed : ℕ) : ∃ rs es c,
    childStep s pid seed = { s with
      regions := rs, events := es, children := Function.update s.children pid c } ∧
    ∀ r, (∀ pc, s.children pid ≠ some ⟨r, pc⟩) → rs r = s.regions r := by
  unfold childStep
  cases hch : s.children pid with
  | none =>
    refine ⟨s.regions, s.events, s.children pid, ?_, fun _ _ => rfl⟩
    rw [Function.update_eq_self]
  | some ch =>
    obtain ⟨r, pc⟩ := ch
    obtain ⟨x, es, c, heq⟩ := childRun_eq s pid r seed hch
    refine ⟨_, es, c, heq, fun r' hr' => Function.update_of_ne ?_ ..⟩
    rintro rfl
    exact hr' pc rfl

/-- **The server touches neither the lock nor a backend.** -/
theorem serverStep_eq (s : State h) :
    (serverStep s).lock = s.lock ∧ (serverStep s).backends = s.backends := by
  unfold serverStep
  cases s.server with
  | scan i => dsimp only; split_ifs <;> exact ⟨rfl, rfl⟩
  | freeWait r =>
    dsimp only
    split <;> exact ⟨rfl, rfl⟩
  | _ => exact ⟨rfl, rfl⟩

/-- What a step of backend `b` leaves alone. -/
structure OfBackend (s s' : State h) (b : ℕ) : Prop where
  server : s'.server = s.server
  children : s'.children = s.children
  childPids : s'.childPids = s.childPids
  others : ∀ b' ≠ b, s'.backends b' = s.backends b'
  /-- It writes in its own region only. -/
  regions : ∀ r, ¬ s.Holds b r → s'.regions r = s.regions r
  /-- Without the lock it can take the lock and do nothing else in the header. -/
  header : ¬ (s.backends b).Critical →
    s'.status = s.status ∧ (s'.lock = s.lock ∨ s.lock = none ∧ s'.lock = some b)

namespace OfBackend

variable {s' : State h} {pc : BackendPc} {p : HoldPc}

theorem refl (s : State h) (b : ℕ) : OfBackend s s b :=
  ⟨rfl, rfl, rfl, fun _ _ => rfl, fun _ _ => rfl, fun _ => ⟨rfl, .inl rfl⟩⟩

/-- A backend that has the lock makes a step in the header. -/
theorem of_critical (hc : (s.backends b).Critical) (hs : s' = { s with
      lock := s'.lock, status := s'.status, freeId := s'.freeId, granted := s'.granted
      backends := Function.update s.backends b pc }) : OfBackend s s' b := by
  rw [hs]
  exact ⟨rfl, rfl, rfl, fun _ hb => Function.update_of_ne hb .., fun _ _ => rfl,
    fun hn => absurd hc hn⟩

/-- A backend makes a step in its region. -/
theorem of_region (hb : s.backends b = .holding r p) (hs : s' = { s with
      regions := s'.regions, events := s'.events
      backends := Function.update s.backends b pc })
    (hrs : ∀ r' ≠ r, s'.regions r' = s.regions r') : OfBackend s s' b := by
  refine ⟨by rw [hs], by rw [hs], by rw [hs], fun b' hb' => ?_, fun r' hr' => hrs r' ?_,
    fun _ => ?_⟩
  · rw [hs]
    exact Function.update_of_ne hb' ..
  · rintro rfl
    exact hr' ⟨p, hb⟩
  · rw [hs]
    exact ⟨rfl, .inl rfl⟩

/-- A backend takes the lock. -/
theorem of_lock (hl : s.lock = none) (pc : BackendPc) :
    OfBackend s ({ s with lock := some b }.goto b pc) b :=
  ⟨rfl, rfl, rfl, fun _ hb => Function.update_of_ne hb .., fun _ _ => rfl,
    fun _ => ⟨rfl, .inr ⟨hl, rfl⟩⟩⟩

end OfBackend

/-- **What a backend leaves alone.** -/
theorem ofBackend (s : State h) (b : ℕ) (c : Choice) : OfBackend s (backendStep s b c) b := by
  unfold backendStep
  cases hb : s.backends b with
  | init =>
    dsimp only
    split_ifs with hl
    · exact .of_lock hl _
    · exact .refl s b
  | asking p =>
    have hc : (s.backends b).Critical := hb ▸ trivial
    cases p with
    | locked =>
      simp only [askStep]
      split_ifs <;> exact .of_critical hc rfl
    | wait =>
      simp only [askStep]
      split
      · exact .of_critical hc rfl
      · split_ifs
        · exact .of_critical hc rfl
        · exact .refl s b
    | post => exact .of_critical hc rfl
    | read => exact .of_critical hc rfl
  | holding r p =>
    cases p with
    | ready =>
      simp only [holdStep]
      split
      · exact .of_region hb rfl fun _ _ => rfl
      · exact .of_region hb rfl fun _ _ => rfl
      · exact .refl s b
    | serialize q ws =>
      cases ws with
      | nil => exact .of_region hb rfl fun _ hr => Function.update_of_ne hr ..
      | cons w ws => exact .of_region hb rfl fun _ hr => Function.update_of_ne hr ..
    | waitDone q =>
      simp only [holdStep]
      split_ifs
      · exact .of_region hb rfl fun _ _ => rfl
      · exact .refl s b
    | ctor => exact .of_region hb rfl fun _ hr => Function.update_of_ne hr ..
    | copy q => exact .of_region hb rfl fun _ _ => rfl
    | readResp q => exact .of_region hb rfl fun _ _ => rfl
    | reset => exact .of_region hb rfl fun _ hr => Function.update_of_ne hr ..
    | freeLock =>
      simp only [holdStep]
      split_ifs with hl
      · exact .of_lock hl _
      · exact .refl s b
    | freeLocked =>
      simp only [holdStep]
      split_ifs <;> exact .of_critical (hb ▸ trivial) rfl
    | freeWait =>
      simp only [holdStep]
      split_ifs
      · exact .of_critical (hb ▸ trivial) rfl
      · exact .refl s b
    | getReset => exact .of_critical (hb ▸ trivial) rfl
    | getUnlock => exact .of_critical (hb ▸ trivial) rfl
    | freeId => exact .of_critical (hb ▸ trivial) rfl
    | freePost => exact .of_critical (hb ▸ trivial) rfl
    | freeReset => exact .of_critical (hb ▸ trivial) rfl
    | freeUnlock => exact .of_critical (hb ▸ trivial) rfl
  | gone => exact .refl s b
  | timedOut => exact .refl s b
  | aborted => exact .refl s b

/-- A step of another process leaves a backend where it is. -/
theorem step_backends (s : State h) {l : Label} (hl : l.process ≠ .backend b) :
    (step s l).backends b = s.backends b := by
  cases l with
  | server => exact congrFun (serverStep_eq s).2 b
  | child pid seed =>
    obtain ⟨rs, es, c, heq, -⟩ := childStep_eq s pid seed
    rw [step, heq]
  | backend b' c => exact (ofBackend s b' c).others b fun hbb => hl (by rw [hbb]; rfl)

/-! ## Runs -/

theorem reach_of_labels (s : State h) {ok : Label → Prop} (ls : List Label) (hls : ∀ l ∈ ls, ok l) :
    Reach step (fun _ l => ok l) s (ls.foldl step s) := by
  induction ls generalizing s with
  | nil => exact .init
  | cons l ls ih =>
    have hfirst : Reach step (fun _ l => ok l) s (step s l) :=
      .step l .init (hls l List.mem_cons_self)
    exact hfirst.trans (ih (step s l) fun l' hl' => hls l' (List.mem_cons_of_mem l hl'))

section Sending

variable {ok : Label → Prop} {q : Request}

/-- A backend copies the fields of a request into its region. -/
theorem reach_serialized {ws : List (ℕ × List UInt8)} (hgo : ok (.backend b .go))
    (hb : s.backends b = .holding r (.serialize q ws)) :
    ∃ s', Reach step (fun _ l => ok l) s s' ∧ s'.backends b = .holding r (.serialize q []) ∧
      (s'.regions r).mem = (s.regions r).mem.writeAll ws ∧ s'.children = s.children := by
  induction ws generalizing s with
  | nil => exact ⟨s, .init, hb, rfl, rfl⟩
  | cons w ws ih =>
    have hstep : step s (.backend b .go) =
        (s.setMem r ((s.regions r).mem.write w.1 w.2)).goto b (.holding r (.serialize q ws)) := by
      simp only [step, backendStep, hb, holdStep]
    obtain ⟨s', hs', hb', hmem, hch⟩ := ih (s := step s (.backend b .go)) (by
      rw [hstep]
      exact Function.update_self ..)
    refine ⟨s', (Reach.init.step (.backend b .go) hgo).trans hs', hb', ?_, ?_⟩
    · rw [hmem, hstep]
      simp [State.goto, State.setMem, Mem.writeAll]
    · rw [hch, hstep]
      rfl

/-- **A backend that has got its region sends a request.** -/
theorem reach_posted (hok : ∀ c, ok (.backend b c)) (hb : s.backends b = .holding r .ctor)
    (q : Request) : ∃ s' m pre, Reach step (fun _ l => ok l) s s' ∧
      s'.backends b = .holding r (.waitDone q) ∧ s'.regions r = ⟨.sent, m⟩ ∧ q.In m ∧
      s'.children = s.children ∧ s'.events r = pre ++ [.sent b q m] := by
  obtain ⟨s₁, hs₁, hb₁, hmem₁, hch₁⟩ : ∃ s₁, Reach step (fun _ l => ok l) s s₁ ∧
      s₁.backends b = .holding r (.serialize q q.writes) ∧
      (s₁.regions r).mem = (s.regions r).mem ∧ s₁.children = s.children := by
    have hinit : Reach step (fun _ l => ok l) s s := .init
    refine ⟨_, (hinit.step _ (hok .go)).step _ (hok (.send q)), ?_⟩
    simp [step, backendStep, hb, holdStep, State.goto, State.setStatus, State.log]
  obtain ⟨s₂, hs₂, hb₂, hmem₂, hch₂⟩ := reach_serialized (hok .go) hb₁
  refine ⟨_, (s₂.regions r).mem, s₂.events r, (hs₁.trans hs₂).step _ (hok .go), ?_⟩
  rw [← hch₁, ← hch₂]
  have hin : q.In (s₂.regions r).mem := by
    rw [hmem₂]
    exact q.in_serializeTo _
  simp [step, backendStep, hb₂, holdStep, State.goto, State.setStatus, State.log, hin]

end Sending

end SharedMemory

end HEDB
