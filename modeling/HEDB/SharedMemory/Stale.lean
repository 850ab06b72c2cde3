import HEDB.SharedMemory.Timeouts

/-!
# Answers that are left over

A region may hold a `DONE` that nobody has waited for, left over from the time before its backend
has cleared the status word. Such a word makes no difference: a child looks for `EXIT` and `SENT`,
and a backend looks at the status of its region only after it has posted a request.

`State.stale D` is a state with such words in the regions of `D`. As long as these are not touched
(`Untouched`), it makes the same steps as the state without them (`step_stale`); a backend that
clears the status word of its region takes it out of `D`. So what the invariant says about the
events and the backends also holds with words that are left over.
-/

namespace HEDB

namespace SharedMemory

variable {h : Handler} {s : State h} {ph : Region → Phase} {D : Finset Region} {r : Region}

/-- The state with `DONE` in the regions of `D`. -/
def State.stale (s : State h) (D : Finset Region) : State h :=
  { s with regions := fun r => if r ∈ D then ⟨.done, (s.regions r).mem⟩ else s.regions r }

/-- A backend that has not come to clear the status word of its region. -/
inductive HoldPc.Early : HoldPc → Prop
  | getReset : Early .getReset
  | getUnlock : Early .getUnlock
  | ctor : Early .ctor

/-- Nobody has written to the regions of `D`, and nobody has come to a point at which a `DONE` makes
a difference. -/
structure Untouched (D : Finset Region) (s : State h) : Prop where
  status : ∀ r ∈ D, (s.regions r).status = .none
  owner : ∀ r ∈ D, ∀ b p, s.backends b = .holding r p → p.Early
  child : ∀ r ∈ D, ∀ pid c, s.children pid = some ⟨r, c⟩ → c.Idle

theorem regions_stale (hr : r ∉ D) : (s.stale D).regions r = s.regions r := if_neg hr

/-! ## Writing to a region -/

/-- What is written to another region is the same with and without the words. -/
theorem stale_update (hr : r ∉ D) (x : RegionMem) :
    { s.stale D with regions := Function.update (s.stale D).regions r x } =
      { s with regions := Function.update s.regions r x }.stale D := by
  simp only [State.stale, State.mk.injEq, true_and, and_true]
  funext r'
  by_cases hr' : r' = r
  · subst hr'
    simp only [Function.update_self, if_neg hr]
  · simp only [Function.update_of_ne hr']

theorem stale_setStatus (hr : r ∉ D) (st : ReqStatus) :
    (s.stale D).setStatus r st = (s.setStatus r st).stale D := by
  rw [State.setStatus, State.setStatus, regions_stale hr]
  exact stale_update hr _

theorem stale_setMem (hr : r ∉ D) (m : Mem) :
    (s.stale D).setMem r m = (s.setMem r m).stale D := by
  rw [State.setMem, State.setMem, regions_stale hr]
  exact stale_update hr _

/-- A word that is cleared is no longer there. -/
theorem stale_reset (r : Region) :
    (s.stale D).setStatus r .none = (s.setStatus r .none).stale (D.erase r) := by
  simp only [State.setStatus, State.stale, State.mk.injEq, true_and, and_true]
  funext r'
  by_cases hr' : r' = r
  · subst hr'
    simp only [Function.update_self, Finset.mem_erase, ne_eq, not_true_eq_false, false_and,
      if_false]
    split <;> rfl
  · simp only [Function.update_of_ne hr', Finset.mem_erase, ne_eq, hr', not_false_eq_true, true_and]

/-! ## The server -/

/-- The server adds children that poll. -/
theorem children_serverStep {pid : ℕ} {c : ChildPc h}
    (hc : (serverStep s).children pid = some ⟨r, c⟩) :
    s.children pid = some ⟨r, c⟩ ∨ c = .poll := by
  cases hpc : s.server with
  | fork r' =>
    simp only [serverStep, hpc] at hc
    change Function.update s.children s.nextPid _ pid = _ at hc
    rw [Function.update_apply] at hc
    split at hc
    · cases hc
      exact .inr rfl
    · exact .inl hc
  | freeWait r' =>
    simp only [serverStep, hpc] at hc
    split at hc
    · exact .inl hc
    · change Function.update s.children _ none pid = _ at hc
      rw [Function.update_apply] at hc
      split at hc
      · cases hc
      · exact .inl hc
    · exact .inl hc
  | scan i =>
    simp only [serverStep, hpc] at hc
    split at hc <;> exact .inl hc
  | poll | poll2 | setBit | setRet | setDone | freeRead | freeExit | freeAssert | freeClear |
      aborted =>
    simp only [serverStep, hpc] at hc
    exact .inl hc

/-- The server writes to a region whose backend waits in `freeBuffer`. -/
theorem Untouched.notMem_of_freeExit (hd : Untouched D s) (hi : Inv s ph)
    (hpc : s.server = .freeExit r) : r ∉ D := by
  intro hr
  obtain ⟨b, r', -, hb, -, -, hfree⟩ := hi.control.stage.freeing hpc trivial
  cases hfree
  cases hd.owner r hr b _ hb

theorem serverStep_stale (hi : Inv s ph) (hd : Untouched D s) :
    serverStep (s.stale D) = (serverStep s).stale D := by
  have hserver : (s.stale D).server = s.server := rfl
  cases hpc : s.server with
  | freeExit r =>
    simp only [serverStep, hserver, hpc]
    exact congrArg (State.log · r .exit) (stale_setStatus (s := { s with server := .freeAssert r })
      (hd.notMem_of_freeExit hi hpc) .exit)
  | freeWait r =>
    have hchild : (s.stale D).children ((s.stale D).childPids r) = s.children (s.childPids r) := rfl
    simp only [serverStep, hserver, hpc, hchild]
    split <;> rfl
  | scan i =>
    simp only [serverStep, hserver, hpc]
    split <;> rfl
  | poll | poll2 | setBit | setRet | fork | setDone | freeRead | freeAssert | freeClear =>
    simp only [serverStep, hserver, hpc]
    rfl
  | aborted => simp only [serverStep, hserver, hpc]

theorem Untouched.server (hd : Untouched D s) (hi : Inv s ph) : Untouched D (serverStep s) := by
  refine ⟨fun r hr => ?_, fun r hr b p hb => ?_, fun r hr pid c hc => ?_⟩
  · rw [← hd.status r hr]
    cases hpc : s.server with
    | freeExit r' =>
      have hne : r ≠ r' := by
        rintro rfl
        exact hd.notMem_of_freeExit hi hpc hr
      simp only [serverStep, hpc]
      exact congrArg RegionMem.status (Function.update_of_ne hne ..)
    | scan i | freeWait r' =>
      simp only [serverStep, hpc]
      split <;> rfl
    | fork r' =>
      simp only [serverStep, hpc]
      rfl
    | poll | poll2 | setBit | setRet | setDone | freeRead | freeAssert | freeClear | aborted =>
      simp only [serverStep, hpc]
  · rw [(serverStep_eq s).2] at hb
    exact hd.owner r hr b p hb
  · rcases children_serverStep hc with hc | rfl
    · exact hd.child r hr pid c hc
    · exact .poll

/-! ## Children -/

/-- A child goes on, and the regions of `D` are as before. -/
theorem Untouched.childGoto {s' : State h} (hd : Untouched D s) {pid : ℕ} {c : ChildPc h}
    (hregions : ∀ r ∈ D, s'.regions r = s.regions r) (hbackends : s'.backends = s.backends)
    (hchildren : s'.children = Function.update s.children pid (some ⟨r, c⟩))
    (hc : r ∈ D → c.Idle) : Untouched D s' := by
  refine ⟨fun r' hr' => ?_, fun r' hr' b p hb => ?_, fun r' hr' pid' c' hc' => ?_⟩
  · rw [hregions r' hr']
    exact hd.status r' hr'
  · rw [hbackends] at hb
    exact hd.owner r' hr' b p hb
  · rw [hchildren, Function.update_apply] at hc'
    split at hc'
    · cases hc'
      exact hc hr'
    · exact hd.child r' hr' pid' c' hc'

theorem childStep_stale (hd : Untouched D s) (pid seed : ℕ) :
    childStep (s.stale D) pid seed = (childStep s pid seed).stale D ∧
      Untouched D (childStep s pid seed) := by
  have hchildren : (s.stale D).children = s.children := rfl
  unfold childStep
  rw [hchildren]
  cases hc : s.children pid with
  | none => exact ⟨rfl, hd⟩
  | some child =>
    obtain ⟨r, c⟩ := child
    dsimp only
    by_cases hr : r ∈ D
    · -- The child polls, and finds neither `EXIT` nor `SENT`.
      have hstatus : (s.regions r).status = .none := hd.status r hr
      have hstale : ((s.stale D).regions r).status = .done := by
        simp only [State.stale, if_pos hr]
      cases hd.child r hr pid c hc with
      | poll =>
        simp only [childRun, hstatus, hstale, reduceCtorEq, if_false]
        exact ⟨rfl, hd.childGoto (fun _ _ => rfl) rfl rfl fun _ => .poll2⟩
      | poll2 =>
        simp only [childRun, hstatus, hstale, reduceCtorEq, if_false]
        exact ⟨rfl, hd.childGoto (fun _ _ => rfl) rfl rfl fun _ => .poll⟩
    · have hregion := regions_stale (s := s) hr
      have hgoto {s' : State h} {c' : ChildPc h} (hregions : ∀ r ∈ D, s'.regions r = s.regions r)
          (hbackends : s'.backends = s.backends)
          (hchildren : s'.children = Function.update s.children pid (some ⟨r, c'⟩)) :
          Untouched D s' := hd.childGoto hregions hbackends hchildren fun hr' => absurd hr' hr
      have hother (x : RegionMem) : ∀ r' ∈ D, Function.update s.regions r x r' = s.regions r' := by
        intro r' hr'
        apply Function.update_of_ne
        rintro rfl
        exact hr hr'
      cases c with
      | poll | poll2 | check =>
        simp only [childRun, hregion]
        split <;> exact ⟨rfl, hgoto (fun _ _ => rfl) rfl rfl⟩
      | handling l =>
        simp only [childRun, hregion]
        split
        · exact ⟨rfl, hgoto (fun _ _ => rfl) rfl rfl⟩
        · exact ⟨congrArg (State.childGoto · pid r _) (stale_setMem hr _), hgoto (hother _) rfl rfl⟩
      | post | exiting =>
        exact ⟨congrArg (State.childGoto · pid r _) (stale_setStatus hr _),
          hgoto (hother _) rfl rfl⟩
      | leaving => exact ⟨rfl, hgoto (fun _ _ => rfl) rfl rfl⟩
      | exited => exact ⟨rfl, hd⟩

/-! ## Backends -/

/-- A backend goes on, and the regions of `D` are as before. -/
theorem Untouched.goto {s' : State h} (hd : Untouched D s) {b : ℕ} {pc : BackendPc}
    (hregions : ∀ r ∈ D, s'.regions r = s.regions r) (hchildren : s'.children = s.children)
    (hbackends : s'.backends = Function.update s.backends b pc)
    (hpc : ∀ r ∈ D, ∀ p, pc = .holding r p → p.Early) : Untouched D s' := by
  refine ⟨fun r hr => ?_, fun r hr b' p hb' => ?_, fun r hr pid c hc => ?_⟩
  · rw [hregions r hr]
    exact hd.status r hr
  · rw [hbackends, Function.update_apply] at hb'
    split at hb'
    · exact hpc r hr p hb'
    · exact hd.owner r hr b' p hb'
  · rw [hchildren] at hc
    exact hd.child r hr pid c hc

/-- The words make no difference to a backend that has no region. -/
theorem askStep_stale (hd : Untouched D s) {b : ℕ} (c : Choice) (p : AskPc) :
    askStep (s.stale D) b c p = (askStep s b c p).stale D ∧ Untouched D (askStep s b c p) := by
  have hstatus : (s.stale D).status = s.status := rfl
  have hgoto {s' : State h} {pc : BackendPc} (hregions : s'.regions = s.regions)
      (hchildren : s'.children = s.children)
      (hbackends : s'.backends = Function.update s.backends b pc)
      (hpc : ∀ r p, pc = .holding r p → p.Early) : Untouched D s' :=
    hd.goto (fun r _ => by rw [hregions]) hchildren hbackends fun r _ => hpc r
  cases p with
  | locked =>
    simp only [askStep, hstatus]
    split <;> exact ⟨rfl, hgoto rfl rfl rfl (by rintro _ _ ⟨⟩)⟩
  | post => exact ⟨rfl, hgoto rfl rfl rfl (by rintro _ _ ⟨⟩)⟩
  | wait =>
    cases c with
    | timeout => exact ⟨rfl, hgoto rfl rfl rfl (by rintro _ _ ⟨⟩)⟩
    | go | send | free =>
      simp only [askStep, hstatus]
      split
      · exact ⟨rfl, hgoto rfl rfl rfl (by rintro _ _ ⟨⟩)⟩
      · exact ⟨rfl, hd⟩
  | read =>
    refine ⟨rfl, hgoto rfl rfl rfl fun r p hp => ?_⟩
    cases hp
    exact .getReset

/-- A backend that clears the status word of its region. -/
theorem ctor_stale (hd : Untouched D s) (b : ℕ) (r : Region) :
    ((s.stale D).setStatus r .none).goto b (.holding r .ready) =
        ((s.setStatus r .none).goto b (.holding r .ready)).stale (D.erase r) ∧
      Untouched (D.erase r) ((s.setStatus r .none).goto b (.holding r .ready)) := by
  refine ⟨congrArg (State.goto · b _) (stale_reset r), ?_⟩
  have hd' : Untouched (D.erase r) s :=
    ⟨fun r' hr' => hd.status r' (Finset.mem_of_mem_erase hr'),
      fun r' hr' => hd.owner r' (Finset.mem_of_mem_erase hr'),
      fun r' hr' => hd.child r' (Finset.mem_of_mem_erase hr')⟩
  refine hd'.goto (fun r' hr' => ?_) rfl rfl fun r' hr' p hp => ?_
  · exact Function.update_of_ne (Finset.ne_of_mem_erase hr') ..
  · cases hp
    exact absurd hr' (Finset.notMem_erase r D)

/-- A backend that has cleared the status word of its region does not see the words. -/
theorem holdStep_stale (hd : Untouched D s) {b : ℕ} {p : HoldPc} (hb : s.backends b = .holding r p)
    (c : Choice) : ∃ D', holdStep (s.stale D) b r c p = (holdStep s b r c p).stale D' ∧
      Untouched D' (holdStep s b r c p) := by
  have hearly {s' : State h} {p' : HoldPc} (hp' : p'.Early) (hregions : s'.regions = s.regions)
      (hchildren : s'.children = s.children)
      (hbackends : s'.backends = Function.update s.backends b (.holding r p')) :
        Untouched D s' := by
    refine hd.goto (fun r _ => by rw [hregions]) hchildren hbackends fun r' _ p hp => ?_
    cases hp
    exact hp'
  by_cases hp : p.Early
  · cases hp with
    | getReset => exact ⟨D, rfl, hearly .getUnlock rfl rfl rfl⟩
    | getUnlock => exact ⟨D, rfl, hearly .ctor rfl rfl rfl⟩
    | ctor => exact ⟨D.erase r, ctor_stale hd b r⟩
  · have hr : r ∉ D := fun hr => hp (hd.owner r hr b p hb)
    have hregion := regions_stale (s := s) hr
    have hstatus : (s.stale D).status = s.status := rfl
    have hlock : (s.stale D).lock = s.lock := rfl
    have hother (x : RegionMem) : ∀ r' ∈ D, Function.update s.regions r x r' = s.regions r' := by
      intro r' hr'
      apply Function.update_of_ne
      rintro rfl
      exact hr hr'
    have hgoto {s' : State h} {pc : BackendPc} (hregions : ∀ r ∈ D, s'.regions r = s.regions r)
        (hchildren : s'.children = s.children)
        (hbackends : s'.backends = Function.update s.backends b pc)
        (hpc : ∀ r' p, pc = .holding r' p → r' = r) : Untouched D s' := by
      refine hd.goto hregions hchildren hbackends fun r' hr' p hp => ?_
      rw [hpc r' p hp] at hr'
      exact absurd hr' hr
    -- A step that writes to no region.
    have hkeep {s' : State h} {pc : BackendPc} (hregions : s'.regions = s.regions)
        (hchildren : s'.children = s.children)
        (hbackends : s'.backends = Function.update s.backends b pc)
        (hpc : ∀ r' p, pc = .holding r' p → r' = r) : Untouched D s' :=
      hgoto (fun r _ => by rw [hregions]) hchildren hbackends hpc
    refine ⟨D, ?_⟩
    cases p with
    | getReset => exact absurd .getReset hp
    | getUnlock => exact absurd .getUnlock hp
    | ctor => exact absurd .ctor hp
    | ready =>
      cases c with
      | send q =>
        simp only [holdStep, hregion]
        exact ⟨rfl, hkeep rfl rfl rfl fun _ _ hp => by cases hp; rfl⟩
      | free => exact ⟨rfl, hkeep rfl rfl rfl fun _ _ hp => by cases hp; rfl⟩
      | go | timeout => exact ⟨rfl, hd⟩
    | serialize q ws =>
      cases ws with
      | nil =>
        simp only [holdStep, hregion]
        refine ⟨?_, hgoto (hother _) rfl rfl fun _ _ hp => by cases hp; rfl⟩
        exact congrArg (fun s' => (State.log s' r _).goto b _) (stale_setStatus hr _)
      | cons w ws =>
        simp only [holdStep, hregion]
        refine ⟨?_, hgoto (hother _) rfl rfl fun _ _ hp => by cases hp; rfl⟩
        exact congrArg (State.goto · b _) (stale_setMem hr _)
    | reset =>
      refine ⟨?_, hgoto (hother _) rfl rfl fun _ _ hp => by cases hp; rfl⟩
      exact congrArg (State.goto · b _) (stale_setStatus hr _)
    | copy q | readResp q =>
      simp only [holdStep, hregion]
      exact ⟨rfl, hkeep rfl rfl rfl fun _ _ hp => by cases hp; rfl⟩
    | waitDone q =>
      simp only [holdStep, hregion]
      split
      · exact ⟨rfl, hkeep rfl rfl rfl fun _ _ hp => by cases hp; rfl⟩
      · exact ⟨rfl, hd⟩
    | freeLock =>
      simp only [holdStep, hlock]
      split
      · exact ⟨rfl, hkeep rfl rfl rfl fun _ _ hp => by cases hp; rfl⟩
      · exact ⟨rfl, hd⟩
    | freeLocked =>
      simp only [holdStep, hstatus]
      split
      · exact ⟨rfl, hkeep rfl rfl rfl fun _ _ hp => by cases hp; rfl⟩
      · exact ⟨rfl, hkeep rfl rfl rfl (by rintro _ _ ⟨⟩)⟩
    | freeWait =>
      simp only [holdStep, hstatus]
      split
      · exact ⟨rfl, hkeep rfl rfl rfl fun _ _ hp => by cases hp; rfl⟩
      · exact ⟨rfl, hd⟩
    | freeId | freePost | freeReset =>
      exact ⟨rfl, hkeep rfl rfl rfl fun _ _ hp => by cases hp; rfl⟩
    | freeUnlock => exact ⟨rfl, hkeep rfl rfl rfl (by rintro _ _ ⟨⟩)⟩

theorem backendStep_stale (hd : Untouched D s) (b : ℕ) (c : Choice) :
    ∃ D', backendStep (s.stale D) b c = (backendStep s b c).stale D' ∧
      Untouched D' (backendStep s b c) := by
  have hbackends : (s.stale D).backends = s.backends := rfl
  have hlock : (s.stale D).lock = s.lock := rfl
  unfold backendStep
  rw [hbackends]
  cases hb : s.backends b with
  | init =>
    simp only [hlock]
    split
    · exact ⟨D, rfl, hd.goto (fun _ _ => rfl) rfl rfl nofun⟩
    · exact ⟨D, rfl, hd⟩
  | asking p => exact ⟨D, askStep_stale hd c p⟩
  | holding r p => exact holdStep_stale hd hb c
  | gone | timedOut | aborted => exact ⟨D, rfl, hd⟩

/-- **Words that are left over make no difference to a step.** -/
theorem step_stale (hi : Inv s ph) (hd : Untouched D s) (l : Label) :
    ∃ D', step (s.stale D) l = (step s l).stale D' ∧ Untouched D' (step s l) := by
  cases l with
  | server => exact ⟨D, serverStep_stale hi hd, hd.server hi⟩
  | child pid seed => exact ⟨D, childStep_stale hd pid seed⟩
  | backend b c => exact backendStep_stale hd b c

end SharedMemory

end HEDB
