import HEDB.SharedMemory.Turns

/-!
# Inside the lock

A backend that has the lock gets a region or gives one back, and on the way one process after the
other has to move: the backend, the server, and the child that is told to exit. `sectionTurn` says
which process it is, and `sectionRank` how many steps are left. A step of the process that has to
move lowers the rank, and a step of any other process changes neither (`Inv.section_step`): the
server comes nearer to its answer (`Asked.nearer`, `Freeing.nearer`), the child to its end
(`exitRank_childStep`), and the other backends do not have the lock.
-/

namespace HEDB

namespace SharedMemory

variable {h : Handler} {s : State h} {ph : Region → Phase} {b : ℕ} {r : Region}

/-! ## Who has to move -/

/-- How far the server is from the answer to `SHM_GET`. -/
def getRank : ServerPc → ℕ
  | .poll2 => 29
  | .poll => 28
  | .scan i => 10 + (maxRegionNum - i)
  | .setBit _ => 9
  | .setRet _ => 8
  | .fork _ => 7
  | _ => 6

/-- How far a child that is told to exit is from its end. -/
def exitRank : Option (Child h) → ℕ
  | some ⟨_, .poll2⟩ => 22
  | some ⟨_, .poll⟩ => 21
  | some ⟨_, .exiting⟩ => 20
  | some ⟨_, .leaving⟩ => 19
  | _ => 18

/-- The same, when the server waits for the child of region `r`. -/
def exitOf (s : State h) (r : Region) : ℕ :=
  match s.server with
  | .freeWait _ => exitRank (s.children (s.childPids r))
  | _ => 0

/-- How far the server is from the answer to `SHM_FREE`. -/
def freeRank (exit : ℕ) : ServerPc → ℕ
  | .poll => 28
  | .poll2 => 27
  | .freeRead => 26
  | .freeExit _ => 25
  | .freeAssert _ => 24
  | .freeClear _ => 23
  | .freeWait _ => exit
  | _ => 6

/-- How far a backend that has the lock is from releasing it. -/
def sectionRank (s : State h) : BackendPc → ℕ
  | .asking .locked => 31
  | .asking .post => 30
  | .asking .wait => if s.status = .done then 5 else getRank s.server
  | .asking .read => 4
  | .holding _ .freeLocked => 31
  | .holding _ .freeId => 30
  | .holding _ .freePost => 29
  | .holding r .freeWait => if s.status = .done then 5 else freeRank (exitOf s r) s.server
  | .holding _ .getReset => 3
  | .holding _ .freeReset => 3
  | .holding _ .getUnlock => 2
  | .holding _ .freeUnlock => 2
  | _ => 1

/-- The process that has to move when backend `b` has the lock and is at `pc`. -/
def sectionTurn (s : State h) (b : ℕ) : BackendPc → Process
  | .asking .wait => if s.status = .done then .backend b else .server
  | .holding r .freeWait =>
    if s.status = .done then .backend b
    else if 18 < exitOf s r then .child (s.childPids r) else .server
  | _ => .backend b

/-- The backend is in `getSharedBuffer`. -/
def BackendPc.Getting : BackendPc → Prop
  | .asking _ => True
  | .holding _ .getReset => True
  | .holding _ .getUnlock => True
  | _ => False

/-- The backend has released the lock: it has its region, or has given it back. -/
def BackendPc.Out (pc : BackendPc) (getting : Prop) : Prop :=
  (getting → ∃ r, pc = .holding r .ctor) ∧ (¬ getting → pc = .gone)

/-! ## One step -/

/-- What a step of process `p` does to backend `b`, which has the lock: `b` releases it, or comes
nearer to that, or has to wait for the same process as before, which is not `p`. -/
def SectionNext (s s' : State h) (b : ℕ) (p : Process) : Prop :=
  (s'.lock = none ∧ (s'.backends b).Out (s.backends b).Getting) ∨
  (s'.lock = some b ∧ ((s'.backends b).Getting ↔ (s.backends b).Getting) ∧
    (sectionRank s' (s'.backends b) < sectionRank s (s.backends b) ∨
      sectionRank s' (s'.backends b) = sectionRank s (s.backends b) ∧
        sectionTurn s' b (s'.backends b) = sectionTurn s b (s.backends b) ∧
        p ≠ sectionTurn s b (s.backends b)))

theorem sectionTurn_ne_backend {b' : ℕ} (hb : b' ≠ b) (pc : BackendPc) :
    sectionTurn s b pc ≠ .backend b' := by
  unfold sectionTurn
  split
  · split_ifs <;> simp [Ne.symm hb]
  · split_ifs <;> simp [Ne.symm hb]
  · simp [Ne.symm hb]

/-- A step that leaves alone what the backend waits for. -/
theorem sectionNext_of_same {s' : State h} {p : Process} (hl : s.lock = some b)
    (hlock : s'.lock = s.lock) (hstatus : s'.status = s.status)
    (hserver : s.backends b = .asking .wait ∨ (∃ r, s.backends b = .holding r .freeWait) →
      s.status ≠ .done → s'.server = s.server)
    (hpids : s'.childPids = s.childPids) (hb : s'.backends b = s.backends b)
    (hexit : ∀ r, s.backends b = .holding r .freeWait → s.status ≠ .done →
      exitOf s' r = exitOf s r)
    (hp : p ≠ sectionTurn s b (s.backends b)) : SectionNext s s' b p := by
  refine .inr ⟨hlock.trans hl, by rw [hb], .inr ⟨?_, ?_, hp⟩⟩
  · rw [hb]
    unfold sectionRank
    rw [hstatus]
    split
    case h_3 hpc =>
      split_ifs with hdone
      · rfl
      · rw [hserver (.inl hpc) hdone]
    case h_8 r hpc =>
      split_ifs with hdone
      · rfl
      · rw [hserver (.inr ⟨r, hpc⟩) hdone, hexit r hpc hdone]
    all_goals rfl
  · rw [hb]
    unfold sectionTurn
    rw [hstatus, hpids]
    split
    case h_2 r hpc =>
      by_cases hdone : s.status = .done
      · rw [if_pos hdone, if_pos hdone]
      · rw [if_neg hdone, if_neg hdone, hexit r hpc hdone]
    all_goals rfl

/-- Another backend does not have the lock. -/
theorem Inv.section_other (hi : Inv s ph) (hl : s.lock = some b) {b' : ℕ} (hb : b' ≠ b)
    (c : Choice) : SectionNext s (backendStep s b' c) b (.backend b') := by
  have hof := ofBackend s b' c
  have hcrit : ¬ (s.backends b').Critical := fun hc =>
    hb (Option.some.inj (((hi.control.critical b').1 hc).symm.trans hl))
  obtain ⟨hstatus, hlock | ⟨hnone, -⟩⟩ := hof.header hcrit
  · refine sectionNext_of_same hl hlock hstatus (fun _ _ => hof.server) hof.childPids
      (hof.others b hb.symm) (fun r _ _ => ?_) (sectionTurn_ne_backend hb _).symm
    unfold exitOf
    rw [hof.server, hof.children, hof.childPids]
  · rw [hl] at hnone
    cases hnone

/-- The backend itself moves when it has to, and only then. -/
theorem Inv.section_own (hi : Inv s ph) (hl : s.lock = some b) (ht : s.backends b ≠ .timedOut)
    {c : Choice} (hc : c ≠ .timeout) : SectionNext s (backendStep s b c) b (.backend b) := by
  have hcrit : (s.backends b).Critical := (hi.control.critical b).2 hl
  obtain ⟨-, hh⟩ := hi.control.holder rfl hcrit
  -- a backend that goes on to `pc` and keeps the lock
  have hgoto : ∀ (s' : State h) (pc : BackendPc), s'.lock = some b →
      (pc.Getting ↔ (s.backends b).Getting) →
      sectionRank (s'.goto b pc) pc < sectionRank s (s.backends b) →
      SectionNext s (s'.goto b pc) b (.backend b) := by
    intro s' pc hl' hget hlt
    have hself : (s'.goto b pc).backends b = pc := Function.update_self ..
    exact .inr ⟨hl', by rw [hself]; exact hget, .inl (by rw [hself]; exact hlt)⟩
  -- a backend that waits
  have hwait : (s.backends b = .asking .wait ∨ ∃ r, s.backends b = .holding r .freeWait) →
      s.status ≠ .done → SectionNext s s b (.backend b) := by
    intro hpc hdone
    refine .inr ⟨hl, Iff.rfl, .inr ⟨rfl, rfl, ?_⟩⟩
    rcases hpc with hpc | ⟨r, hpc⟩
    · rw [hpc, sectionTurn, if_neg hdone]
      rintro ⟨⟩
    · rw [hpc, sectionTurn, if_neg hdone]
      split_ifs <;> rintro ⟨⟩
  unfold backendStep
  generalize hpc : s.backends b = pc at hcrit hh ht hgoto hwait
  cases pc with
  | init => exact hcrit.elim
  | asking p =>
    cases p with
    | locked =>
      simp only [askStep, if_pos hh.1]
      exact hgoto _ _ hl Iff.rfl (by simp [sectionRank])
    | post =>
      refine hgoto _ _ hl Iff.rfl ?_
      rcases hh.2 with hidle | hidle <;> simp [sectionRank, State.goto, hidle, getRank]
    | wait =>
      have hstep : askStep s b c .wait =
          if s.status = .done then s.goto b (.asking .read) else s := by
        cases c <;> first | rfl | exact absurd rfl hc
      simp only [hstep]
      split_ifs with hdone
      · exact hgoto _ _ hl Iff.rfl (by simp [sectionRank, hdone])
      · exact hwait (.inl rfl) hdone
    | read => exact hgoto _ _ hl Iff.rfl (by simp [sectionRank])
  | holding r p =>
    cases p with
    | getReset => exact hgoto _ _ hl Iff.rfl (by simp [sectionRank])
    | getUnlock =>
      refine .inl ⟨rfl, ⟨fun _ => ⟨r, Function.update_self ..⟩, fun hn => absurd ?_ hn⟩⟩
      rw [hpc]
      trivial
    | freeLocked =>
      simp only [holdStep, if_pos hh.1]
      exact hgoto _ _ hl Iff.rfl (by simp [sectionRank])
    | freeId => exact hgoto _ _ hl Iff.rfl (by simp [sectionRank])
    | freePost =>
      refine hgoto _ _ hl Iff.rfl ?_
      rcases hh.1.2 with hidle | hidle <;> simp [sectionRank, State.goto, hidle, freeRank]
    | freeWait =>
      simp only [holdStep]
      split_ifs with hdone
      · exact hgoto _ _ hl Iff.rfl (by simp [sectionRank, hdone])
      · exact hwait (.inr ⟨r, rfl⟩) hdone
    | freeReset => exact hgoto _ _ hl Iff.rfl (by simp [sectionRank])
    | freeUnlock =>
      refine .inl ⟨rfl, ⟨fun hget => ?_, fun _ => Function.update_self ..⟩⟩
      rw [hpc] at hget
      exact hget.elim
    | _ => exact hcrit.elim
  | gone => exact hcrit.elim
  | timedOut => exact absurd rfl ht
  | aborted => exact hh.elim

/-- A child that has been told to exit does so, and the server waits for it. -/
theorem Inv.leaving_child (hi : Inv s ph) {r' : Region} (hb : s.backends b = .holding r .freeWait)
    (hsv : s.server = .freeWait r') : ∃ c, s.children (s.childPids r) = some ⟨r, c⟩ ∧
      ((c.Idle ∧ (s.regions r).status = .exit) ∨ c = .exiting ∨ c = .leaving ∨ c = .exited) := by
  obtain ⟨b', r'', hl, hb', -, -, hf⟩ := hi.control.stage.freeing hsv trivial
  have hl' := (hi.control.critical b).1 (hb ▸ trivial)
  cases hl.symm.trans hl'
  cases hb.symm.trans hb'
  cases hf with
  | freeWait pid hclosing =>
    replace hclosing : (ph r).role = .closing b pid := hclosing
    obtain ⟨-, -, rfl, c, hch, hrow⟩ :=
      (hi.regions r).served (show (ph r).role.owner = some b by rw [hclosing]; rfl)
    refine ⟨c, hch, ?_⟩
    rw [hb] at hrow
    generalize ph r = φ at hclosing hrow
    generalize (s.regions r).status = st at hrow ⊢
    cases hrow with
    | idle hrow hc =>
      cases hrow with
      | exiting => exact .inl ⟨hc, rfl⟩
      | _ => cases hclosing
    | leaving => exact .inr (.inl rfl)
    | cleared => exact .inr (.inr (.inl rfl))
    | exited => exact .inr (.inr (.inr rfl))

/-- A backend that waits while there is no request has been answered. -/
theorem Inv.answered_of_noRequest (hi : Inv s ph) (hl : s.lock = some b)
    (hno : NoRequest s fun r => (ph r).role)
    (hpc : s.backends b = .asking .wait ∨ ∃ r, s.backends b = .holding r .freeWait) :
    s.status = .done := by
  have hcrit : (s.backends b).Critical := (hi.control.critical b).2 hl
  obtain ⟨-, hh⟩ := hi.control.holder rfl hcrit
  rcases hpc with hpc | ⟨r, hpc⟩ <;> rw [hpc] at hh
  · rcases hh with ⟨hget, -⟩ | ⟨hdone, -⟩
    · exact absurd hget hno.get
    · exact hdone
  · rcases hh with ⟨hfree, -⟩ | ⟨hdone, -⟩
    · exact absurd hfree hno.free
    · exact hdone

/-- The server comes nearer to the answer to `SHM_GET`. -/
theorem Asked.nearer {ρ : Region → Role} (ha : Asked s ρ b) :
    sectionRank (serverStep s) (.asking .wait) < sectionRank s (.asking .wait) := by
  obtain ⟨hs, ⟨-, hsearch⟩ | ⟨hsv, -⟩⟩ := ha
  · generalize hsv : s.server = sv at hsearch
    cases hsearch with
    | poll => simp [sectionRank, serverStep, hsv, hs, getRank, maxRegionNum]
    | poll2 => simp [sectionRank, serverStep, hsv, hs, getRank]
    | scan i _ =>
      by_cases hi : i < maxRegionNum
      · by_cases hbit : getBit s.bitmap i = 0#32
        · simp [sectionRank, serverStep, hsv, hs, getRank, hi, hbit]
          omega
        · simp [sectionRank, serverStep, hsv, hs, getRank, hi, hbit]
          omega
      · simp [sectionRank, serverStep, hsv, hs, getRank, hi]
        omega
    | setBit r _ => simp [sectionRank, serverStep, hsv, hs, getRank]
    | setRet r _ => simp [sectionRank, serverStep, hsv, hs, getRank]
    | fork _ => simp [sectionRank, serverStep, hsv, hs, getRank, State.log]
  · simp [sectionRank, serverStep, hsv, hs, getRank]

/-- The server comes nearer to the answer to `SHM_FREE`, up to its wait for the child. -/
theorem Freeing.nearer {ρ : Region → Role} (hf : Freeing ρ b r s.server) (hs : s.status = .free)
    (hw : ∀ r', s.server ≠ .freeWait r') : sectionRank (serverStep s) (.holding r .freeWait) <
      sectionRank s (.holding r .freeWait) := by
  generalize hsv : s.server = sv at hf
  cases hf with
  | poll => simp [sectionRank, serverStep, hsv, hs, freeRank]
  | poll2 => simp [sectionRank, serverStep, hsv, hs, freeRank]
  | freeRead => simp [sectionRank, serverStep, hsv, hs, freeRank]
  | freeExit =>
    simp [sectionRank, serverStep, hsv, hs, freeRank, State.log, State.setStatus]
  | freeAssert =>
    by_cases hbit : getBit s.bitmap r = 1#32 <;>
      simp [sectionRank, serverStep, hsv, hs, freeRank, hbit]
  | freeClear =>
    have hle : ∀ c : Option (Child h), exitRank c < 23 := by
      intro c
      unfold exitRank
      split <;> decide
    simpa [sectionRank, serverStep, hsv, hs, freeRank, exitOf] using hle _
  | freeWait => exact absurd hsv (hw r)
  | setDone => simp [sectionRank, serverStep, hsv, hs, freeRank]

/-- The server answers the backend that waits for it. -/
theorem Inv.section_server (hi : Inv s ph) (hl : s.lock = some b) (ht : s.backends b ≠ .timedOut) :
    SectionNext s (serverStep s) b .server := by
  obtain ⟨hlock, hbk⟩ := serverStep_eq s
  have hb := congrFun hbk b
  -- the server comes nearer to the answer
  have hnear : sectionRank (serverStep s) (s.backends b) < sectionRank s (s.backends b) →
      SectionNext s (serverStep s) b .server :=
    fun hlt => .inr ⟨hlock.trans hl, by rw [hb], .inl (by rw [hb]; exact hlt)⟩
  rcases hi.control.stage.request with hno | ⟨b', hl', hw, hask⟩ | ⟨b', r, hl', hb', hs, -, hf⟩
  · -- nobody waits for the server
    have hdone := hi.answered_of_noRequest hl hno
    have hstep : (serverStep s).status = s.status ∧ (serverStep s).childPids = s.childPids := by
      unfold serverStep
      rcases hno.idle with hsv | hsv <;> rw [hsv] <;> exact ⟨rfl, rfl⟩
    refine sectionNext_of_same hl hlock hstep.1 (fun hpc hn => absurd (hdone hpc) hn) hstep.2 hb
      (fun r hpc hn => absurd (hdone (.inr ⟨r, hpc⟩)) hn) ?_
    unfold sectionTurn
    split
    · rename_i hpc
      rw [if_pos (hdone (.inl hpc))]
      rintro ⟨⟩
    · rename_i r hpc
      rw [if_pos (hdone (.inr ⟨r, hpc⟩))]
      rintro ⟨⟩
    · rintro ⟨⟩
  · cases hl.symm.trans hl'
    have hpc : s.backends b = .asking .wait := by
      generalize s.backends b = pc at hw ht
      cases hw with
      | wait => rfl
      | timedOut => exact absurd rfl ht
    exact hnear (hpc ▸ hask.nearer)
  · cases hl.symm.trans hl'
    by_cases hwait : ∃ r', s.server = .freeWait r'
    · obtain ⟨r', hsv⟩ := hwait
      obtain ⟨c, hch, hc⟩ := hi.leaving_child hb' hsv
      have hrr : r' = r := by
        rw [hsv] at hf
        cases hf
        rfl
      subst hrr
      have hexit : exitOf s r' = exitRank (some ⟨r', c⟩) := by rw [exitOf, hsv, hch]
      by_cases hdead : c = .exited
      · -- the child has exited
        refine hnear ?_
        subst hdead
        rw [hb']
        simp [sectionRank, serverStep, hsv, hs, hch, freeRank, hexit, exitRank, State.log]
      · -- the server waits for the child
        have hstep : serverStep s = s := by
          rcases hc with ⟨hidle, -⟩ | rfl | rfl | rfl
          · cases hidle <;> simp [serverStep, hsv, hch]
          · simp [serverStep, hsv, hch]
          · simp [serverStep, hsv, hch]
          · exact absurd rfl hdead
        rw [hstep]
        refine sectionNext_of_same hl rfl rfl (fun _ _ => rfl) rfl rfl (fun _ _ _ => rfl) ?_
        have hless : 18 < exitOf s r' := by
          rw [hexit]
          rcases hc with ⟨hidle, -⟩ | rfl | rfl | rfl
          · cases hidle <;> simp [exitRank]
          · simp [exitRank]
          · simp [exitRank]
          · exact absurd rfl hdead
        rw [hb', sectionTurn, if_neg (by rw [hs]; rintro ⟨⟩), if_pos hless]
        rintro ⟨⟩
    · exact hnear (hb' ▸ hf.nearer hs fun r' hsv => hwait ⟨r', hsv⟩)

/-- A child that has been told to exit comes nearer to its end. -/
theorem exitRank_childStep {pid : ℕ} (seed : ℕ) {c : ChildPc h}
    (hch : s.children pid = some ⟨r, c⟩)
    (hc : (c.Idle ∧ (s.regions r).status = .exit) ∨ c = .exiting ∨ c = .leaving) :
    exitRank ((childStep s pid seed).children pid) < exitRank (s.children pid) := by
  rcases hc with ⟨hidle, hexit⟩ | rfl | rfl
  · cases hidle with
    | poll | poll2 => simp [childStep, hch, childRun, hexit, State.childGoto, exitRank]
  · simp [childStep, hch, childRun, State.childGoto, exitRank]
  · simp [childStep, hch, childRun, State.childGoto, exitRank]

/-- The child that is told to exit moves when it has to. -/
theorem Inv.section_child (hi : Inv s ph) (hl : s.lock = some b) (pid seed : ℕ) :
    SectionNext s (childStep s pid seed) b (.child pid) := by
  obtain ⟨rs, es, x, heq, -⟩ := childStep_eq s pid seed
  by_cases hwait : ∃ r r', s.backends b = .holding r .freeWait ∧ s.status ≠ .done ∧
      s.server = .freeWait r' ∧ s.childPids r = pid
  · obtain ⟨r, r', hb, hdone, hsv, rfl⟩ := hwait
    obtain ⟨c, hch, hc⟩ := hi.leaving_child hb hsv
    by_cases hdead : c = .exited
    · subst hdead
      have hstep : childStep s (s.childPids r) seed = s := by simp [childStep, hch, childRun]
      rw [hstep]
      refine sectionNext_of_same hl rfl rfl (fun _ _ => rfl) rfl rfl (fun _ _ _ => rfl) ?_
      rw [hb, sectionTurn, if_neg hdone, if_neg]
      · rintro ⟨⟩
      · simp [exitOf, hsv, hch, exitRank]
    · have hnear := exitRank_childStep seed hch (by simpa [hdead] using hc)
      have hb' : (childStep s (s.childPids r) seed).backends b = .holding r .freeWait := by
        rw [heq]
        exact hb
      refine .inr ⟨by rw [heq]; exact hl, by rw [hb', hb], .inl ?_⟩
      rw [hb', hb, sectionRank, sectionRank]
      rw [heq] at hnear ⊢
      simpa [hdone, hsv, freeRank, exitOf] using hnear
  · have hnot : ∀ r r', s.backends b = .holding r .freeWait → s.status ≠ .done →
        s.server = .freeWait r' → s.childPids r ≠ pid :=
      fun r r' hb hdone hsv hpid => hwait ⟨r, r', hb, hdone, hsv, hpid⟩
    rw [heq]
    refine sectionNext_of_same hl rfl rfl (fun _ _ => rfl) rfl rfl (fun r hb hdone => ?_) ?_
    · cases hsv : s.server with
      | freeWait r' => simp only [exitOf, hsv, Function.update_of_ne (hnot r r' hb hdone hsv)]
      | _ => simp only [exitOf, hsv]
    · unfold sectionTurn
      split
      · split_ifs <;> rintro ⟨⟩
      · rename_i r hb
        split_ifs with hdone hless
        · rintro ⟨⟩
        · rintro ⟨⟩
          unfold exitOf at hless
          split at hless
          · rename_i hsv
            exact hnot r _ hb hdone hsv rfl
          · omega
        · rintro ⟨⟩
      · rintro ⟨⟩

/-- **Inside the lock somebody always moves.** -/
theorem Inv.section_step (hi : Inv s ph) (hl : s.lock = some b) (ht : s.backends b ≠ .timedOut)
    (l : Label) (hp : ∀ b, l ≠ .backend b .timeout) :
    SectionNext s (SharedMemory.step s l) b l.process := by
  cases l with
  | server => exact hi.section_server hl ht
  | child pid seed => exact hi.section_child hl pid seed
  | backend b' c =>
    have hc : c ≠ .timeout := fun hc => hp b' (by rw [hc])
    by_cases hb : b' = b
    · subst hb
      exact hi.section_own hl ht hc
    · exact hi.section_other hl hb c

end SharedMemory

end HEDB
