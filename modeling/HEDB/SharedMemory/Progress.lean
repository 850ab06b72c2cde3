import HEDB.Foundations.Liveness
import HEDB.SharedMemory.Sections
import HEDB.SharedMemory.Serving
import HEDB.SharedMemory.Sessions

/-!
# Calls return

The lock of the shared memory is a spin lock: whoever finds it free takes it, and nothing says that
a backend that waits for it ever does. But a backend takes it twice in its life, to get its region
and to give it back. So when there are finitely many backends, every one of them gets its turn, and
in a fair run in which no fork fails all calls return (`calls_return`): the constructor of
`TEEInvoker`, `sendRequest` and the destructor.

* A backend that has the lock releases it (`FairSchedule.releases`).
* A backend that waits for the lock sees it released, or taken by somebody who takes it one time
  less (`FairSchedule.acquires`).
* A request is served by the child of its region, whose handler ends (`FairSchedule.serves`).
-/

namespace HEDB

namespace SharedMemory

variable {h : Handler} {s : State h} {ph : Region → Phase} {b : ℕ} {r : Region}

/-! ## Waiting for the lock -/

/-- How often a backend will still take the lock, at most. -/
def acquisitions : BackendPc → ℕ
  | .init => 2
  | .asking _ => 1
  | .holding _ p =>
    match p with
    | .freeLocked | .freeId | .freePost | .freeWait | .freeReset | .freeUnlock => 0
    | _ => 1
  | _ => 0

/-- A backend that is about to take the lock. -/
def BackendPc.Spins (pc : BackendPc) : Prop := pc = .init ∨ ∃ r, pc = .holding r .freeLock

/-- What a step of a backend that does not give up does to its own turns. -/
structure OwnStep (s s' : State h) (b : ℕ) : Prop where
  patient : s'.backends b ≠ .timedOut
  acquisitions_le : acquisitions (s'.backends b) ≤ acquisitions (s.backends b)
  lock : s.lock = none → s'.lock = none ∨
    s'.lock = some b ∧ acquisitions (s'.backends b) < acquisitions (s.backends b)

theorem ownStep (ht : s.backends b ≠ .timedOut) {c : Choice} (hc : c ≠ .timeout) :
    OwnStep s (backendStep s b c) b := by
  have hsame : OwnStep s s b := ⟨ht, le_rfl, .inl⟩
  have hgoto : ∀ (s' : State h) (pc : BackendPc), pc ≠ .timedOut →
      acquisitions pc ≤ acquisitions (s.backends b) → (s.lock = none → s'.lock = none) →
      OwnStep s (s'.goto b pc) b := by
    intro s' pc hpc hle hl
    have hself : (s'.goto b pc).backends b = pc := Function.update_self ..
    exact ⟨by rwa [hself], by rwa [hself], fun hnone => .inl (hl hnone)⟩
  have htake : ∀ pc : BackendPc, pc ≠ .timedOut →
      acquisitions pc < acquisitions (s.backends b) →
      OwnStep s ({ s with lock := some b }.goto b pc) b := by
    intro pc hpc hlt
    have hself : ({ s with lock := some b }.goto b pc).backends b = pc := Function.update_self ..
    exact ⟨by rwa [hself], by rw [hself]; exact hlt.le, fun _ => .inr ⟨rfl, by rwa [hself]⟩⟩
  unfold backendStep
  generalize s.backends b = pc at hgoto htake ht
  cases pc with
  | init =>
    dsimp only
    split_ifs
    · exact htake _ (by rintro ⟨⟩) (by decide)
    · exact hsame
  | asking p =>
    cases p with
    | locked =>
      simp only [askStep]
      split_ifs
      · exact hgoto _ _ (by rintro ⟨⟩) (by decide) id
      · exact hgoto _ _ (by rintro ⟨⟩) (by decide) id
    | post => exact hgoto _ _ (by rintro ⟨⟩) (by decide) id
    | wait =>
      have hstep : askStep s b c .wait =
          if s.status = .done then s.goto b (.asking .read) else s := by
        cases c <;> first | rfl | exact absurd rfl hc
      simp only [hstep]
      split_ifs
      · exact hgoto _ _ (by rintro ⟨⟩) (by decide) id
      · exact hsame
    | read => exact hgoto _ _ (by rintro ⟨⟩) le_rfl id
  | holding r p =>
    cases p with
    | getUnlock => exact hgoto _ _ (by rintro ⟨⟩) le_rfl fun _ => rfl
    | ready =>
      cases c with
      | send q => exact hgoto _ _ (by rintro ⟨⟩) le_rfl id
      | free => exact hgoto _ _ (by rintro ⟨⟩) le_rfl id
      | _ => exact hsame
    | serialize q ws => cases ws <;> exact hgoto _ _ (by rintro ⟨⟩) le_rfl id
    | waitDone q | freeWait =>
      simp only [holdStep]
      split_ifs
      · exact hgoto _ _ (by rintro ⟨⟩) le_rfl id
      · exact hsame
    | freeLock =>
      simp only [holdStep]
      split_ifs
      · exact htake _ (by rintro ⟨⟩) Nat.one_pos
      · exact hsame
    | freeLocked =>
      simp only [holdStep]
      split_ifs
      · exact hgoto _ _ (by rintro ⟨⟩) le_rfl id
      · exact hgoto _ _ (by rintro ⟨⟩) le_rfl id
    | freeUnlock => exact hgoto _ _ (by rintro ⟨⟩) le_rfl fun _ => rfl
    | _ => exact hgoto _ _ (by rintro ⟨⟩) le_rfl id
  | gone => exact hsame
  | timedOut => exact absurd rfl ht
  | aborted => exact hsame

/-! ## Fair runs -/

/-- A fair schedule of the backends `B`, none of which gives up waiting for a region. -/
structure FairSchedule (B : Finset ℕ) (sched : ℕ → Label) : Prop where
  server : FairTo (fun n => (sched n).process) .server
  child : ∀ pid, FairTo (fun n => (sched n).process) (.child pid)
  backend : ∀ b ∈ B, FairTo (fun n => (sched n).process) (.backend b)
  only : ∀ n b c, sched n = .backend b c → b ∈ B
  patient : ∀ n b, sched n ≠ .backend b .timeout

/-- What holds at all times of such a run. -/
structure Live (B : Finset ℕ) (s : State h) : Prop where
  inv : ∃ ph, Inv s ph
  others : ∀ b ∉ B, s.backends b = .init
  patient : ∀ b, s.backends b ≠ .timedOut

variable {B : Finset ℕ}

theorem Live.atMost (hs : Live B s) (hB : B.card ≤ maxRegionNum) : s.AtMost := by
  intro t ht
  refine (Finset.card_le_card fun b hb => ?_).trans hB
  by_contra hn
  exact (ht b hb).1 (hs.others b hn)

theorem Live.step (hs : Live B s) (hB : B.card ≤ maxRegionNum) {l : Label}
    (honly : ∀ b c, l = .backend b c → b ∈ B) (hp : ∀ b, l ≠ .backend b .timeout) :
    Live B (SharedMemory.step s l) := by
  obtain ⟨ph, hi⟩ := hs.inv
  refine ⟨hi.step_of_atMost (hs.atMost hB) l, fun b hb => ?_, fun b => ?_⟩
  · rw [step_backends s, hs.others b hb]
    intro hl
    cases l with
    | backend b' c =>
      cases hl
      exact hb (honly b c rfl)
    | _ => cases hl
  · by_cases hl : l.process = .backend b
    · cases l with
      | backend b' c =>
        cases hl
        exact (ownStep (hs.patient b) fun hc => hp b (by rw [hc])).patient
      | _ => cases hl
    · rw [step_backends s hl]
      exact hs.patient b

section Runs

variable {sched : ℕ → Label}

theorem FairSchedule.live (hsched : FairSchedule B sched) (hB : B.card ≤ maxRegionNum) (n : ℕ) :
    Live B (trace step (State.start h) sched n) := by
  induction n with
  | zero => exact ⟨⟨_, inv_start h⟩, fun _ _ => rfl, fun _ => by rintro ⟨⟩⟩
  | succ n ih => exact ih.step hB (hsched.only n) (hsched.patient n)

/-- The process that backend `b` waits for is scheduled again and again. -/
theorem FairSchedule.fair_turn (hsched : FairSchedule B sched) (hb : b ∈ B) (pc : BackendPc) :
    FairTo (fun n => (sched n).process) (sectionTurn s b pc) := by
  unfold sectionTurn
  split
  · split_ifs
    · exact hsched.backend b hb
    · exact hsched.server
  · split_ifs
    · exact hsched.backend b hb
    · exact hsched.child _
    · exact hsched.server
  · exact hsched.backend b hb

/-- A backend that has the lock takes part. -/
theorem Live.mem (hs : Live B s) (hl : s.lock = some b) : b ∈ B := by
  obtain ⟨ph, hi⟩ := hs.inv
  by_contra hn
  have hcrit := (hi.control.critical b).2 hl
  rw [hs.others b hn] at hcrit
  exact hcrit

/-- **The lock is released.** -/
theorem FairSchedule.releases (hsched : FairSchedule B sched) (hB : B.card ≤ maxRegionNum)
    (hb : b ∈ B) (P : Prop) : LeadsTo (trace step (State.start h) sched)
      (fun s => s.lock = some b ∧ ((s.backends b).Getting ↔ P)) fun s => (s.backends b).Out P := by
  refine leadsTo_of_rank (fun n => (sched n).process)
    (fun s => sectionRank s (s.backends b)) (fun s => sectionTurn s b (s.backends b))
    (fun n _ => hsched.fair_turn hb _) ?_
  rintro n ⟨hl, hP⟩
  have hlive := hsched.live (h := h) hB n
  obtain ⟨ph, hi⟩ := hlive.inv
  rcases hi.section_step hl (hlive.patient b) (sched n) (hsched.patient n) with
    ⟨-, hout⟩ | ⟨hl', hget, hnext⟩
  · refine .inl ?_
    rw [← propext hP]
    exact hout
  · exact .inr ⟨⟨hl', hget.trans hP⟩, hnext⟩

/-- How often the lock will still be taken, at most. -/
def totalAcquisitions (B : Finset ℕ) (s : State h) : ℕ := ∑ b ∈ B, acquisitions (s.backends b)

/-- How far the lock is from being free. -/
def lockRank (s : State h) : ℕ :=
  match s.lock with
  | none => 0
  | some b => sectionRank s (s.backends b)

/-- The process that has to move for backend `b` to get the lock. -/
def lockTurn (b : ℕ) (s : State h) : Process :=
  match s.lock with
  | none => .backend b
  | some b' => sectionTurn s b' (s.backends b')

theorem sectionRank_pos (s : State h) (pc : BackendPc) : 0 < sectionRank s pc := by
  have hget : ∀ sv, 0 < getRank sv := by
    intro sv
    unfold getRank
    split <;> omega
  have hexit : ∀ c : Option (Child h), 0 < exitRank c := by
    intro c
    unfold exitRank
    split <;> omega
  have hfree : ∀ r, 0 < freeRank (exitOf s r) s.server := by
    intro r
    cases hsv : s.server with
    | freeWait r' => simpa [freeRank, exitOf, hsv] using hexit _
    | _ => simp [freeRank]
  unfold sectionRank
  split <;> first | omega | (split_ifs; omega; first | exact hget _ | exact hfree _)

/-- A step that is not a timeout. -/
theorem acquisitions_step_le (hs : Live B s) {l : Label} (hp : ∀ b, l ≠ .backend b .timeout)
    (b : ℕ) : acquisitions ((step s l).backends b) ≤ acquisitions (s.backends b) := by
  by_cases hl : l.process = .backend b
  · cases l with
    | backend b' c =>
      cases hl
      exact (ownStep (hs.patient b) fun hc => hp b (by rw [hc])).acquisitions_le
    | _ => cases hl
  · rw [step_backends s hl]

/-- The lock is free, and another process than backend `b` makes a step: the lock stays free, or is
taken by a backend that takes it one time less. -/
theorem Live.step_unlocked (hs : Live B s) {l : Label} (honly : ∀ b c, l = .backend b c → b ∈ B)
    (hp : ∀ b, l ≠ .backend b .timeout) (hl : s.lock = none) :
    (SharedMemory.step s l).lock = none ∨
      totalAcquisitions B (SharedMemory.step s l) < totalAcquisitions B s := by
  cases l with
  | server => exact .inl ((serverStep_eq s).1.trans hl)
  | child pid seed =>
    obtain ⟨rs, es, c, heq, -⟩ := childStep_eq s pid seed
    rw [SharedMemory.step, heq]
    exact .inl hl
  | backend b c =>
    rcases (ownStep (c := c) (hs.patient b) fun hc => hp b (by rw [hc])).lock hl with
      hnone | ⟨-, hlt⟩
    · exact .inl hnone
    · exact .inr (Finset.sum_lt_sum (fun b' _ => acquisitions_step_le hs hp b')
        ⟨b, honly b c rfl, hlt⟩)

/-- **The lock is obtained.** -/
theorem FairSchedule.acquires (hsched : FairSchedule B sched) (hB : B.card ≤ maxRegionNum)
    (hb : b ∈ B) {pc : BackendPc} (hpc : pc.Spins) : LeadsTo (trace step (State.start h) sched)
      (fun s => s.backends b = pc)
      fun s => s.lock = some b ∧ ((s.backends b).Getting ↔ pc = .init) := by
  have hncrit : ¬ pc.Critical := by
    rcases hpc with rfl | ⟨r, rfl⟩ <;> exact id
  refine leadsTo_of_rank (fun n => (sched n).process)
    (fun s => toLex (totalAcquisitions B s, lockRank s)) (lockTurn b) ?_ ?_
  · intro n _
    unfold lockTurn
    split
    · exact hsched.backend b hb
    · rename_i b' hl
      exact hsched.fair_turn ((hsched.live hB n).mem hl) _
  · intro n hn
    have hlive := hsched.live (h := h) hB n
    obtain ⟨ph, hi⟩ := hlive.inv
    rw [trace]
    generalize trace step (State.start h) sched n = s at hn hlive hi
    have hle : totalAcquisitions B (step s (sched n)) ≤ totalAcquisitions B s :=
      Finset.sum_le_sum fun b' _ => acquisitions_step_le hlive (hsched.patient n) b'
    -- who takes the lock or comes nearer to releasing it lowers the rank
    have hlex : lockRank (step s (sched n)) < lockRank s ∨
        lockRank (step s (sched n)) = lockRank s ∧
          lockTurn b (step s (sched n)) = lockTurn b s ∧ (sched n).process ≠ lockTurn b s →
        toLex (totalAcquisitions B (step s (sched n)), lockRank (step s (sched n))) <
            toLex (totalAcquisitions B s, lockRank s) ∨
          toLex (totalAcquisitions B (step s (sched n)), lockRank (step s (sched n))) =
            toLex (totalAcquisitions B s, lockRank s) ∧
          lockTurn b (step s (sched n)) = lockTurn b s ∧ (sched n).process ≠ lockTurn b s := by
      rintro (hlt | ⟨heq, hturn⟩)
      · exact .inl (Prod.Lex.toLex_lt_toLex'.2 ⟨hle, fun _ => hlt⟩)
      · rcases hle.lt_or_eq with hless | hsame
        · exact .inl (Prod.Lex.toLex_lt_toLex.2 (.inl hless))
        · exact .inr ⟨by rw [hsame, heq], hturn⟩
    cases hl : s.lock with
    | none =>
      by_cases hself : (sched n).process = .backend b
      · refine .inl ?_
        cases hc : sched n with
        | backend b' c =>
          rw [hc] at hself
          cases hself
          rcases hpc with rfl | ⟨r, rfl⟩
          · simp [step, backendStep, hn, hl, State.goto, BackendPc.Getting]
          · simp [step, backendStep, hn, hl, holdStep, State.goto, BackendPc.Getting]
        | _ => rw [hc] at hself; cases hself
      · refine .inr ⟨by rw [step_backends s hself, hn], ?_⟩
        rcases hlive.step_unlocked (hsched.only n) (hsched.patient n) hl with hnone | hless
        · exact hlex (.inr ⟨by simp [lockRank, hl, hnone], by simp [lockTurn, hl, hnone],
            by simpa [lockTurn, hl] using hself⟩)
        · exact .inl (Prod.Lex.toLex_lt_toLex.2 (.inl hless))
    | some b' =>
      have hbb : b ≠ b' := by
        rintro rfl
        exact hncrit (hn ▸ (hi.control.critical b).2 hl)
      by_cases hself : (sched n).process = .backend b
      · -- the backend spins
        have hspin : step s (sched n) = s := by
          cases hc : sched n with
          | backend b'' c =>
            rw [hc] at hself
            cases hself
            rcases hpc with rfl | ⟨r, rfl⟩
            · simp [step, backendStep, hn, hl]
            · simp [step, backendStep, hn, hl, holdStep]
          | _ => rw [hc] at hself; cases hself
        rw [hspin, hself, lockTurn, hl]
        exact .inr ⟨hn, .inr ⟨rfl, rfl, (sectionTurn_ne_backend hbb _).symm⟩⟩
      · refine .inr ⟨by rw [step_backends s hself, hn], hlex ?_⟩
        rcases hi.section_step hl (hlive.patient b') (sched n) (hsched.patient n) with
          ⟨hnone, -⟩ | ⟨hl', -, hnext⟩
        · exact .inl (by simpa [lockRank, hl, hnone] using sectionRank_pos s _)
        · simpa [lockRank, lockTurn, hl, hl'] using hnext

/-- How far backend `b` is from the end of its call in region `r`. -/
noncomputable def callRank (b : ℕ) (r : Region) (s : State h) : ℕ ×ₗ ℕ :=
  match s.backends b with
  | .holding _ p => requestRank s r p
  | _ => toLex (0, 0)

/-- The process that has to move in the call. -/
def callTurn (b : ℕ) (r : Region) (s : State h) : Process :=
  match s.backends b with
  | .holding _ p => requestTurn s b r p
  | _ => .backend b

/-- **A call that needs no lock ends.** -/
theorem FairSchedule.serves (hsched : FairSchedule B sched) (hB : B.card ≤ maxRegionNum)
    (hterm : h.Terminates) (hb : b ∈ B) (r : Region) : LeadsTo (trace step (State.start h) sched)
      (fun s => ∃ p, s.backends b = .holding r p ∧ p.Inside ∧ p ≠ .ready)
      fun s => s.backends b = .holding r .ready := by
  refine leadsTo_of_rank (fun n => (sched n).process) (callRank b r) (callTurn b r) ?_ ?_
  · intro n _
    unfold callTurn requestTurn
    split
    · split
      · split_ifs
        · exact hsched.backend b hb
        · exact hsched.child _
      · exact hsched.backend b hb
    · exact hsched.backend b hb
  · rintro n ⟨p, hn, hp, hne⟩
    obtain ⟨ph, hi⟩ := (hsched.live (h := h) hB n).inv
    rcases hi.request_step hterm hn hp hne (sched n) with hready | ⟨p', hn', hp', hne', hnext⟩
    · exact .inl hready
    · refine .inr ⟨⟨p', hn', hp', hne'⟩, ?_⟩
      simp only [callRank, callTurn, hn]
      rw [trace]
      simp only [hn']
      exact hnext

end Runs

/-- What a run of `step` leads to, a run in which no fork fails leads to. -/
theorem Forking.leadsTo {sched : ℕ → Kernel × Label}
    (hforks : ∀ n, ¬ (trace Forking.step (Forking.start h) sched n).Fails (sched n))
    {P Q : State h → Prop}
    (hpq : LeadsTo (trace SharedMemory.step (State.start h) fun n => (sched n).2) P Q) :
    LeadsTo (trace Forking.step (Forking.start h) sched) (fun f => P f.state)
      fun f => Q f.state := by
  intro n hn
  rw [trace_eq hforks n] at hn
  obtain ⟨m, hm, hq⟩ := hpq n hn
  refine ⟨m, hm, ?_⟩
  rwa [trace_eq hforks m]

/-- **Calls return.** In a fair run of finitely many backends, no more than there are regions, none
of which gives up, with a handler that terminates and no fork that fails: a backend that constructs
its `TEEInvoker` gets a region, a request is answered, and a backend that destroys its `TEEInvoker`
gives its region back. -/
theorem calls_return (h : Handler) (hterm : h.Terminates) (B : Finset ℕ)
    (hB : B.card ≤ maxRegionNum) (sched : ℕ → Kernel × Label)
    (hsched : FairSchedule B fun n => (sched n).2)
    (hforks : ∀ n, ¬ (trace Forking.step (Forking.start h) sched n).Fails (sched n)) :
    ∀ b ∈ B,
      LeadsTo (trace Forking.step (Forking.start h) sched)
        (fun f => f.state.backends b = .init)
        (fun f => ∃ r, f.state.backends b = .holding r .ready) ∧
      (∀ r q ws, LeadsTo (trace Forking.step (Forking.start h) sched)
        (fun f => f.state.backends b = .holding r (.serialize q ws))
        (fun f => f.state.backends b = .holding r .ready)) ∧
      ∀ r, LeadsTo (trace Forking.step (Forking.start h) sched)
        (fun f => f.state.backends b = .holding r .freeLock)
        (fun f => f.state.backends b = .gone) := by
  intro b hb
  refine ⟨?_, fun r q ws => ?_, fun r => ?_⟩
  · have hget := (hsched.acquires (h := h) hB hb (.inl rfl)).trans
      (hsched.releases hB hb (BackendPc.init = .init))
    refine (Forking.leadsTo hforks hget).trans fun n hn => ?_
    obtain ⟨r, hr⟩ := hn.1 rfl
    obtain ⟨m, hnm, hm⟩ := Forking.leadsTo hforks (hsched.serves hB hterm hb r) n
      ⟨.ctor, hr, .ctor, by rintro ⟨⟩⟩
    exact ⟨m, hnm, r, hm⟩
  · exact (Forking.leadsTo hforks (hsched.serves hB hterm hb r)).mono
      (fun f hf => ⟨_, hf, .serialize q ws, by rintro ⟨⟩⟩) fun _ => id
  · have hfree := (hsched.acquires (h := h) hB hb (.inr ⟨r, rfl⟩)).trans
      (hsched.releases hB hb (BackendPc.holding r .freeLock = .init))
    exact (Forking.leadsTo hforks hfree).mono (fun _ => id) fun f hf => hf.2 (by rintro ⟨⟩)

/-- A fair schedule of one backend, which sends a request whenever it can. -/
theorem exists_fairSchedule (q : Request) : ∃ sched, FairSchedule {0} sched ∧
    ∀ n, (sched n).process = .backend 0 → sched n = .backend 0 (.send q) := by
  obtain ⟨turns, hturns⟩ := exists_fair (Option (Option ℕ))
  -- the server, backend 0 and the children
  let label : Option (Option ℕ) → Label
    | none => .server
    | some none => .backend 0 (.send q)
    | some (some pid) => .child pid 0
  refine ⟨fun n => label (turns n), ⟨fun n => ?_, fun pid n => ?_, fun b hb n => ?_,
    fun n b c hc => ?_, fun n b hc => ?_⟩, fun n hn => ?_⟩
  · obtain ⟨m, hm, ht⟩ := hturns none n
    exact ⟨m, hm, by simp only [ht]; rfl⟩
  · obtain ⟨m, hm, ht⟩ := hturns (some (some pid)) n
    exact ⟨m, hm, by simp only [ht]; rfl⟩
  · obtain ⟨m, hm, ht⟩ := hturns (some none) n
    rw [Finset.mem_singleton.1 hb]
    exact ⟨m, hm, by simp only [ht]; rfl⟩
  · rcases ht : turns n with _ | _ | pid <;> simp only [ht, label] at hc
    · cases hc
    · cases hc
      exact Finset.mem_singleton_self 0
    · cases hc
  · rcases ht : turns n with _ | _ | pid <;> simp only [ht, label] at hc <;> cases hc
  · rcases ht : turns n with _ | _ | pid
    · simp only [ht, label] at hn
      cases hn
    · simp only [ht, label]
    · simp only [ht, label] at hn
      cases hn

/-- A backend that sends a request whenever it can sends one when it is ready. -/
theorem FairSchedule.sends {sched : ℕ → Label} {q : Request} (hsched : FairSchedule B sched)
    (hb : b ∈ B) (hsend : ∀ n, (sched n).process = .backend b → sched n = .backend b (.send q))
    (r : Region) : LeadsTo (trace step (State.start h) sched)
      (fun s => s.backends b = .holding r .ready)
      fun s => s.backends b = .holding r (.serialize q q.writes) := by
  refine leadsTo_of_rank (fun n => (sched n).process) (fun _ => 0) (fun _ => .backend b)
    (fun _ _ => hsched.backend b hb) fun n hn => ?_
  rw [trace]
  by_cases hself : (sched n).process = .backend b
  · refine .inl ?_
    rw [hsend n hself]
    simp [step, backendStep, hn, holdStep, State.goto, State.log]
  · exact .inr ⟨(step_backends _ hself).trans hn, .inr ⟨rfl, rfl, hself⟩⟩

/-- A backend connects, sends a request and has its answer. -/
theorem calls_return_answered : ∃ sched : ℕ → Kernel × Label,
    FairSchedule {0} (fun n => (sched n).2) ∧ (∀ n, (sched n).1.forks = true) ∧
    ∃ (r : Region) (m₁ m₂ : ℕ), m₁ ≤ m₂ ∧
      (trace Forking.step (Forking.start (.returning 0)) sched m₁).state.backends 0 =
        .holding r (.serialize askSum askSum.writes) ∧
      (trace Forking.step (Forking.start (.returning 0)) sched m₂).state.backends 0 =
        .holding r .ready := by
  obtain ⟨labels, hsched, hsend⟩ := exists_fairSchedule askSum
  have hforks : ∀ n, ¬ (trace Forking.step (Forking.start (.returning 0))
      (fun n => (⟨true, 0⟩, labels n)) n).Fails (⟨true, 0⟩, labels n) := fun n =>
    Forking.not_fails_of_forks rfl
  have hzero : 0 ∈ ({0} : Finset ℕ) := Finset.mem_singleton_self 0
  obtain ⟨hconnect, hanswer, -⟩ := calls_return (.returning 0) (terminates_returning 0) {0}
    (by decide) (fun n => (⟨true, 0⟩, labels n)) hsched hforks 0 hzero
  obtain ⟨n, -, r, hn⟩ := hconnect 0 rfl
  obtain ⟨m₁, -, h₁⟩ := Forking.leadsTo hforks (hsched.sends hzero hsend r) n hn
  obtain ⟨m₂, h₁₂, h₂⟩ := hanswer r askSum _ m₁ h₁
  exact ⟨_, hsched, fun _ => rfl, r, m₁, m₂, h₁₂, h₁, h₂⟩

end SharedMemory

end HEDB
