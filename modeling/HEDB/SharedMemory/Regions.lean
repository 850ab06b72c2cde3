import HEDB.SharedMemory.Frames

/-!
# Steps inside a region

The steps of a backend that constructs its `TEEInvoker` or sends requests (`Inv.inside`) and all the
steps of a child (`Inv.child`) are local to a region. For each of them the row of the region before
the step gives the row after it, and the event of the step, if it is one, leads from the phase of
the region to the next.
-/

namespace HEDB

namespace SharedMemory

variable {h : Handler} {s s' : State h} {ph : Region → Phase} {r : Region}

/-! ## A backend in its region -/

/-- The row of the region that a backend works in, as long as the region is not freed. -/
theorem Inv.row_of_holding (hi : Inv s ph) {b : ℕ} {p : HoldPc} (hb : s.backends b = .holding r p)
    (hn : ¬ p.Released) : ∃ φ st m pid c, ph r = φ ∧ s.regions r = ⟨st, m⟩ ∧
      φ.role.owner = some b ∧ φ.role.child = some pid ∧ s.childPids r = pid ∧
      s.children pid = some ⟨r, c⟩ ∧ Row r s.granted φ st m (.holding r p) c := by
  have ho := hi.owner hb hn
  obtain ⟨pid, hc, hpid, c, hch, hrow⟩ := (hi.regions r).served ho
  exact ⟨_, _, _, pid, c, rfl, rfl, ho, hc, hpid, hch, hb ▸ hrow⟩

section Backend

variable {b : ℕ} {p p' : HoldPc}

/-- A backend makes a local step that is not an event. -/
theorem Inv.backend_silent (hi : Inv s ph) (hb : s.backends b = .holding r p) (hn : ¬ p.Released)
    (hl : Local s s' r) (hb' : s'.backends b = .holding r p') (hch : s'.children = s.children)
    (he : s'.events = s.events)
    (hrow : ∀ φ st m (c : ChildPc h), s.regions r = ⟨st, m⟩ →
      Row r s.granted φ st m (.holding r p) c →
      Row r s.granted φ (s'.regions r).status (s'.regions r).mem (.holding r p') c) :
    Inv s' ph := by
  obtain ⟨φ, st, m, pid, c, rfl, hreg, ho, hc, hpid, hpc, hr⟩ := hi.row_of_holding hb hn
  refine hi.of_local hl (.of_row ho hc (by rw [hl.header, hpid]) (hch ▸ hpc) ?_) he
  rw [hb', hl.granted]
  exact hrow _ st m c hreg hr

/-- A backend makes a local step that is an event. -/
theorem Inv.backend_event (hi : Inv s ph) (hb : s.backends b = .holding r p) (hn : ¬ p.Released)
    (hl : Local s s' r) (hb' : s'.backends b = .holding r p') (hch : s'.children = s.children)
    {e : Event} (he : s'.events = Function.update s.events r (s.events r ++ [e]))
    (hrow : ∀ φ st m (c : ChildPc h), s.regions r = ⟨st, m⟩ → φ.role.owner = some b →
      Row r s.granted φ st m (.holding r p) c →
      ∃ φ', Handshake h φ e φ' ∧ φ'.role = φ.role ∧
        Row r s.granted φ' (s'.regions r).status (s'.regions r).mem (.holding r p') c) :
    ∃ ph', Inv s' ph' := by
  obtain ⟨φ, st, m, pid, c, rfl, hreg, ho, hc, hpid, hpc, hr⟩ := hi.row_of_holding hb hn
  obtain ⟨φ', hstep, hrole, hr'⟩ := hrow _ st m c hreg ho hr
  refine ⟨_, hi.of_local_event hl he hstep hrole (.of_row (hrole ▸ ho) (hrole ▸ hc)
    (by rw [hl.header, hpid]) (hch ▸ hpc) ?_)⟩
  rw [hb', hl.granted]
  exact hr'

theorem Inv.ctor (hi : Inv s ph) (hb : s.backends b = .holding r .ctor) :
    Inv ((s.setStatus r .none).goto b (.holding r .ready)) ph := by
  refine hi.backend_silent hb (by rintro ⟨⟩) ((Local.setStatus ..).trans (Local.goto hb id id))
    (Function.update_self ..) rfl rfl ?_
  rintro φ st m c hreg hrow
  simp only [State.goto, State.setStatus, Function.update_self, hreg]
  obtain ⟨hrow, hc⟩ := hrow
  cases hrow with
  | pending hp => cases hp
  | held _ => exact .idle (.held .ready) hc

theorem Inv.send (hi : Inv s ph) (hb : s.backends b = .holding r .ready) (q : Request) :
    ∃ ph', Inv ((s.log r (.begin b q (s.regions r).mem)).goto b
      (.holding r (.serialize q q.writes))) ph' := by
  refine hi.backend_event hb (by rintro ⟨⟩) ((Local.log ..).trans (Local.goto hb id id))
    (Function.update_self ..) rfl rfl ?_
  rintro φ st m c hreg ho hrow
  simp only [State.goto, State.log, hreg]
  obtain ⟨hrow, hc⟩ := hrow
  cases hrow with
  | pending hp => cases hp
  | held _ =>
    cases ho
    exact ⟨_, .begin _ _ q m, rfl, .idle (.serialize rfl) hc⟩

theorem Inv.free (hi : Inv s ph) (hb : s.backends b = .holding r .ready) :
    Inv (s.goto b (.holding r .freeLock)) ph := by
  refine hi.backend_silent hb (by rintro ⟨⟩) (Local.goto hb id id)
    (Function.update_self ..) rfl rfl ?_
  rintro φ st m c hreg hrow
  simp only [State.goto, hreg]
  obtain ⟨hrow, hc⟩ := hrow
  cases hrow with
  | pending hp => cases hp
  | held _ => exact .idle (.held .freeLock) hc

theorem Inv.serialize (hi : Inv s ph) {q : Request} {o : ℕ} {bs : List UInt8}
    {ws : List (ℕ × List UInt8)} (hb : s.backends b = .holding r (.serialize q ((o, bs) :: ws))) :
    Inv ((s.setMem r ((s.regions r).mem.write o bs)).goto b (.holding r (.serialize q ws))) ph := by
  refine hi.backend_silent hb (by rintro ⟨⟩) ((Local.setMem ..).trans (Local.goto hb id id))
    (Function.update_self ..) rfl rfl ?_
  rintro φ st m c hreg hrow
  simp only [State.goto, State.setMem, Function.update_self, hreg]
  obtain ⟨hrow, hc⟩ := hrow
  cases hrow with
  | pending hp => cases hp
  | held hp => cases hp
  | serialize hm => exact .idle (.serialize hm) hc

theorem Inv.post (hi : Inv s ph) {q : Request} (hb : s.backends b = .holding r (.serialize q [])) :
    ∃ ph', Inv (((s.setStatus r .sent).log r (.sent b q (s.regions r).mem)).goto b
      (.holding r (.waitDone q))) ph' := by
  refine hi.backend_event hb (by rintro ⟨⟩)
    (((Local.setStatus ..).trans (Local.log ..)).trans (Local.goto hb id id))
    (Function.update_self ..) rfl rfl ?_
  rintro φ st m c hreg ho hrow
  simp only [State.goto, State.log, State.setStatus, Function.update_self, hreg]
  obtain ⟨hrow, hc⟩ := hrow
  cases hrow with
  | pending hp => cases hp
  | held hp => cases hp
  | serialize hm =>
    cases ho
    rw [show m = _ from hm]
    exact ⟨_, .sent _ _ q _, rfl, .idle (.sent (q.in_serializeTo _)) hc⟩

theorem Inv.see_done (hi : Inv s ph) {q : Request} (hb : s.backends b = .holding r (.waitDone q))
    (hdone : (s.regions r).status = .done) : Inv (s.goto b (.holding r (.copy q))) ph := by
  refine hi.backend_silent hb (by rintro ⟨⟩) (Local.goto hb id id)
    (Function.update_self ..) rfl rfl ?_
  rintro φ st m c hreg hrow
  rw [hreg] at hdone
  cases hdone
  simp only [State.goto, hreg]
  obtain ⟨⟨⟩, hc⟩ := hrow
  exact .idle .copying hc

theorem Inv.copy (hi : Inv s ph) {q : Request} (hb : s.backends b = .holding r (.copy q)) :
    ∃ ph', Inv ((s.log r (.copied b q (s.regions r).mem)).goto b (.holding r (.readResp q)))
      ph' := by
  refine hi.backend_event hb (by rintro ⟨⟩) ((Local.log ..).trans (Local.goto hb id id))
    (Function.update_self ..) rfl rfl ?_
  rintro φ st m c hreg ho hrow
  simp only [State.goto, State.log, hreg]
  obtain ⟨hrow, hc⟩ := hrow
  cases hrow with
  | pending hp => cases hp
  | held hp => cases hp
  | copying =>
    cases ho
    exact ⟨_, .copied _ _ q m, rfl, .idle .copied hc⟩

theorem Inv.readResp (hi : Inv s ph) {q : Request} (hb : s.backends b = .holding r (.readResp q)) :
    ∃ ph', Inv ((s.log r (.resp b q (s.regions r).mem)).goto b (.holding r .reset)) ph' := by
  refine hi.backend_event hb (by rintro ⟨⟩) ((Local.log ..).trans (Local.goto hb id id))
    (Function.update_self ..) rfl rfl ?_
  rintro φ st m c hreg ho hrow
  simp only [State.goto, State.log, hreg]
  obtain ⟨hrow, hc⟩ := hrow
  cases hrow with
  | pending hp => cases hp
  | held hp => cases hp
  | copied =>
    cases ho
    exact ⟨_, .resp _ _ q m, rfl, .idle .reset hc⟩

theorem Inv.reset (hi : Inv s ph) (hb : s.backends b = .holding r .reset) :
    Inv ((s.setStatus r .none).goto b (.holding r .ready)) ph := by
  refine hi.backend_silent hb (by rintro ⟨⟩) ((Local.setStatus ..).trans (Local.goto hb id id))
    (Function.update_self ..) rfl rfl ?_
  rintro φ st m c hreg hrow
  simp only [State.goto, State.setStatus, Function.update_self, hreg]
  obtain ⟨hrow, hc⟩ := hrow
  cases hrow with
  | pending hp => cases hp
  | held hp => cases hp
  | reset => exact .idle (.held .ready) hc

/-- **A backend that works in its region keeps the invariant.** -/
theorem Inv.inside (hi : Inv s ph) (hb : s.backends b = .holding r p) (hp : p.Inside) (c : Choice) :
    ∃ ph', Inv (holdStep s b r c p) ph' := by
  cases hp with
  | ctor => exact ⟨ph, hi.ctor hb⟩
  | ready =>
    cases c with
    | send q => exact hi.send hb q
    | free => exact ⟨ph, hi.free hb⟩
    | go => exact ⟨ph, hi⟩
    | timeout => exact ⟨ph, hi⟩
  | serialize q ws =>
    cases ws with
    | nil => exact hi.post hb
    | cons w ws => exact ⟨ph, hi.serialize hb⟩
  | waitDone q =>
    simp only [holdStep]
    split_ifs with hdone
    · exact ⟨ph, hi.see_done hb hdone⟩
    · exact ⟨ph, hi⟩
  | copy q => exact hi.copy hb
  | readResp q => exact hi.readResp hb
  | reset => exact ⟨ph, hi.reset hb⟩

end Backend

/-! ## A child -/

section Child

variable {pid : ℕ} {c c' : ChildPc h}

/-- The row of the region that a child serves. -/
theorem Inv.row_of_child (hi : Inv s ph) (hch : s.children pid = some ⟨r, c⟩) :
    ∃ φ st m b, ph r = φ ∧ s.regions r = ⟨st, m⟩ ∧ φ.role.owner = some b ∧
      φ.role.child = some pid ∧ s.childPids r = pid ∧
      Row r s.granted φ st m (s.backends b) c := by
  have hc : (ph r).role.child = some pid := hi.control.children pid _ hch
  obtain ⟨b, ho⟩ : ∃ b, (ph r).role.owner = some b := by
    cases hρ : (ph r).role with
    | free => rw [hρ] at hc; cases hc
    | owned b _ => exact ⟨b, rfl⟩
    | closing b _ => exact ⟨b, rfl⟩
  obtain ⟨pid', hc', hpid, d, hd, hrow⟩ := (hi.regions r).served ho
  cases hc.symm.trans hc'
  cases hch.symm.trans hd
  exact ⟨_, _, _, b, rfl, rfl, ho, hc, hpid, hrow⟩

/-- A child makes a step that is not an event. -/
theorem Inv.child_silent (hi : Inv s ph) (hch : s.children pid = some ⟨r, c⟩) (hl : Local s s' r)
    (hch' : s'.children pid = some ⟨r, c'⟩) (hbk : s'.backends = s.backends)
    (he : s'.events = s.events)
    (hrow : ∀ φ st m pc, s.regions r = ⟨st, m⟩ → Row r s.granted φ st m pc c →
      Row r s.granted φ (s'.regions r).status (s'.regions r).mem pc c') : Inv s' ph := by
  obtain ⟨φ, st, m, b, rfl, hreg, ho, hc, hpid, hr⟩ := hi.row_of_child hch
  refine hi.of_local hl (.of_row ho hc (by rw [hl.header, hpid]) hch' ?_) he
  rw [hbk, hl.granted]
  exact hrow _ st m _ hreg hr

/-- A child makes a step that is an event. -/
theorem Inv.child_event (hi : Inv s ph) (hch : s.children pid = some ⟨r, c⟩) (hl : Local s s' r)
    (hch' : s'.children pid = some ⟨r, c'⟩) (hbk : s'.backends = s.backends) {e : Event}
    (he : s'.events = Function.update s.events r (s.events r ++ [e]))
    (hrow : ∀ φ st m pc, s.regions r = ⟨st, m⟩ → φ.role.child = some pid →
      Row r s.granted φ st m pc c →
      ∃ φ', Handshake h φ e φ' ∧ φ'.role = φ.role ∧
        Row r s.granted φ' (s'.regions r).status (s'.regions r).mem pc c') :
    ∃ ph', Inv s' ph' := by
  obtain ⟨φ, st, m, b, rfl, hreg, ho, hc, hpid, hr⟩ := hi.row_of_child hch
  obtain ⟨φ', hstep, hrole, hr'⟩ := hrow _ st m _ hreg hc hr
  refine ⟨_, hi.of_local_event hl he hstep hrole (.of_row (hrole ▸ ho) (hrole ▸ hc)
    (by rw [hl.header, hpid]) hch' ?_)⟩
  rw [hbk, hl.granted]
  exact hr'

/-- A child that polls reads `EXIT` only when the server has told it to exit. -/
theorem Inv.child_poll (hi : Inv s ph) (hch : s.children pid = some ⟨r, .poll⟩) (seed : ℕ) :
    ∃ ph', Inv (childRun s pid r seed .poll) ph' := by
  simp only [childRun]
  split_ifs with hexit
  · refine hi.child_event hch ((Local.log s r _).trans (Local.childGoto (s := s.log r _) hch _))
      (Function.update_self ..) rfl rfl ?_
    rintro φ st m pc hreg hc hrow
    rw [hreg] at hexit
    cases hexit
    simp only [State.childGoto, State.log, hreg]
    obtain ⟨⟨⟩, -⟩ := hrow
    cases hc
    exact ⟨_, .exits _ _, rfl, .leaving⟩
  · refine ⟨ph, hi.child_silent hch (Local.childGoto hch _) (Function.update_self ..) rfl rfl ?_⟩
    rintro φ st m pc hreg ⟨hrow, -⟩
    simp only [State.childGoto, hreg]
    exact .idle hrow .poll2

/-- A child that polls reads `SENT` only when a request has been sent. -/
theorem Inv.child_poll2 (hi : Inv s ph) (hch : s.children pid = some ⟨r, .poll2⟩) (seed : ℕ) :
    Inv (childRun s pid r seed .poll2) ph := by
  simp only [childRun]
  split_ifs with hsent
  · refine hi.child_silent hch (Local.childGoto hch _) (Function.update_self ..) rfl rfl ?_
    rintro φ st m pc hreg ⟨hrow, -⟩
    rw [hreg] at hsent
    cases hsent
    simp only [State.childGoto, hreg]
    cases hrow with
    | sent hq => exact .received hq
  · refine hi.child_silent hch (Local.childGoto hch _) (Function.update_self ..) rfl rfl ?_
    rintro φ st m pc hreg ⟨hrow, -⟩
    simp only [State.childGoto, hreg]
    exact .idle hrow .poll

/-- A request that was sent has a command, so the handler is called, on the bytes that were sent. -/
theorem Inv.child_check (hi : Inv s ph) (hch : s.children pid = some ⟨r, .check⟩) (seed : ℕ) :
    ∃ ph', Inv (childRun s pid r seed .check) ph' := by
  have htype : 0 < (s.regions r).mem.int Layout.reqType := by
    obtain ⟨φ, st, m, b, -, hreg, -, -, -, hrow⟩ := hi.row_of_child hch
    rw [hreg]
    generalize s.backends b = pc at hrow
    cases hrow with
    | idle _ hc => cases hc
    | received hq => exact hq.reqType ▸ Cmd.code_pos _
  simp only [childRun, if_pos htype]
  refine hi.child_event hch ((Local.log s r _).trans (Local.childGoto (s := s.log r _) hch _))
    (Function.update_self ..) rfl rfl ?_
  rintro φ st m pc hreg hc hrow
  simp only [State.childGoto, State.log, hreg]
  cases hrow with
  | idle _ hc => cases hc
  | received hq =>
    cases hc
    exact ⟨_, .start _ _ _ m, rfl, .handling ⟨seed, 0, rfl, by simp⟩⟩

theorem Inv.child_handling (hi : Inv s ph) {l : h.Local}
    (hch : s.children pid = some ⟨r, .handling l⟩) (seed : ℕ) :
    ∃ ph', Inv (childRun s pid r seed (.handling l)) ph' := by
  simp only [childRun]
  split_ifs with hfin
  · refine hi.child_event hch ((Local.log s r _).trans (Local.childGoto (s := s.log r _) hch _))
      (Function.update_self ..) rfl rfl ?_
    rintro φ st m pc hreg hc hrow
    simp only [State.childGoto, State.log, hreg]
    cases hrow with
    | idle _ hc => cases hc
    | handling hat =>
      cases hc
      exact ⟨_, .finish _ _ _ _ m ⟨l, hat, hfin⟩, rfl, .answered⟩
  · refine ⟨ph, hi.child_silent hch ((Local.setMem s r _).trans
      (Local.childGoto (s := s.setMem r _) hch _)) (Function.update_self ..) rfl rfl ?_⟩
    rintro φ st m pc hreg hrow
    simp only [State.childGoto, State.setMem, Function.update_self, hreg]
    cases hrow with
    | idle _ hc => cases hc
    | handling hat =>
      obtain ⟨seed, n, hn, hbefore⟩ := hat
      refine .handling ⟨seed, n + 1, by rw [Function.iterate_succ_apply', hn], fun i hi => ?_⟩
      rcases Nat.lt_succ_iff_lt_or_eq.1 hi with hi | rfl
      · exact hbefore i hi
      · rw [hn]
        exact Bool.eq_false_of_not_eq_true hfin

theorem Inv.child_post (hi : Inv s ph) (hch : s.children pid = some ⟨r, .post⟩) (seed : ℕ) :
    Inv (childRun s pid r seed .post) ph := by
  refine hi.child_silent hch ((Local.setStatus s r _).trans
    (Local.childGoto (s := s.setStatus r _) hch _)) (Function.update_self ..) rfl rfl ?_
  rintro φ st m pc hreg hrow
  simp only [childRun, State.childGoto, State.setStatus, Function.update_self, hreg]
  cases hrow with
  | idle _ hc => cases hc
  | answered => exact .idle .done .poll

theorem Inv.child_exiting (hi : Inv s ph) (hch : s.children pid = some ⟨r, .exiting⟩) (seed : ℕ) :
    Inv (childRun s pid r seed .exiting) ph := by
  refine hi.child_silent hch ((Local.setStatus s r _).trans
    (Local.childGoto (s := s.setStatus r _) hch _)) (Function.update_self ..) rfl rfl ?_
  rintro φ st m pc hreg hrow
  simp only [childRun, State.childGoto, State.setStatus, Function.update_self, hreg]
  cases hrow with
  | idle _ hc => cases hc
  | leaving => exact .cleared

theorem Inv.child_leaving (hi : Inv s ph) (hch : s.children pid = some ⟨r, .leaving⟩) (seed : ℕ) :
    Inv (childRun s pid r seed .leaving) ph := by
  refine hi.child_silent hch (Local.childGoto hch _) (Function.update_self ..) rfl rfl ?_
  rintro φ st m pc hreg hrow
  simp only [childRun, State.childGoto, hreg]
  cases hrow with
  | idle _ hc => cases hc
  | cleared => exact .exited

/-- **A child keeps the invariant.** -/
theorem Inv.child (hi : Inv s ph) (pid seed : ℕ) : ∃ ph', Inv (childStep s pid seed) ph' := by
  unfold childStep
  cases hch : s.children pid with
  | none => exact ⟨ph, hi⟩
  | some ch =>
    obtain ⟨r, c⟩ := ch
    cases c with
    | poll => exact hi.child_poll hch seed
    | poll2 => exact ⟨ph, hi.child_poll2 hch seed⟩
    | check => exact hi.child_check hch seed
    | handling l => exact hi.child_handling hch seed
    | post => exact ⟨ph, hi.child_post hch seed⟩
    | exiting => exact ⟨ph, hi.child_exiting hch seed⟩
    | leaving => exact ⟨ph, hi.child_leaving hch seed⟩
    | exited => exact ⟨ph, hi⟩

end Child

end SharedMemory

end HEDB
