import HEDB.SharedMemory.Frames

/-!
# Getting and freeing a region

The steps of a backend in `getSharedBuffer` and `freeBuffer`: it takes the lock, posts its request
in the header, waits for the answer and releases the lock. They touch the header and the program
counter of the backend, and no region (`Inv.of_header`).

There is one step that the invariant does not survive: reading `ret_id` after a `SHM_GET` for which
the server found no free region (`Unreal`). Every other step keeps it (`Inv.backend`).
-/

namespace HEDB

namespace SharedMemory

variable {h : Handler} {s s' : State h} {ph : Region → Phase} {b : ℕ}

/-! ## Rows and the header -/

theorem BackendPc.Pending.critical {pc : BackendPc} (hp : pc.Pending) : pc.Critical := by
  cases hp <;> trivial

/-- Only the row of a backend that waits for a region depends on what the server has allocated. -/
theorem Row.of_not_pending {r : Region} {g g' : Option Region} {φ : Phase} {st : ReqStatus}
    {m : Mem}
    {pc : BackendPc} {c : ChildPc h} (hrow : Row r g φ st m pc c) (hp : ¬ pc.Pending) :
    Row r g' φ st m pc c := by
  cases hrow with
  | idle hrow hc =>
    cases hrow with
    | pending hp' => exact absurd hp' hp
    | held hr => exact .idle (.held hr) hc
    | reset => exact .idle .reset hc
    | serialize hm => exact .idle (.serialize hm) hc
    | sent hq => exact .idle (.sent hq) hc
    | done => exact .idle .done hc
    | copying => exact .idle .copying hc
    | copied => exact .idle .copied hc
    | exiting => exact .idle .exiting hc
  | received hq => exact .received hq
  | handling hat => exact .handling hat
  | answered => exact .answered
  | leaving => exact .leaving
  | cleared => exact .cleared
  | exited => exact .exited

/-- The row of a backend that holds a region and has no request in it. -/
theorem Row.at_rest {r r' : Region} {g : Option Region} {φ : Phase} {st : ReqStatus} {m : Mem}
    {p p' : HoldPc} {c : ChildPc h} (hrow : Row r' g φ st m (.holding r p) c) (hp : p.AtRest)
    (hw : p ≠ .freeWait) (hp' : p'.AtRest) :
    (∃ b pid, φ = .owned b pid) ∧ Row r' g φ st m (.holding r p') c := by
  cases hrow with
  | idle hrow hc =>
    cases hrow with
    | pending hp => cases hp
    | held _ => exact ⟨⟨_, _, rfl⟩, .idle (.held hp') hc⟩
    | exiting => exact absurd rfl hw
    | _ => cases hp
  | leaving => exact absurd rfl hw
  | cleared => exact absurd rfl hw
  | exited => exact absurd rfl hw
  | _ => cases hp

/-- A backend makes a step in the header. -/
theorem Inv.of_header (hi : Inv s ph) {pc : BackendPc}
    (hs : s' = { s with
      lock := s'.lock, status := s'.status, freeId := s'.freeId, granted := s'.granted
      backends := Function.update s.backends b pc })
    (hlock : ∀ b' ≠ b, s'.lock = some b' ↔ s.lock = some b')
    (hcrit : pc.Critical ↔ s'.lock = some b)
    (hgranted : s'.granted = s.granted ∨ s.lock = some b)
    (hstage : Stage s' fun r => (ph r).role)
    (hholds : ∀ r p, pc = .holding r p →
      (ph r).role.owner = some b ∨ ((ph r).role = .free ∧ p.Released))
    (hrow : ∀ r φ st m (c : ChildPc h), ph r = φ → φ.role.owner = some b →
      Row r s.granted φ st m (s.backends b) c → Row r s'.granted φ st m pc c) :
    Inv s' ph := by
  have hb : s'.backends = Function.update s.backends b pc := by rw [hs]
  have hself : s'.backends b = pc := by rw [hb, Function.update_self]
  have hne : ∀ b' ≠ b, s'.backends b' = s.backends b' := fun b' hbb => by
    rw [hb, Function.update_of_ne hbb]
  have hc := hi.control
  refine ⟨⟨fun b' => ?_, hstage, fun r => ?_, fun pid c hpid => ?_, fun pid hpid => ?_,
    fun b' r p hb' => ?_⟩, fun r => ?_, fun r => ?_⟩
  · by_cases hbb : b' = b
    · rw [hbb, hself, hcrit]
    · rw [hne b' hbb, hlock b' hbb]
      exact hc.critical b'
  · rw [show s'.bitmap = s.bitmap by rw [hs], show s'.server = s.server by rw [hs]]
    exact hc.bits r
  · rw [show s'.children = s.children by rw [hs]] at hpid
    exact hc.children pid c hpid
  · rw [show s'.nextPid = s.nextPid by rw [hs]] at hpid
    rw [show s'.children = s.children by rw [hs]]
    exact hc.fresh pid hpid
  · by_cases hbb : b' = b
    · subst hbb
      exact hholds r p (hself.symm.trans hb')
    · exact hc.holds b' r p ((hne b' hbb).symm.trans hb')
  · refine (hi.regions r).frame (by rw [hs]) (by rw [hs])
      (fun pid c _ hch => by rw [hs]; exact hch) ?_
    intro b' st m c ho hr
    by_cases hbb : b' = b
    · subst hbb
      rw [hself]
      exact hrow r _ st m c rfl ho hr
    · rw [hne b' hbb]
      rcases hgranted with hg | hl
      · rw [hg]
        exact hr
      · refine hr.of_not_pending fun hp => hbb ?_
        exact Option.some.inj (((hc.critical b').1 hp.critical).symm.trans hl)
  · rw [show s'.events = s.events by rw [hs]]
    exact hi.log r

/-- Where the server stands when a backend has the lock. -/
theorem Control.holder {ρ : Region → Role} (hc : Control s ρ) {pc : BackendPc}
    (hb : s.backends b = pc) (hp : pc.Critical) : s.lock = some b ∧ Holder s ρ b pc := by
  have hl : s.lock = some b := (hc.critical b).1 (hb ▸ hp)
  have hst := hc.stage
  unfold Stage at hst
  rw [hl] at hst
  exact ⟨hl, hb ▸ hst⟩

theorem Control.quiet {ρ : Region → Role} (hc : Control s ρ) (hl : s.lock = none) : s.Quiet := by
  have hst := hc.stage
  unfold Stage at hst
  rw [hl] at hst
  exact hst

theorem stage_of_lock {ρ : Region → Role} {pc : BackendPc} (hl : s.lock = some b)
    (hb : s.backends b = pc) (hh : Holder s ρ b pc) : Stage s ρ := by
  unfold Stage
  rw [hl]
  show Holder s ρ b (s.backends b)
  rw [hb]
  exact hh

theorem stage_of_quiet {ρ : Region → Role} (hl : s.lock = none) (hq : s.Quiet) : Stage s ρ := by
  unfold Stage
  rw [hl]
  exact hq

/-! ## Taking and releasing the lock -/

/-- A backend takes the lock. -/
theorem Inv.take_lock (hi : Inv s ph) {pc : BackendPc} (hl : s.lock = none) (hp : pc.Critical)
    (hstage : Holder { s with lock := some b, backends := Function.update s.backends b pc }
      (fun r => (ph r).role) b pc)
    (hholds : ∀ r p, pc = .holding r p → (ph r).role.owner = some b)
    (hrow : ∀ r φ st m (c : ChildPc h), Row r s.granted φ st m (s.backends b) c →
      Row r s.granted φ st m pc c) :
    Inv ({ s with lock := some b }.goto b pc) ph := by
  refine hi.of_header rfl ?_ (iff_of_true hp rfl) (.inl rfl)
    (stage_of_lock rfl (Function.update_self ..) hstage) (fun r p hr => .inl (hholds r p hr))
    fun r φ st m c _ _ hr => hrow r φ st m c hr
  intro b' hbb
  rw [hl]
  refine ⟨fun hb' => absurd (Option.some.inj hb').symm hbb, ?_⟩
  rintro ⟨⟩

/-- A backend releases the lock. -/
theorem Inv.release_lock (hi : Inv s ph) {pc : BackendPc} (hl : s.lock = some b)
    (hp : ¬ pc.Critical) (hq : s.Quiet)
    (hholds : ∀ r p, pc = .holding r p → (ph r).role.owner = some b)
    (hrow : ∀ r φ st m (c : ChildPc h), Row r s.granted φ st m (s.backends b) c →
      Row r s.granted φ st m pc c) :
    Inv ({ s with lock := none }.goto b pc) ph := by
  refine hi.of_header rfl ?_ (iff_of_false hp (by rintro ⟨⟩)) (.inl rfl) (stage_of_quiet rfl hq)
    (fun r p hr => .inl (hholds r p hr)) fun r φ st m c _ _ hr => hrow r φ st m c hr
  intro b' hbb
  rw [hl]
  refine ⟨by rintro ⟨⟩, fun hb' => absurd (Option.some.inj hb').symm hbb⟩

/-- The backend that has the lock goes on, and keeps it. -/
theorem Inv.keep_lock (hi : Inv s ph) {pc : BackendPc} {status : ShmStatus} {freeId : Region}
    {granted : Option Region} (hl : s.lock = some b) (hp : pc.Critical)
    (hstage : Holder { s with
      status := status, freeId := freeId, granted := granted
      backends := Function.update s.backends b pc } (fun r => (ph r).role) b pc)
    (hholds : ∀ r p, pc = .holding r p →
      (ph r).role.owner = some b ∨ ((ph r).role = .free ∧ p.Released))
    (hrow : ∀ r φ st m (c : ChildPc h), ph r = φ → φ.role.owner = some b →
      Row r s.granted φ st m (s.backends b) c → Row r granted φ st m pc c) :
    Inv ({ s with status := status, freeId := freeId, granted := granted }.goto b pc) ph := by
  exact hi.of_header rfl (fun _ _ => Iff.rfl) (iff_of_true hp hl) (.inr hl)
    (stage_of_lock hl (Function.update_self ..) hstage) hholds hrow

/-! ## `getSharedBuffer` -/

/-- A backend reads `ret_id` though the server has not allocated a region to it. -/
def Unreal (s : State h) : Label → Prop
  | .backend b _ => s.backends b = .asking .read ∧ s.granted = none
  | _ => False

/-- A backend that has no region and does not wait for one has no row. -/
theorem Row.false_of_outside {r : Region} {g : Option Region} {φ : Phase} {st : ReqStatus} {m : Mem}
    {pc : BackendPc} {c : ChildPc h} (hrow : Row r g φ st m pc c) (hp : ¬ pc.Pending)
    (hh : ∀ r p, pc ≠ .holding r p) : False := by
  rcases hrow.owner_at with ⟨hp', -⟩ | ⟨p, hpc⟩
  · exact hp hp'
  · exact hh r p hpc

theorem Inv.start_get (hi : Inv s ph) (hb : s.backends b = .init) (hl : s.lock = none) :
    Inv ({ s with lock := some b }.goto b (.asking .locked)) ph := by
  refine hi.take_lock hl trivial (hi.control.quiet hl) (by rintro _ _ ⟨⟩) ?_
  rintro r φ st m c hrow
  rw [hb] at hrow
  exact (hrow.false_of_outside (by rintro ⟨⟩) (by rintro _ _ ⟨⟩)).elim

theorem Inv.ask (hi : Inv s ph) {p : AskPc} (hb : s.backends b = .asking p) (c : Choice)
    (hreal : ¬ Unreal s (.backend b c)) : Inv (askStep s b c p) ph := by
  obtain ⟨hl, hh⟩ := hi.control.holder hb trivial
  cases p with
  | locked =>
    simp only [askStep, if_pos hh.1]
    refine hi.keep_lock hl trivial hh (by rintro _ _ ⟨⟩) ?_
    rintro r φ st m c _ _ hrow
    rw [hb] at hrow
    exact (hrow.false_of_outside (by rintro ⟨⟩) (by rintro _ _ ⟨⟩)).elim
  | post =>
    refine hi.keep_lock hl trivial (.inl ⟨rfl, .inl ⟨rfl, ?_⟩⟩) (by rintro _ _ ⟨⟩) ?_
    · rcases hh.2 with hp | hp
      · exact hp ▸ .poll
      · exact hp ▸ .poll2
    · rintro r φ st m c _ _ hrow
      rw [hb] at hrow
      exact (hrow.false_of_outside (by rintro ⟨⟩) (by rintro _ _ ⟨⟩)).elim
  | wait =>
    have hpend : ∀ pc : BackendPc, pc.Pending → ∀ r φ st m (c : ChildPc h), ph r = φ →
        φ.role.owner = some b → Row r s.granted φ st m (s.backends b) c →
        Row r s.granted φ st m pc c := by
      intro pc hp r φ st m c _ _ hrow
      rw [hb] at hrow
      obtain ⟨⟨_, hg⟩, hc⟩ := hrow
      exact .idle (.pending hp hg) hc
    have hgo : Inv (if s.status = .done then s.goto b (.asking .read) else s) ph := by
      split_ifs with hdone
      · rcases hh with ⟨hget, -⟩ | hans
        · rw [hdone] at hget
          cases hget
        · exact hi.keep_lock hl trivial hans (by rintro _ _ ⟨⟩) (hpend _ .read)
      · exact hi
    cases c with
    | timeout => exact hi.keep_lock hl trivial hh (by rintro _ _ ⟨⟩) (hpend _ .timedOut)
    | go => exact hgo
    | send q => exact hgo
    | free => exact hgo
  | read =>
    obtain ⟨hdone, hidle, ⟨hg, pid, hown⟩ | ⟨hg, -⟩⟩ := hh
    · refine hi.keep_lock hl trivial ⟨hdone, hidle⟩ ?_ ?_
      · rintro r p ⟨⟩
        exact .inl (congrArg Role.owner hown)
      · rintro r φ st m c _ _ hrow
        rw [hb] at hrow
        obtain ⟨⟨_, hg'⟩, hc⟩ := hrow
        cases hg.symm.trans hg'
        exact .idle (.held .getReset) hc
    · exact absurd ⟨hb, hg⟩ hreal

/-! ## `freeBuffer` -/

/-- A backend that was told that its region is free has no row. -/
theorem Row.false_of_freed {r r' : Region} {g : Option Region} {φ : Phase} {st : ReqStatus}
    {m : Mem}
    {p : HoldPc} {c : ChildPc h} (hrow : Row r' g φ st m (.holding r p) c)
    (hp : p = .freeReset ∨ p = .freeUnlock) : False := by
  cases hrow with
  | idle hrow =>
    cases hrow with
    | pending hp => cases hp
    | held hr => cases hr <;> simp at hp
    | _ => simp at hp
  | _ => simp at hp

section Hold

variable {r : Region} {p p' : HoldPc}

/-- The owner of a region at rest goes on in the header, with the lock. -/
theorem Inv.rest_step (hi : Inv s ph) {status : ShmStatus} {freeId : Region}
    (hb : s.backends b = .holding r p) (hl : s.lock = some b) (hp : p.AtRest) (hw : p ≠ .freeWait)
    (hp' : p'.AtRest) (hcrit : (BackendPc.holding r p').Critical)
    (hstage : Holder { s with
      status := status, freeId := freeId
      backends := Function.update s.backends b (.holding r p') } (fun r => (ph r).role) b
      (.holding r p')) :
    Inv ({ s with status := status, freeId := freeId }.goto b (.holding r p')) ph := by
  refine hi.keep_lock hl hcrit hstage ?_ ?_
  · rintro _ _ ⟨⟩
    refine .inl (hi.owner hb ?_)
    rintro ⟨⟩
    · exact hw rfl
    · cases hp
    · cases hp
  · intro r' φ st m c _ _ hrow
    rw [hb] at hrow
    exact (hrow.at_rest hp hw hp').2

theorem Inv.getReset (hi : Inv s ph) (hb : s.backends b = .holding r .getReset) :
    Inv ({ s with status := .none }.goto b (.holding r .getUnlock)) ph := by
  obtain ⟨hl, -, hidle⟩ := hi.control.holder hb trivial
  exact hi.rest_step hb hl .getReset (by rintro ⟨⟩) .getUnlock trivial ⟨rfl, hidle⟩

theorem Inv.getUnlock (hi : Inv s ph) (hb : s.backends b = .holding r .getUnlock) :
    Inv ({ s with lock := none }.goto b (.holding r .ctor)) ph := by
  obtain ⟨hl, hq⟩ := hi.control.holder hb trivial
  refine hi.release_lock hl id hq ?_ ?_
  · rintro _ _ ⟨⟩
    exact hi.owner hb (by rintro ⟨⟩)
  · intro r' φ st m c hrow
    rw [hb] at hrow
    exact (hrow.at_rest .getUnlock (by rintro ⟨⟩) .ctor).2

theorem Inv.freeLock (hi : Inv s ph) (hb : s.backends b = .holding r .freeLock)
    (hl : s.lock = none) : Inv ({ s with lock := some b }.goto b (.holding r .freeLocked)) ph := by
  refine hi.take_lock hl trivial (hi.control.quiet hl) ?_ ?_
  · rintro _ _ ⟨⟩
    exact hi.owner hb (by rintro ⟨⟩)
  · intro r' φ st m c hrow
    rw [hb] at hrow
    exact (hrow.at_rest .freeLock (by rintro ⟨⟩) .freeLocked).2

theorem Inv.freePost (hi : Inv s ph) (hb : s.backends b = .holding r .freePost) :
    Inv ({ s with status := .free }.goto b (.holding r .freeWait)) ph := by
  obtain ⟨hl, hq, hid⟩ := hi.control.holder hb trivial
  refine hi.rest_step hb hl .freePost (by rintro ⟨⟩) .freeWait trivial (.inl ⟨rfl, hid, ?_⟩)
  -- the server reads the request at its next poll: the region still belongs to the backend
  have ho := hi.owner hb (by rintro ⟨⟩)
  obtain ⟨pid, -, -, c, -, hrow⟩ := (hi.regions r).served ho
  rw [hb] at hrow
  obtain ⟨⟨b', pid', hφ⟩, -⟩ := hrow.at_rest .freePost (by rintro ⟨⟩) .freeWait
  rw [hφ] at ho
  cases ho
  have hown : (ph r).role = .owned b pid' := by rw [hφ]; rfl
  rcases hq.2 with hsv | hsv
  · exact hsv ▸ .poll pid' hown
  · exact hsv ▸ .poll2 pid' hown

theorem Inv.freeWait (hi : Inv s ph) (hb : s.backends b = .holding r .freeWait)
    (hdone : s.status = .done) : Inv (s.goto b (.holding r .freeReset)) ph := by
  obtain ⟨hl, ⟨hfree, -⟩ | hfreed⟩ := hi.control.holder hb trivial
  · rw [hdone] at hfree
    cases hfree
  · refine hi.keep_lock hl trivial hfreed ?_ ?_
    · rintro _ _ ⟨⟩
      exact .inr ⟨hfreed.2.2, .freeReset⟩
    · rintro r' _ st m c rfl ho hrow
      rw [hb] at hrow
      rw [hrow.region_eq, show (ph r).role = .free from hfreed.2.2] at ho
      cases ho

theorem Inv.freeReset (hi : Inv s ph) (hb : s.backends b = .holding r .freeReset) :
    Inv ({ s with status := .none }.goto b (.holding r .freeUnlock)) ph := by
  obtain ⟨hl, -, hidle, hfree⟩ := hi.control.holder hb trivial
  refine hi.keep_lock hl trivial ⟨rfl, hidle⟩ ?_ ?_
  · rintro _ _ ⟨⟩
    exact .inr ⟨hfree, .freeUnlock⟩
  · intro r' φ st m c _ _ hrow
    rw [hb] at hrow
    exact (hrow.false_of_freed (.inl rfl)).elim

theorem Inv.freeUnlock (hi : Inv s ph) (hb : s.backends b = .holding r .freeUnlock) :
    Inv ({ s with lock := none }.goto b .gone) ph := by
  obtain ⟨hl, hq⟩ := hi.control.holder hb trivial
  refine hi.release_lock hl id hq (by rintro _ _ ⟨⟩) ?_
  intro r' φ st m c hrow
  rw [hb] at hrow
  exact (hrow.false_of_freed (.inr rfl)).elim

/-- **A backend that gets or frees its region keeps the invariant.** -/
theorem Inv.outside (hi : Inv s ph) (hb : s.backends b = .holding r p) (hp : ¬ p.Inside)
    (c : Choice) : Inv (holdStep s b r c p) ph := by
  cases p with
  | getReset => exact hi.getReset hb
  | getUnlock => exact hi.getUnlock hb
  | freeLock =>
    simp only [holdStep]
    split_ifs with hl
    · exact hi.freeLock hb hl
    · exact hi
  | freeLocked =>
    obtain ⟨hl, hq⟩ := hi.control.holder hb trivial
    simp only [holdStep, if_pos hq.1]
    exact hi.rest_step hb hl .freeLocked (by rintro ⟨⟩) .freeId trivial hq
  | freeId =>
    obtain ⟨hl, hq⟩ := hi.control.holder hb trivial
    exact hi.rest_step hb hl .freeId (by rintro ⟨⟩) .freePost trivial ⟨hq, rfl⟩
  | freePost => exact hi.freePost hb
  | freeWait =>
    simp only [holdStep]
    split_ifs with hdone
    · exact hi.freeWait hb hdone
    · exact hi
  | freeReset => exact hi.freeReset hb
  | freeUnlock => exact hi.freeUnlock hb
  | ctor => exact absurd .ctor hp
  | ready => exact absurd .ready hp
  | serialize q ws => exact absurd (.serialize q ws) hp
  | waitDone q => exact absurd (.waitDone q) hp
  | copy q => exact absurd (.copy q) hp
  | readResp q => exact absurd (.readResp q) hp
  | reset => exact absurd .reset hp

end Hold

end SharedMemory

end HEDB
