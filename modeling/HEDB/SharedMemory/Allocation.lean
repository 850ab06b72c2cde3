import HEDB.SharedMemory.Server

/-!
# Allocating and freeing a region

Three steps of the server change what a region is for: `fork` allocates it, posting `EXIT` closes
it, and the end of its child frees it. With the steps in the header this is the whole main loop
(`Inv.server`); in particular the assertion of the server on the bitmap never fails.
-/

namespace HEDB

namespace SharedMemory

variable {h : Handler} {s s' : State h} {ph : Region → Phase} {b : ℕ} {r : Region}

/-! ## Steps that change what a region is for -/

/-- The server changes what region `r` is for. -/
theorem Inv.of_server_event (hi : Inv s ph) {φ : Phase} {e : Event} (hl : s'.lock = s.lock)
    (hb : s'.backends = s.backends)
    (he : s'.events = Function.update s.events r (s.events r ++ [e]))
    (hstep : Handshake h (ph r) e φ)
    (hstage : Stage s' (Function.update (fun r => (ph r).role) r φ.role))
    (hplain : s'.server.Plain) (hbits : ∀ r', HasBit s'.bitmap r' ↔
      Function.update (fun r => (ph r).role) r φ.role r' ≠ .free)
    (hchildren : ∀ pid c, s'.children pid = some c →
      (Function.update (fun r => (ph r).role) r φ.role c.region).child = some pid)
    (hfresh : ∀ pid, s'.nextPid ≤ pid → s'.children pid = none)
    (hholds : ∀ b p, s.backends b = .holding r p →
      φ.role.owner = some b ∨ (φ.role = .free ∧ p.Released))
    (hr : RegionInv s' r φ) (hother : ∀ r' ≠ r, RegionInv s' r' (ph r')) :
    Inv s' (Function.update ph r φ) := by
  refine ⟨?_, fun r' => ?_, hi.log_event he hstep⟩
  · rw [role_update]
    refine ⟨fun b => ?_, hstage, fun r' => ?_, hchildren, hfresh, fun b r' p hb' => ?_⟩
    · rw [hl, hb]
      exact hi.control.critical b
    · rw [hplain.bits]
      exact hbits r'
    · rw [hb] at hb'
      by_cases hrr : r' = r
      · subst hrr
        rw [Function.update_self]
        exact hholds b p hb'
      · rw [Function.update_of_ne hrr]
        exact hi.control.holds b r' p hb'
  · by_cases hrr : r' = r
    · rw [hrr, Function.update_self]
      exact hr
    · rw [Function.update_of_ne hrr]
      exact hother r' hrr

theorem Phase.eq_free {φ : Phase} (hφ : φ.role = .free) : φ = .free := by
  cases φ <;> first | rfl | cases hφ

theorem BackendPc.Waiting.pending {pc : BackendPc} (hw : pc.Waiting) : pc.Pending := by
  cases hw with
  | wait => exact .wait
  | timedOut => exact .timedOut

theorem HoldPc.Released.critical {p : HoldPc} (hp : p.Released) (r : Region) :
    (BackendPc.holding r p).Critical := by
  cases hp <;> trivial

/-- The server forks a child for a free region, for the backend that waits for a region. -/
theorem Inv.server_fork (hi : Inv s ph) (hsv : s.server = .fork r) :
    ∃ ph', Inv ({ s with
      childPids := Function.update s.childPids r s.nextPid
      children := Function.update s.children s.nextPid (some ⟨r, .poll⟩)
      nextPid := s.nextPid + 1
      granted := some r
      server := .setDone }.log r (.forked s.lock s.nextPid)) ph' := by
  have hc := hi.control
  obtain ⟨b, hl, hw, hs, hg, hsearch⟩ := hc.stage.searching hsv trivial
  cases hsearch with
  | fork hfree =>
    have hfresh : s.children s.nextPid = none := hc.fresh _ le_rfl
    refine ⟨_, hi.of_server_event (φ := .owned b s.nextPid) rfl rfl rfl ?_ ?_ trivial
      ?_ ?_ ?_ ?_ ?_ ?_⟩
    · rw [Phase.eq_free hfree, hl]
      exact .forked b s.nextPid
    · exact stage_of_waiting hl hw (.inl ⟨hs, .inr ⟨rfl, .inl ⟨rfl, s.nextPid,
        Function.update_self ..⟩⟩⟩)
    · intro r'
      show HasBit s.bitmap r' ↔ _
      rw [hc.bits r', hsv]
      by_cases hrr : r' = s.retId
      · subst hrr
        simp [Phase.role]
      · simp [Function.update_of_ne hrr, Ne.symm hrr]
    · intro pid c hpid
      replace hpid : Function.update s.children s.nextPid (some ⟨s.retId, .poll⟩) pid = some c :=
        hpid
      by_cases hpp : pid = s.nextPid
      · subst hpp
        rw [Function.update_self] at hpid
        cases hpid
        rw [Function.update_self]
        rfl
      · rw [Function.update_of_ne hpp] at hpid
        have hchild := hc.children pid c hpid
        rw [Function.update_of_ne]
        · exact hchild
        · intro hrr
          rw [hrr, show (ph s.retId).role = .free from hfree] at hchild
          cases hchild
    · intro pid hpid
      replace hpid : s.nextPid + 1 ≤ pid := hpid
      have hpp : pid ≠ s.nextPid := by omega
      exact (Function.update_of_ne hpp ..).trans (hc.fresh pid (by omega))
    · intro b' p hb'
      rcases hc.holds b' _ p hb' with ho | ⟨-, hrel⟩
      · rw [show (ph s.retId).role = .free from hfree] at ho
        cases ho
      · have hl' := (hc.critical b').1 (hb' ▸ hrel.critical _)
        rw [hl] at hl'
        cases hl'
        rw [hb'] at hw
        cases hw
    · have hst : (s.regions s.retId).status = .none := by
        have hr := hi.regions s.retId
        unfold RegionInv at hr
        rw [show (ph s.retId).role = .free from hfree] at hr
        exact hr
      refine .of_row rfl rfl (Function.update_self ..) (Function.update_self ..) ?_
      simp only [State.log, hst]
      exact .idle (.pending hw.pending rfl) .poll
    · intro r' hrr
      refine (hi.regions r').frame rfl (Function.update_of_ne hrr ..) ?_ ?_
      · intro pid c _ hch
        rw [← hch]
        refine Function.update_of_ne ?_ ..
        rintro rfl
        rw [hfresh] at hch
        cases hch
      · intro b' st m c _ hrow
        refine hrow.of_not_pending fun hp => ?_
        rcases hrow.owner_at with ⟨-, hg'⟩ | ⟨p, hb'⟩
        · rw [hg] at hg'
          cases hg'
        · rw [hb'] at hp
          cases hp

/-- The server tells the child of a region to exit. -/
theorem Inv.server_freeExit (hi : Inv s ph) (hsv : s.server = .freeExit r) :
    ∃ ph', Inv (({ s with server := .freeAssert r }.setStatus r .exit).log r .exit) ph' := by
  have hc := hi.control
  obtain ⟨b, r', hl, hb, hs, hid, hf⟩ := hc.stage.freeing hsv trivial
  cases hf with
  | freeExit pid hown =>
    replace hown : (ph r).role = .owned b pid := hown
    obtain ⟨pid', hpid', hpid, c, hch, hrow⟩ :=
      (hi.regions r).served (show (ph r).role.owner = some b by rw [hown]; rfl)
    rw [hown] at hpid'
    cases hpid'
    -- the owner waits in `freeBuffer` and the child has not been told to exit, so it polls
    obtain ⟨hφ, hc'⟩ : ph r = .owned b pid ∧ c.Idle := by
      rw [hb] at hrow
      generalize ph r = φ at hown hrow ⊢
      generalize (s.regions r).status = st at hrow
      cases hrow with
      | idle hrow hc' =>
        cases hrow with
        | pending hp => cases hp
        | held =>
          cases hown
          exact ⟨rfl, hc'⟩
        | exiting => cases hown
      | _ => cases hown
    have hρ : Function.update (fun r => (ph r).role) r (.closing b pid) r = .closing b pid :=
      Function.update_self ..
    refine ⟨_, hi.of_server_event (φ := .exiting b pid) rfl rfl rfl ?_ ?_ trivial
      ?_ ?_ hc.fresh ?_ ?_ ?_⟩
    · rw [hφ]
      exact .exit b pid
    · exact stage_of_lock hl hb (.inl ⟨hs, hid, .freeAssert pid hρ⟩)
    · intro r'
      refine (hc.bits_of_plain (hsv ▸ trivial) r').trans ?_
      by_cases hrr : r' = r
      · rw [hrr, hown, Function.update_self]
        simp [Phase.role]
      · rw [Function.update_of_ne hrr]
    · intro pid' c hpid'
      have hchild := hc.children pid' c hpid'
      by_cases hrr : c.region = r
      · rw [hrr, hown] at hchild
        rw [hrr, Function.update_self]
        exact hchild
      · rw [Function.update_of_ne hrr]
        exact hchild
    · intro b' p hb'
      rcases hc.holds b' r p hb' with ho | ⟨hfree, -⟩
      · rw [hown] at ho
        exact .inl ho
      · rw [hown] at hfree
        cases hfree
    · refine .of_row rfl rfl hpid hch ?_
      simp only [State.log, State.setStatus, Function.update_self, hb]
      exact .idle .exiting hc'
    · intro r' hrr
      refine (hi.regions r').frame (Function.update_of_ne hrr ..) rfl (fun _ _ _ hch => hch) ?_
      exact fun _ _ _ _ _ hrow => hrow

/-- The server has waited for the child of a region. -/
theorem Inv.server_reap (hi : Inv s ph) {pid : ℕ} (hsv : s.server = .freeWait r)
    (hl : s.lock = some b) (hb : s.backends b = .holding r .freeWait) (hs : s.status = .free)
    (hid : s.freeId = r) (hclosing : (ph r).role = .closing b pid)
    (hch : s.children pid = some ⟨r, .exited⟩)
    (hrow : Row r s.granted (ph r) (s.regions r).status (s.regions r).mem (s.backends b)
      (.exited : ChildPc h)) :
    Inv ({ s with
      children := Function.update s.children pid none
      server := .setDone }.log r .reaped) (Function.update ph r .free) := by
  have hc := hi.control
  obtain ⟨hφ, hst⟩ : ph r = .leaving b pid ∧ (s.regions r).status = .none := by
    rw [hb] at hrow
    generalize ph r = φ at hclosing hrow ⊢
    generalize (s.regions r).status = st at hrow ⊢
    cases hrow with
    | idle _ hc' => cases hc'
    | exited =>
      cases hclosing
      exact ⟨rfl, rfl⟩
  refine hi.of_server_event rfl rfl rfl ?_ ?_ trivial ?_ ?_ ?_ ?_ ?_ ?_
  · rw [hφ]
    exact .reaped b pid
  · exact stage_of_lock hl hb (.inl ⟨hs, hid, .setDone (Function.update_self ..)⟩)
  · intro r'
    show HasBit s.bitmap r' ↔ _
    rw [hc.bits r', hsv]
    by_cases hrr : r' = r
    · subst hrr
      simp [Phase.role]
    · simp [Function.update_of_ne hrr, Ne.symm hrr]
  · intro pid' c hpid'
    replace hpid' : Function.update s.children pid none pid' = some c := hpid'
    by_cases hpp : pid' = pid
    · subst hpp
      rw [Function.update_self] at hpid'
      cases hpid'
    · rw [Function.update_of_ne hpp] at hpid'
      have hchild := hc.children pid' c hpid'
      rw [Function.update_of_ne]
      · exact hchild
      · intro hrr
        rw [hrr, hclosing] at hchild
        cases hchild
        exact hpp rfl
  · intro pid' hpid'
    have hnone := hc.fresh pid' hpid'
    by_cases hpp : pid' = pid
    · subst hpp
      exact Function.update_self ..
    · exact (Function.update_of_ne hpp ..).trans hnone
  · intro b' p hb'
    rcases hc.holds b' r p hb' with ho | hfree
    · rw [hclosing] at ho
      cases ho
      cases hb.symm.trans hb'
      exact .inr ⟨rfl, .freeWait⟩
    · rw [hclosing] at hfree
      cases hfree.1
  · exact hst
  · intro r' hrr
    refine (hi.regions r').frame rfl rfl ?_ fun _ _ _ _ _ hrow => hrow
    intro pid' c hpid' hch'
    rw [← hch']
    refine Function.update_of_ne ?_ ..
    rintro rfl
    rw [hch] at hch'
    cases hch'
    exact hrr rfl

/-- The server waits for the child of a region. -/
theorem Inv.server_freeWait (hi : Inv s ph) (hsv : s.server = .freeWait r) :
    ∃ ph', Inv (serverStep s) ph' := by
  have hc := hi.control
  obtain ⟨b, r', hl, hb, hs, hid, hf⟩ := hc.stage.freeing hsv trivial
  cases hf with
  | freeWait pid hclosing =>
    replace hclosing : (ph r).role = .closing b pid := hclosing
    obtain ⟨pid', hpid', hpid, c, hch, hrow⟩ :=
      (hi.regions r).served (show (ph r).role.owner = some b by rw [hclosing]; rfl)
    rw [hclosing] at hpid'
    cases hpid'
    simp only [serverStep, hsv, hpid, hch]
    cases c with
    | exited =>
      exact ⟨_, hi.server_reap hsv hl hb hs hid hclosing hch hrow⟩
    | _ => exact ⟨ph, hi⟩

/-- **The server keeps the invariant.** -/
theorem Inv.server (hi : Inv s ph) : ∃ ph', Inv (serverStep s) ph' := by
  cases hsv : s.server with
  | poll =>
    simp only [serverStep, hsv]
    exact ⟨ph, hi.server_poll hsv⟩
  | poll2 =>
    simp only [serverStep, hsv]
    exact ⟨ph, hi.server_poll2 hsv⟩
  | scan i => exact ⟨ph, hi.server_scan hsv⟩
  | setBit r =>
    simp only [serverStep, hsv]
    exact ⟨ph, hi.server_setBit hsv⟩
  | setRet r =>
    simp only [serverStep, hsv]
    exact ⟨ph, hi.server_setRet hsv⟩
  | fork r =>
    simp only [serverStep, hsv]
    exact hi.server_fork hsv
  | setDone =>
    simp only [serverStep, hsv]
    exact ⟨ph, hi.server_setDone hsv⟩
  | freeRead =>
    simp only [serverStep, hsv]
    exact ⟨ph, hi.server_freeRead hsv⟩
  | freeExit r =>
    simp only [serverStep, hsv]
    exact hi.server_freeExit hsv
  | freeAssert r =>
    simp only [serverStep, hsv]
    exact ⟨ph, hi.server_freeAssert hsv⟩
  | freeClear r =>
    simp only [serverStep, hsv]
    exact ⟨ph, hi.server_freeClear hsv⟩
  | freeWait r => exact hi.server_freeWait hsv
  | aborted =>
    simp only [serverStep, hsv]
    exact ⟨ph, hi⟩

end SharedMemory

end HEDB
