import HEDB.SharedMemory.Header

/-!
# The main loop of the server

The server looks for a clear bit, sets it, writes `ret_id` and forks a child, or it tells a child to
exit, clears the bit and waits for the child; then it posts `SHM_DONE`. Here are the steps that
touch the header alone (`Inv.of_server`). What the server finds at each of its program counters
follows from the stage of the protocol (`Stage.request`).
-/

namespace HEDB

namespace SharedMemory

variable {h : Handler} {s s' : State h} {ph : Region → Phase} {ρ : Region → Role} {b : ℕ}
  {r : Region}

/-! ## The stages of the server -/

/-- A backend that has posted `SHM_GET` and has not seen the answer. -/
inductive BackendPc.Waiting : BackendPc → Prop
  | wait : Waiting (.asking .wait)
  | timedOut : Waiting .timedOut

/-- There is no request, and the server polls. -/
structure NoRequest (s : State h) (ρ : Region → Role) : Prop where
  get : s.status ≠ .get
  free : s.status ≠ .free
  idle : s.server.Idle
  poll : ∀ sv : ServerPc, sv.Idle → Stage { s with server := sv } ρ

/-- What the server finds: nothing to do, a `SHM_GET` or a `SHM_FREE`. -/
theorem Stage.request (hst : Stage s ρ) :
    NoRequest s ρ ∨
    (∃ b, s.lock = some b ∧ (s.backends b).Waiting ∧ Asked s ρ b) ∨
    (∃ b r, s.lock = some b ∧ s.backends b = .holding r .freeWait ∧ s.status = .free ∧
      s.freeId = r ∧ Freeing ρ b r s.server) := by
  unfold Stage at hst
  cases hl : s.lock with
  | none =>
    rw [hl] at hst
    exact .inl ⟨by simp [hst.1], by simp [hst.1], hst.2, fun sv hsv =>
      stage_of_quiet hl ⟨hst.1, hsv⟩⟩
  | some b =>
    rw [hl] at hst
    replace hst : Holder s ρ b (s.backends b) := hst
    have idle : ∀ pc, s.backends b = pc → s.status = .none ∨ s.status = .done → s.server.Idle →
        (∀ sv : ServerPc, sv.Idle → Holder { s with server := sv } ρ b pc) → NoRequest s ρ := by
      intro pc hb hs hi hsv
      refine ⟨?_, ?_, hi, fun sv hsv' => stage_of_lock hl hb (hsv sv hsv')⟩
      · rcases hs with hs | hs <;> simp [hs]
      · rcases hs with hs | hs <;> simp [hs]
    have quiet : ∀ pc, s.backends b = pc → s.Quiet →
        (∀ sv : ServerPc, sv.Idle → Holder { s with server := sv } ρ b pc) → NoRequest s ρ :=
      fun pc hb hq hsv => idle pc hb (.inl hq.1) hq.2 hsv
    cases hb : s.backends b with
    | asking p =>
      rw [hb] at hst
      cases p with
      | locked => exact .inl (quiet _ hb hst fun _ hsv => ⟨hst.1, hsv⟩)
      | post => exact .inl (quiet _ hb hst fun _ hsv => ⟨hst.1, hsv⟩)
      | wait =>
        rcases hst with hask | ⟨hs, hi, ha⟩
        · exact .inr (.inl ⟨b, rfl, hb ▸ .wait, hask⟩)
        · exact .inl (idle _ hb (.inr hs) hi fun _ hsv => .inr ⟨hs, hsv, ha⟩)
      | read =>
        obtain ⟨hs, hi, ha⟩ := hst
        exact .inl (idle _ hb (.inr hs) hi fun _ hsv => ⟨hs, hsv, ha⟩)
    | timedOut =>
      rw [hb] at hst
      rcases hst with hask | ⟨hs, hi, ha⟩
      · exact .inr (.inl ⟨b, rfl, hb ▸ .timedOut, hask⟩)
      · exact .inl (idle _ hb (.inr hs) hi fun _ hsv => .inr ⟨hs, hsv, ha⟩)
    | holding r p =>
      rw [hb] at hst
      cases p with
      | getReset => exact .inl (idle _ hb (.inr hst.1) hst.2 fun _ hsv => ⟨hst.1, hsv⟩)
      | getUnlock => exact .inl (quiet _ hb hst fun _ hsv => ⟨hst.1, hsv⟩)
      | freeLocked => exact .inl (quiet _ hb hst fun _ hsv => ⟨hst.1, hsv⟩)
      | freeId => exact .inl (quiet _ hb hst fun _ hsv => ⟨hst.1, hsv⟩)
      | freePost => exact .inl (quiet _ hb hst.1 fun _ hsv => ⟨⟨hst.1.1, hsv⟩, hst.2⟩)
      | freeWait =>
        rcases hst with ⟨hs, hid, hf⟩ | ⟨hs, hi, hfree⟩
        · exact .inr (.inr ⟨b, r, rfl, hb, hs, hid, hf⟩)
        · exact .inl (idle _ hb (.inr hs) hi fun _ hsv => .inr ⟨hs, hsv, hfree⟩)
      | freeReset =>
        obtain ⟨hs, hi, hfree⟩ := hst
        exact .inl (idle _ hb (.inr hs) hi fun _ hsv => ⟨hs, hsv, hfree⟩)
      | freeUnlock => exact .inl (quiet _ hb hst fun _ hsv => ⟨hst.1, hsv⟩)
      | _ => exact hst.elim
    | _ => rw [hb] at hst; exact hst.elim

theorem stage_of_waiting (hl : s.lock = some b) (hw : (s.backends b).Waiting)
    (ha : Asked s ρ b ∨ Answered s ρ b) : Stage s ρ := by
  generalize hpc : s.backends b = pc at hw
  cases hw with
  | wait => exact stage_of_lock hl hpc ha
  | timedOut => exact stage_of_lock hl hpc ha

/-- The server is past its poll of `SHM_GET`. -/
def ServerPc.Allocating : ServerPc → Prop
  | .scan _ => True
  | .setBit _ => True
  | .setRet _ => True
  | .fork _ => True
  | _ => False

/-- The server is past its poll of `SHM_FREE`. -/
def ServerPc.Deallocating : ServerPc → Prop
  | .freeRead => True
  | .freeExit _ => True
  | .freeAssert _ => True
  | .freeClear _ => True
  | .freeWait _ => True
  | _ => False

/-- The server that is looking for a region serves a `SHM_GET`. -/
theorem Stage.searching (hst : Stage s ρ) {sv : ServerPc} (hsv : s.server = sv)
    (ha : sv.Allocating) : ∃ b, s.lock = some b ∧ (s.backends b).Waiting ∧ s.status = .get ∧
      s.granted = none ∧ Searching s.bitmap s.retId ρ sv := by
  rcases hst.request with hno | ⟨b, hl, hw, hs, ⟨hg, hsearch⟩ | ⟨hdone, -⟩⟩ |
    ⟨b, r, -, -, -, -, hfree⟩
  · rcases hno.idle with hp | hp <;> cases hsv.symm.trans hp <;> exact ha.elim
  · exact ⟨b, hl, hw, hs, hg, hsv ▸ hsearch⟩
  · cases hsv.symm.trans hdone
    exact ha.elim
  · rw [hsv] at hfree
    cases hfree <;> exact ha.elim

/-- The server that is closing a region serves a `SHM_FREE`. -/
theorem Stage.freeing (hst : Stage s ρ) {sv : ServerPc} (hsv : s.server = sv)
    (hd : sv.Deallocating) : ∃ b r, s.lock = some b ∧ s.backends b = .holding r .freeWait ∧
      s.status = .free ∧ s.freeId = r ∧ Freeing ρ b r sv := by
  rcases hst.request with hno | ⟨b, -, -, -, ⟨-, hsearch⟩ | ⟨hdone, -⟩⟩ | hfree
  · rcases hno.idle with hp | hp <;> cases hsv.symm.trans hp <;> exact hd.elim
  · rw [hsv] at hsearch
    cases hsearch <;> exact hd.elim
  · cases hsv.symm.trans hdone
    exact hd.elim
  · exact hsv ▸ hfree

/-! ## Steps in the header -/

/-- The server makes a step in the header. -/
theorem Inv.of_server (hi : Inv s ph)
    (hs : s' = { s with
      status := s'.status, retId := s'.retId, bitmap := s'.bitmap, server := s'.server })
    (hstage : Stage s' fun r => (ph r).role)
    (hbits : ∀ r, HasBit s'.bitmap r ↔ ((ph r).role ≠ .free ∧ s'.server ≠ .freeWait r) ∨
      s'.server = .setRet r ∨ s'.server = .fork r) : Inv s' ph := by
  have hc := hi.control
  refine ⟨⟨fun b => ?_, hstage, hbits, fun pid c hpid => ?_, fun pid hpid => ?_,
    fun b r p hb => ?_⟩, fun r => ?_, fun r => ?_⟩
  · rw [show s'.lock = s.lock by rw [hs], show s'.backends = s.backends by rw [hs]]
    exact hc.critical b
  · rw [show s'.children = s.children by rw [hs]] at hpid
    exact hc.children pid c hpid
  · rw [show s'.nextPid = s.nextPid by rw [hs]] at hpid
    rw [show s'.children = s.children by rw [hs]]
    exact hc.fresh pid hpid
  · rw [show s'.backends = s.backends by rw [hs]] at hb
    exact hc.holds b r p hb
  · refine (hi.regions r).frame (by rw [hs]) (by rw [hs]) (fun pid c _ hch => ?_) ?_
    · rw [hs]
      exact hch
    · intro b st m c _ hrow
      rw [hs]
      exact hrow
  · rw [show s'.events = s.events by rw [hs]]
    exact hi.log r

/-- A program counter of the server at which the bitmap is what the regions are for. -/
def ServerPc.Plain : ServerPc → Prop
  | .freeWait _ => False
  | .setRet _ => False
  | .fork _ => False
  | _ => True

theorem ServerPc.Plain.bits {sv : ServerPc} (hp : sv.Plain) (r : Region) (P : Prop) :
    (P ∧ sv ≠ .freeWait r) ∨ sv = .setRet r ∨ sv = .fork r ↔ P := by
  cases sv <;> simp_all [ServerPc.Plain]

theorem Control.bits_of_plain (hc : Control s ρ) (hp : s.server.Plain) (r : Region) :
    HasBit s.bitmap r ↔ ρ r ≠ .free := by
  rw [hc.bits r, hp.bits]

/-- The server goes on and leaves the bitmap. -/
theorem Inv.of_plain (hi : Inv s ph) {sv : ServerPc} {status : ShmStatus} (hp : s.server.Plain)
    (hp' : sv.Plain)
    (hstage : Stage { s with server := sv, status := status } fun r => (ph r).role) :
    Inv { s with server := sv, status := status } ph := by
  refine hi.of_server rfl hstage fun r => ?_
  rw [hp'.bits]
  exact hi.control.bits_of_plain hp r

theorem Inv.server_poll (hi : Inv s ph) (hsv : s.server = .poll) :
    Inv { s with server := if s.status = .get then .scan 0 else .poll2 } ph := by
  have hp : s.server.Plain := hsv ▸ trivial
  refine hi.of_plain hp (by split_ifs <;> trivial) ?_
  rcases hi.control.stage.request with hno | ⟨b, hl, hw, hs, hask⟩ | ⟨b, r, hl, hb, hs, hid, hf⟩
  · rw [if_neg hno.get]
    exact hno.poll _ (.inr rfl)
  · rw [if_pos hs]
    refine stage_of_waiting hl hw (.inl ⟨hs, ?_⟩)
    rcases hask with ⟨hg, -⟩ | ⟨hdone, -⟩
    · exact .inl ⟨hg, .scan 0 fun r hr => absurd hr (Nat.not_lt_zero _)⟩
    · rw [hsv] at hdone
      cases hdone
  · rw [if_neg (by rw [hs]; rintro ⟨⟩)]
    refine stage_of_lock hl hb (.inl ⟨hs, hid, ?_⟩)
    rw [hsv] at hf
    cases hf with
    | poll pid hown => exact .poll2 pid hown

theorem Inv.server_poll2 (hi : Inv s ph) (hsv : s.server = .poll2) :
    Inv { s with server := if s.status = .free then .freeRead else .poll } ph := by
  have hp : s.server.Plain := hsv ▸ trivial
  refine hi.of_plain hp (by split_ifs <;> trivial) ?_
  rcases hi.control.stage.request with hno | ⟨b, hl, hw, hs, hask⟩ | ⟨b, r, hl, hb, hs, hid, hf⟩
  · rw [if_neg hno.free]
    exact hno.poll _ (.inl rfl)
  · rw [if_neg (by rw [hs]; rintro ⟨⟩)]
    refine stage_of_waiting hl hw (.inl ⟨hs, ?_⟩)
    rcases hask with ⟨hg, -⟩ | ⟨hdone, -⟩
    · exact .inl ⟨hg, .poll⟩
    · rw [hsv] at hdone
      cases hdone
  · rw [if_pos hs]
    refine stage_of_lock hl hb (.inl ⟨hs, hid, ?_⟩)
    rw [hsv] at hf
    cases hf with
    | poll2 pid hown => exact .freeRead pid hown

/-- The server tests one bit. A clear bit is a free region; when there is none, all regions are in
use and no region is allocated. -/
theorem Inv.server_scan (hi : Inv s ph) {i : ℕ} (hsv : s.server = .scan i) :
    Inv (serverStep s) ph := by
  have hp : s.server.Plain := hsv ▸ trivial
  have hbits := hi.control.bits_of_plain hp
  obtain ⟨b, hl, hw, hs, hg, hsearch⟩ := hi.control.stage.searching hsv trivial
  have hbelow : ∀ r : Region, r < i → HasBit s.bitmap r := by
    cases hsearch with
    | scan _ hbelow => exact hbelow
  simp only [serverStep, hsv]
  split_ifs with hlt hbit
  · refine hi.of_plain hp trivial ?_
    refine stage_of_waiting hl hw (.inl ⟨hs, .inl ⟨hg, .setBit _ ?_⟩⟩)
    have hclear := (getBit_eq_zero s.bitmap ⟨i, hlt⟩).1 hbit
    rw [hbits] at hclear
    exact not_not.1 hclear
  · refine hi.of_plain hp trivial ?_
    refine stage_of_waiting hl hw (.inl ⟨hs, .inl ⟨hg, .scan _ fun r hr => ?_⟩⟩)
    rcases Nat.lt_succ_iff_lt_or_eq.1 hr with hr | hr
    · exact hbelow r hr
    · have hset := (getBit_eq_zero s.bitmap ⟨i, hlt⟩).not.1 hbit
      rw [show r = ⟨i, hlt⟩ from Fin.ext hr]
      exact not_not.1 hset
  · refine hi.of_plain hp trivial ?_
    refine stage_of_waiting hl hw (.inl ⟨hs, .inr ⟨rfl, .inr ⟨hg, fun r => ?_⟩⟩⟩)
    exact (hbits r).1 (hbelow r (r.isLt.trans_le (Nat.le_of_not_lt hlt)))

theorem Inv.server_setBit (hi : Inv s ph) (hsv : s.server = .setBit r) :
    Inv { s with bitmap := setBit s.bitmap r, server := .setRet r } ph := by
  obtain ⟨b, hl, hw, hs, hg, hsearch⟩ := hi.control.stage.searching hsv trivial
  cases hsearch with
  | setBit _ hfree =>
    refine hi.of_server rfl (stage_of_waiting hl hw (.inl ⟨hs, .inl ⟨hg, .setRet r hfree⟩⟩)) ?_
    intro r'
    show HasBit (setBit s.bitmap r) r' ↔ _
    rw [hasBit_setBit, hi.control.bits_of_plain (hsv ▸ trivial)]
    simp [eq_comm, or_comm]

theorem Inv.server_setRet (hi : Inv s ph) (hsv : s.server = .setRet r) :
    Inv { s with retId := r, server := .fork r } ph := by
  obtain ⟨b, hl, hw, hs, hg, hsearch⟩ := hi.control.stage.searching hsv trivial
  cases hsearch with
  | setRet _ hfree =>
    refine hi.of_server rfl (stage_of_waiting hl hw (.inl ⟨hs, .inl ⟨hg, .fork hfree⟩⟩)) ?_
    intro r'
    show HasBit s.bitmap r' ↔ _
    rw [hi.control.bits r', hsv]
    simp

/-- The server posts its answer. -/
theorem Inv.server_setDone (hi : Inv s ph) (hsv : s.server = .setDone) :
    Inv { s with status := .done, server := .poll } ph := by
  refine hi.of_plain (hsv ▸ trivial) trivial ?_
  rcases hi.control.stage.request with hno | ⟨b, hl, hw, hs, hask⟩ | ⟨b, r, hl, hb, hs, hid, hf⟩
  · rcases hno.idle with hidle | hidle
    · rw [hsv] at hidle
      cases hidle
    · rw [hsv] at hidle
      cases hidle
  · rcases hask with ⟨-, hsearch⟩ | ⟨-, hans⟩
    · rw [hsv] at hsearch
      cases hsearch
    · exact stage_of_waiting hl hw (.inr ⟨rfl, .inl rfl, hans⟩)
  · rw [hsv] at hf
    cases hf with
    | setDone hfree => exact stage_of_lock hl hb (.inr ⟨rfl, .inl rfl, hfree⟩)

theorem Inv.server_freeRead (hi : Inv s ph) (hsv : s.server = .freeRead) :
    Inv { s with server := .freeExit s.freeId } ph := by
  refine hi.of_plain (hsv ▸ trivial) trivial ?_
  obtain ⟨b, r, hl, hb, hs, rfl, hf⟩ := hi.control.stage.freeing hsv trivial
  cases hf with
  | freeRead pid hown => exact stage_of_lock hl hb (.inl ⟨hs, rfl, .freeExit pid hown⟩)

/-- The assertion of the server on the bitmap never fails. -/
theorem Inv.server_freeAssert (hi : Inv s ph) (hsv : s.server = .freeAssert r) :
    Inv { s with server := if getBit s.bitmap r = 1#32 then .freeClear r else .aborted } ph := by
  have hp : s.server.Plain := hsv ▸ trivial
  obtain ⟨b, r', hl, hb, hs, hid, hf⟩ := hi.control.stage.freeing hsv trivial
  cases hf with
  | freeAssert pid hclosing =>
    have hbit : getBit s.bitmap r = 1#32 := by
      rw [getBit_eq_one, hi.control.bits_of_plain hp]
      show (ph r).role ≠ .free
      rw [show (ph r).role = .closing b pid from hclosing]
      rintro ⟨⟩
    rw [if_pos hbit]
    exact hi.of_plain hp trivial (stage_of_lock hl hb (.inl ⟨hs, hid, .freeClear pid hclosing⟩))

theorem Inv.server_freeClear (hi : Inv s ph) (hsv : s.server = .freeClear r) :
    Inv { s with bitmap := clearBit s.bitmap r, server := .freeWait r } ph := by
  obtain ⟨b, r', hl, hb, hs, hid, hf⟩ := hi.control.stage.freeing hsv trivial
  cases hf with
  | freeClear pid hclosing =>
    refine hi.of_server rfl (stage_of_lock hl hb (.inl ⟨hs, hid, .freeWait pid hclosing⟩)) ?_
    intro r'
    show HasBit (clearBit s.bitmap r) r' ↔ _
    rw [hasBit_clearBit, hi.control.bits_of_plain (hsv ▸ trivial)]
    simp [eq_comm, and_comm]

end SharedMemory

end HEDB
