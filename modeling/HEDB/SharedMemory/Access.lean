import HEDB.SharedMemory.Exclusivity

/-!
# Access to the header

`Access` is what holds of the lock, the header and the bitmap in every run, with any number of
backends and any timeouts. The backend that has the lock is the one whose request the server works
on: `Turn` says where the server may then stand. A region whose bit is set has been told to some
backend, or it is about to be told to the one that has the lock (`Granting`).

The invariant of the protocol says more, but it does not survive an unreal read, which leaves two
backends with one region. `Access` does. This module has the steps of the server (`Access.server`)
and of the children (`Access.child`).
-/

namespace HEDB

namespace SharedMemory

variable {h : Handler} {s s' : State h} {b : ℕ} {r : Region}

/-! ## Who works on what -/

/-- The server has answered. -/
def State.Done (s : State h) : Prop := s.status = .done ∧ s.server.Idle

/-- The server is asked for a region and has not answered. -/
inductive ServerPc.Getting : ServerPc → Prop
  | poll : Getting .poll
  | poll2 : Getting .poll2
  | scan (i : ℕ) : Getting (.scan i)
  | setBit (r : Region) : Getting (.setBit r)
  | setRet (r : Region) : Getting (.setRet r)
  | fork (r : Region) : Getting (.fork r)
  | setDone : Getting .setDone

/-- The server is asked to free region `r` and has not answered, or it has stopped at its
assertion. -/
inductive ServerPc.Clearing (bitmap : BitVec 32) (r : Region) : ServerPc → Prop
  | poll : Clearing bitmap r .poll
  | poll2 : Clearing bitmap r .poll2
  | freeRead : Clearing bitmap r .freeRead
  | freeExit : Clearing bitmap r (.freeExit r)
  | freeAssert : Clearing bitmap r (.freeAssert r)
  | freeClear : Clearing bitmap r (.freeClear r)
  | freeWait : ¬ HasBit bitmap r → Clearing bitmap r (.freeWait r)
  | setDone : ¬ HasBit bitmap r → Clearing bitmap r .setDone
  | aborted : Clearing bitmap r .aborted

/-- Where the status and the server stand when a backend at this point has the lock. -/
def Turn (s : State h) : BackendPc → Prop
  | .asking .locked => s.Quiet
  | .asking .post => s.Quiet
  | .asking .wait => s.status = .get ∧ s.server.Getting ∨ s.Done
  | .timedOut => s.status = .get ∧ s.server.Getting ∨ s.Done
  | .asking .read => s.Done
  | .holding r p =>
    match p with
    | .getReset => s.Done
    | .getUnlock => s.Quiet
    | .freeLocked => s.Quiet
    | .freeId => s.Quiet
    | .freePost => s.Quiet ∧ s.freeId = r
    | .freeWait => s.status = .free ∧ s.freeId = r ∧ s.server.Clearing s.bitmap r ∨
        s.Done ∧ ¬ HasBit s.bitmap r
    | .freeReset => s.Done ∧ ¬ HasBit s.bitmap r
    | .freeUnlock => s.Quiet ∧ ¬ HasBit s.bitmap r
    | _ => False
  | _ => False

/-- Where the status and the server stand. -/
def State.Turned (s : State h) : Prop :=
  match s.lock with
  | none => s.Quiet
  | some b => Turn s (s.backends b)

/-- The server has set the bit of the region, and `ret_id` names it or is about to. -/
def State.Marked (s : State h) (r : Region) : Prop :=
  s.server = .setRet r ∨ (s.server = .fork r ∨ s.server = .setDone ∨ s.Done) ∧ s.retId = r

/-- The region is being given to the backend that has the lock. -/
def State.Granting (s : State h) (r : Region) : Prop :=
  ∃ b, s.lock = some b ∧ (s.backends b).Pending ∧ s.Marked r

/-- What holds in every run. -/
structure Access (s : State h) : Prop where
  critical : ∀ b, (s.backends b).Critical ↔ s.lock = some b
  turned : s.Turned
  owned : ∀ r, HasBit s.bitmap r → (∃ b, s.Holds b r) ∨ s.Granting r

theorem access_start (h : Handler) : Access (State.start h) where
  critical b := ⟨False.elim, nofun⟩
  turned := ⟨rfl, .inl rfl⟩
  owned r hr := by simp [State.start, HasBit] at hr

/-! ## The server -/

/-- A server that has nothing to do polls. -/
theorem serverStep_of_idle (hidle : s.server.Idle) (hget : s.status ≠ .get)
    (hfree : s.status ≠ .free) :
    ∃ pc : ServerPc, pc.Idle ∧ serverStep s = { s with server := pc } := by
  rcases hidle with hpc | hpc
  · exact ⟨.poll2, .inr rfl, by simp only [serverStep, hpc, if_neg hget]⟩
  · exact ⟨.poll, .inl rfl, by simp only [serverStep, hpc, if_neg hfree]⟩

theorem quiet_serverStep (hq : s.Quiet) : (serverStep s).Quiet ∧
    (serverStep s).bitmap = s.bitmap ∧ (serverStep s).freeId = s.freeId := by
  obtain ⟨hstatus, hidle⟩ := hq
  obtain ⟨pc, hpc, hs⟩ := serverStep_of_idle hidle (by simp [hstatus]) (by simp [hstatus])
  rw [hs]
  exact ⟨⟨hstatus, hpc⟩, rfl, rfl⟩

theorem done_serverStep (hd : s.Done) : (serverStep s).Done ∧
    (serverStep s).bitmap = s.bitmap ∧ (serverStep s).retId = s.retId := by
  obtain ⟨hstatus, hidle⟩ := hd
  obtain ⟨pc, hpc, hs⟩ := serverStep_of_idle hidle (by simp [hstatus]) (by simp [hstatus])
  rw [hs]
  exact ⟨⟨hstatus, hpc⟩, rfl, rfl⟩

/-- The server goes on with a `SHM_GET` or answers it. -/
theorem getting_serverStep (hstatus : s.status = .get) (hpc : s.server.Getting) :
    (serverStep s).status = .get ∧ (serverStep s).server.Getting ∨ (serverStep s).Done := by
  cases hserver : s.server with
  | poll =>
    simp only [serverStep, hserver, if_pos hstatus]
    exact .inl ⟨hstatus, .scan 0⟩
  | poll2 =>
    have hfree : s.status ≠ .free := by simp [hstatus]
    simp only [serverStep, hserver, if_neg hfree]
    exact .inl ⟨hstatus, .poll⟩
  | scan i =>
    simp only [serverStep, hserver]
    split
    · refine .inl ⟨hstatus, ?_⟩
      split <;> constructor
    · exact .inl ⟨hstatus, .setDone⟩
  | setBit r | setRet r | fork r =>
    simp only [serverStep, hserver]
    exact .inl ⟨hstatus, by constructor⟩
  | setDone =>
    simp only [serverStep, hserver]
    exact .inr ⟨rfl, .inl rfl⟩
  | _ => rw [hserver] at hpc; cases hpc

/-- The server goes on with a `SHM_FREE` or answers it. -/
theorem clearing_serverStep (hstatus : s.status = .free) (hfree : s.freeId = r)
    (hpc : s.server.Clearing s.bitmap r) :
    (serverStep s).status = .free ∧ (serverStep s).freeId = r ∧
        (serverStep s).server.Clearing (serverStep s).bitmap r ∨
      (serverStep s).Done ∧ ¬ HasBit (serverStep s).bitmap r := by
  cases hserver : s.server with
  | poll =>
    have hget : s.status ≠ .get := by simp [hstatus]
    simp only [serverStep, hserver, if_neg hget]
    exact .inl ⟨hstatus, hfree, .poll2⟩
  | poll2 =>
    simp only [serverStep, hserver, if_pos hstatus]
    exact .inl ⟨hstatus, hfree, .freeRead⟩
  | freeRead =>
    simp only [serverStep, hserver]
    exact .inl ⟨hstatus, hfree, hfree ▸ .freeExit⟩
  | freeExit r' =>
    rw [hserver] at hpc
    cases hpc
    simp only [serverStep, hserver]
    exact .inl ⟨hstatus, hfree, .freeAssert⟩
  | freeAssert r' =>
    rw [hserver] at hpc
    cases hpc
    simp only [serverStep, hserver]
    refine .inl ⟨hstatus, hfree, ?_⟩
    split <;> constructor
  | freeClear r' =>
    rw [hserver] at hpc
    cases hpc
    simp only [serverStep, hserver]
    exact .inl ⟨hstatus, hfree, .freeWait (by simp [hasBit_clearBit])⟩
  | freeWait r' =>
    rw [hserver] at hpc
    cases hpc with
    | freeWait hbit =>
      simp only [serverStep, hserver]
      split
      · exact .inl ⟨hstatus, hfree, .setDone hbit⟩
      · exact .inl ⟨hstatus, hfree, .setDone hbit⟩
      · exact .inl ⟨hstatus, hfree, by rw [hserver]; exact .freeWait hbit⟩
  | setDone =>
    rw [hserver] at hpc
    cases hpc with
    | setDone hbit =>
      simp only [serverStep, hserver]
      exact .inr ⟨⟨rfl, .inl rfl⟩, hbit⟩
  | aborted =>
    simp only [serverStep, hserver]
    exact .inl ⟨hstatus, hfree, .aborted⟩
  | _ => rw [hserver] at hpc; cases hpc

theorem turned_serverStep (ht : s.Turned) : (serverStep s).Turned := by
  obtain ⟨hlock, hbackends⟩ := serverStep_eq s
  unfold State.Turned at ht ⊢
  rw [hlock, hbackends]
  cases hl : s.lock with
  | none =>
    rw [hl] at ht
    exact (quiet_serverStep ht).1
  | some b =>
    rw [hl] at ht
    dsimp only at ht ⊢
    cases hb : s.backends b with
    | init | gone | aborted => rw [hb] at ht; exact ht
    | timedOut =>
      rw [hb] at ht
      rcases ht with ⟨hstatus, hpc⟩ | hdone
      · exact getting_serverStep hstatus hpc
      · exact .inr (done_serverStep hdone).1
    | asking p =>
      rw [hb] at ht
      cases p with
      | locked | post => exact (quiet_serverStep ht).1
      | wait =>
        rcases ht with ⟨hstatus, hpc⟩ | hdone
        · exact getting_serverStep hstatus hpc
        · exact .inr (done_serverStep hdone).1
      | read => exact (done_serverStep ht).1
    | holding r p =>
      rw [hb] at ht
      cases p with
      | getReset => exact (done_serverStep ht).1
      | getUnlock | freeLocked | freeId => exact (quiet_serverStep ht).1
      | freePost =>
        obtain ⟨hq, -, hid⟩ := quiet_serverStep ht.1
        exact ⟨hq, hid.trans ht.2⟩
      | freeWait =>
        rcases ht with ⟨hstatus, hfree, hpc⟩ | ⟨hdone, hbit⟩
        · exact clearing_serverStep hstatus hfree hpc
        · obtain ⟨hd, hbitmap, -⟩ := done_serverStep hdone
          exact .inr ⟨hd, by rwa [hbitmap]⟩
      | freeReset =>
        obtain ⟨hd, hbitmap, -⟩ := done_serverStep ht.1
        exact ⟨hd, by rw [hbitmap]; exact ht.2⟩
      | freeUnlock =>
        obtain ⟨hq, hbitmap, -⟩ := quiet_serverStep ht.1
        exact ⟨hq, by rw [hbitmap]; exact ht.2⟩
      | ctor | ready | serialize | waitDone | copy | readResp | reset | freeLock => exact ht

/-- A bit that is set is that of the region that the server has found. -/
theorem hasBit_serverStep (hbit : HasBit (serverStep s).bitmap r) :
    HasBit s.bitmap r ∨ s.server = .setBit r := by
  cases hpc : s.server with
  | setBit r' =>
    simp only [serverStep, hpc] at hbit
    rcases (hasBit_setBit ..).mp hbit with rfl | hbit
    · exact .inr rfl
    · exact .inl hbit
  | freeClear r' =>
    simp only [serverStep, hpc] at hbit
    exact .inl ((hasBit_clearBit ..).mp hbit).2
  | scan i | freeWait r' =>
    simp only [serverStep, hpc] at hbit
    split at hbit <;> exact .inl hbit
  | poll | poll2 | setRet | fork | setDone | freeRead | freeExit | freeAssert | aborted =>
    simp only [serverStep, hpc] at hbit
    exact .inl hbit

/-- The region that the server has found is the one that it answers with. -/
theorem marked_serverStep (hm : s.Marked r) : (serverStep s).Marked r := by
  rcases hm with hpc | ⟨hpc | hpc | hdone, hret⟩
  · simp only [serverStep, hpc]
    exact .inr ⟨.inl rfl, rfl⟩
  · simp only [serverStep, hpc]
    exact .inr ⟨.inr (.inl rfl), hret⟩
  · simp only [serverStep, hpc]
    exact .inr ⟨.inr (.inr ⟨rfl, .inl rfl⟩), hret⟩
  · obtain ⟨hd, -, hret'⟩ := done_serverStep hdone
    exact .inr ⟨.inr (.inr hd), hret'.trans hret⟩

/-- A server that sets a bit works for a backend that waits for a region. -/
theorem State.Turned.pending (ht : s.Turned) (hpc : s.server = .setBit r) :
    ∃ b, s.lock = some b ∧ (s.backends b).Pending := by
  have hidle : ¬ s.server.Idle := by simp [hpc, ServerPc.Idle]
  unfold State.Turned at ht
  cases hl : s.lock with
  | none =>
    rw [hl] at ht
    exact absurd ht.2 hidle
  | some b =>
    rw [hl] at ht
    refine ⟨b, rfl, ?_⟩
    dsimp only at ht
    cases hb : s.backends b with
    | init | gone | aborted => rw [hb] at ht; exact ht.elim
    | timedOut => exact .timedOut
    | asking p =>
      rw [hb] at ht
      cases p with
      | locked | post | read => exact absurd ht.2 hidle
      | wait => exact .wait
    | holding r' p =>
      rw [hb] at ht
      cases p with
      | getReset | getUnlock | freeLocked | freeId => exact absurd ht.2 hidle
      | freePost | freeReset | freeUnlock => exact absurd ht.1.2 hidle
      | freeWait =>
        rcases ht with ⟨-, -, hclear⟩ | ⟨hdone, -⟩
        · rw [hpc] at hclear
          cases hclear
        · exact absurd hdone.2 hidle
      | ctor | ready | serialize | waitDone | copy | readResp | reset | freeLock => exact ht.elim

/-- **The server keeps `Access`.** -/
theorem Access.server (ha : Access s) : Access (serverStep s) := by
  obtain ⟨hlock, hbackends⟩ := serverStep_eq s
  refine ⟨fun b => ?_, turned_serverStep ha.turned, fun r hbit => ?_⟩
  · rw [hlock, hbackends]
    exact ha.critical b
  · rcases hasBit_serverStep hbit with hbit | hpc
    · rcases ha.owned r hbit with ⟨b, p, hb⟩ | ⟨b, hl, hb, hm⟩
      · exact .inl ⟨b, p, by rw [hbackends]; exact hb⟩
      · exact .inr ⟨b, hlock.trans hl, by rw [hbackends]; exact hb, marked_serverStep hm⟩
    · obtain ⟨b, hl, hb⟩ := ha.turned.pending hpc
      refine .inr ⟨b, hlock.trans hl, by rw [hbackends]; exact hb, ?_⟩
      simp only [serverStep, hpc]
      exact .inl rfl

/-! ## Children -/

/-- What the lock and the header are about is as before. -/
structure SameHeader (s s' : State h) : Prop where
  lock : s'.lock = s.lock
  status : s'.status = s.status
  freeId : s'.freeId = s.freeId
  retId : s'.retId = s.retId
  bitmap : s'.bitmap = s.bitmap
  server : s'.server = s.server

theorem SameHeader.turn (hs : SameHeader s s') (pc : BackendPc) : Turn s' pc ↔ Turn s pc := by
  simp only [Turn, State.Quiet, State.Done, hs.status, hs.freeId, hs.bitmap, hs.server]

theorem SameHeader.marked (hs : SameHeader s s') : s'.Marked r ↔ s.Marked r := by
  simp only [State.Marked, State.Done, hs.status, hs.retId, hs.server]

/-- A child does not touch the header, nor the backends. -/
theorem childStep_frame (s : State h) (pid seed : ℕ) :
    SameHeader s (childStep s pid seed) ∧ (childStep s pid seed).backends = s.backends := by
  obtain ⟨rs, es, c, heq, -⟩ := childStep_eq s pid seed
  rw [heq]
  exact ⟨⟨rfl, rfl, rfl, rfl, rfl, rfl⟩, rfl⟩

theorem Access.child (ha : Access s) (pid seed : ℕ) : Access (childStep s pid seed) := by
  obtain ⟨hsame, hbackends⟩ := childStep_frame s pid seed
  refine ⟨fun b => ?_, ?_, fun r hbit => ?_⟩
  · rw [hsame.lock, hbackends]
    exact ha.critical b
  · have ht := ha.turned
    unfold State.Turned at ht ⊢
    rw [hsame.lock, hbackends]
    cases hl : s.lock with
    | none =>
      rw [hl] at ht
      exact ⟨hsame.status.trans ht.1, hsame.server ▸ ht.2⟩
    | some b =>
      rw [hl] at ht
      exact (hsame.turn _).mpr ht
  · rw [hsame.bitmap] at hbit
    rcases ha.owned r hbit with ⟨b, p, hb⟩ | ⟨b, hl, hb, hm⟩
    · exact .inl ⟨b, p, by rw [hbackends]; exact hb⟩
    · exact .inr ⟨b, hsame.lock.trans hl, by rw [hbackends]; exact hb, hsame.marked.mpr hm⟩

end SharedMemory

end HEDB
