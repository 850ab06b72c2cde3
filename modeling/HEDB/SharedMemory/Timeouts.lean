import HEDB.SharedMemory.Access

/-!
# Giving up on a connection

A backend that has waited too long for a region returns from `getSharedBuffer` with a null pointer.
It has the lock and keeps it, and the request that it has posted stays in the header.

The steps of a backend keep `Access` as well (`Access.backend`), so it holds in every run. It
follows that the allocator stays usable exactly as long as no backend has timed out (`usable_iff`).
After a timeout no backend that has not connected yet ever does (`blocked`), and the region that the
server has allocated in the meantime belongs to nobody (`left_locked`).
-/

namespace HEDB

namespace SharedMemory

variable {h : Handler} {s s' : State h} {b : ℕ} {r : Region}

/-! ## Backends -/

/-- A backend goes on. -/
theorem Access.goto (ha : Access s) {pc : BackendPc}
    (hbackends : s'.backends = Function.update s.backends b pc) (hbitmap : s'.bitmap = s.bitmap)
    (hlock : ∀ b' ≠ b, s'.lock = some b' ↔ s.lock = some b')
    (hcrit : pc.Critical ↔ s'.lock = some b)
    (hturned : s'.Turned)
    (howned : ∀ r, HasBit s.bitmap r → s.Holds b r ∨ s.Granting r →
      (∃ p, pc = .holding r p) ∨ s'.Granting r) : Access s' := by
  have hself : s'.backends b = pc := by rw [hbackends, Function.update_self]
  have hother (b' : ℕ) (hb' : b' ≠ b) : s'.backends b' = s.backends b' := by
    rw [hbackends, Function.update_of_ne hb']
  refine ⟨fun b' => ?_, hturned, fun r hbit => ?_⟩
  · by_cases hb' : b' = b
    · rw [hb', hself, hcrit]
    · rw [hother b' hb', hlock b' hb']
      exact ha.critical b'
  · rw [hbitmap] at hbit
    have hheld : s.Holds b r ∨ s.Granting r → (∃ b, s'.Holds b r) ∨ s'.Granting r := by
      intro hold
      rcases howned r hbit hold with ⟨p, hp⟩ | hgrant
      · exact .inl ⟨b, p, hself.trans hp⟩
      · exact .inr hgrant
    rcases ha.owned r hbit with ⟨b', hb'⟩ | hgrant
    · by_cases hbb : b' = b
      · exact hheld (.inl (hbb ▸ hb'))
      · obtain ⟨p, hp⟩ := hb'
        exact .inl ⟨b', p, (hother b' hbb).trans hp⟩
    · exact hheld (.inr hgrant)

theorem State.Turned.of_lock {pc : BackendPc} (hl : s.lock = some b) (hb : s.backends b = pc)
    (ht : Turn s pc) : s.Turned := by
  unfold State.Turned
  rw [hl]
  dsimp only
  rwa [hb]

theorem State.Turned.turn {pc : BackendPc} (ht : s.Turned) (hl : s.lock = some b)
    (hb : s.backends b = pc) : Turn s pc := by
  unfold State.Turned at ht
  rw [hl] at ht
  dsimp only at ht
  rwa [hb] at ht

theorem State.Turned.quiet (ht : s.Turned) (hl : s.lock = none) : s.Quiet := by
  unfold State.Turned at ht
  rwa [hl] at ht

/-- A backend that has the lock and does not wait for a region is not being given one. -/
theorem not_granting (hl : s.lock = some b) (hb : ¬ (s.backends b).Pending) : ¬ s.Granting r := by
  rintro ⟨b', hl', hb', -⟩
  rw [hl, Option.some.injEq] at hl'
  exact hb (hl' ▸ hb')

/-- A backend that has the lock goes on. -/
theorem Access.keep_lock (ha : Access s) {pc : BackendPc} (hl : s.lock = some b)
    (hl' : s'.lock = some b) (hbackends : s'.backends = Function.update s.backends b pc)
    (hbitmap : s'.bitmap = s.bitmap) (hpc : pc.Critical) (hturn : Turn s' pc)
    (howned : ∀ r, HasBit s.bitmap r → s.Holds b r ∨ s.Granting r →
      (∃ p, pc = .holding r p) ∨ s'.Granting r) : Access s' := by
  have hself : s'.backends b = pc := by rw [hbackends, Function.update_self]
  refine ha.goto hbackends hbitmap (fun b' _ => by rw [hl, hl']) ?_
    (.of_lock hl' hself hturn) howned
  exact iff_of_true hpc hl'

/-- A backend takes the lock. -/
theorem Access.take_lock (ha : Access s) {pc : BackendPc} (hl : s.lock = none)
    (hs : s' = { s with lock := some b }.goto b pc) (hpc : pc.Critical)
    (hturn : s.Quiet → Turn s pc) (howned : ∀ r, s.Holds b r → ∃ p, pc = .holding r p) :
    Access s' := by
  subst hs
  have hsame : Turn ({ s with lock := some b }.goto b pc) pc ↔ Turn s pc := Iff.rfl
  have hself : ({ s with lock := some b }.goto b pc).backends b = pc := Function.update_self ..
  refine ha.goto rfl rfl (fun b' hb' => ?_) (iff_of_true hpc rfl)
    (.of_lock rfl hself (hsame.mpr (hturn (ha.turned.quiet hl)))) fun r _ hold => ?_
  · rw [hl]
    exact iff_of_false (fun heq => hb' (Option.some.inj heq).symm) nofun
  · rcases hold with hb | ⟨b', hl', -⟩
    · exact .inl (howned r hb)
    · rw [hl] at hl'
      cases hl'

/-- A backend releases the lock. -/
theorem Access.release_lock (ha : Access s) {pc : BackendPc} (hl : s.lock = some b)
    (hs : s' = { s with lock := none }.goto b pc) (hpc : ¬ pc.Critical) (hq : s.Quiet)
    (hb : ¬ (s.backends b).Pending)
    (howned : ∀ r, HasBit s.bitmap r → s.Holds b r → ∃ p, pc = .holding r p) : Access s' := by
  subst hs
  refine ha.goto rfl rfl (fun b' hb' => ?_) (iff_of_false hpc nofun) hq fun r hbit hold => ?_
  · rw [hl]
    exact iff_of_false nofun fun heq => hb' (Option.some.inj heq).symm
  · rcases hold with hold | hgrant
    · exact .inl (howned r hbit hold)
    · exact absurd hgrant (not_granting hl hb)

/-- A backend goes on that does not have the lock. -/
theorem Access.inside (ha : Access s) {r : Region} {p p' : HoldPc}
    (hb : s.backends b = .holding r p) (hsame : SameHeader s s')
    (hbackends : s'.backends = Function.update s.backends b (.holding r p'))
    (hp : ¬ (BackendPc.holding r p).Critical) (hp' : ¬ (BackendPc.holding r p').Critical) :
    Access s' := by
  have hl : s.lock ≠ some b := fun hl => hp (hb ▸ (ha.critical b).mpr hl)
  have hother (b' : ℕ) (hl' : s.lock = some b') : s'.backends b' = s.backends b' := by
    rw [hbackends, Function.update_of_ne]
    rintro rfl
    exact hl hl'
  refine ha.goto hbackends hsame.bitmap (fun b' _ => by rw [hsame.lock])
    (iff_of_false hp' (hsame.lock ▸ hl)) ?_ fun r' _ hold => ?_
  · have ht := ha.turned
    unfold State.Turned at ht ⊢
    rw [hsame.lock]
    cases hlock : s.lock with
    | none =>
      rw [hlock] at ht
      exact ⟨hsame.status.trans ht.1, hsame.server ▸ ht.2⟩
    | some b' =>
      rw [hlock] at ht
      dsimp only
      rw [hother b' hlock]
      exact (hsame.turn _).mpr ht
  · rcases hold with ⟨p₁, hp₁⟩ | ⟨b', hl', hb', hm⟩
    · rw [hb] at hp₁
      cases hp₁
      exact .inl ⟨p', rfl⟩
    · exact .inr ⟨b', hsame.lock.trans hl', by rw [hother b' hl']; exact hb', hsame.marked.mpr hm⟩

/-! ## The steps of a backend -/

/-- A backend in `getSharedBuffer`. -/
theorem Access.ask (ha : Access s) {p : AskPc} (hb : s.backends b = .asking p) (c : Choice) :
    Access (askStep s b c p) := by
  have hl : s.lock = some b := (ha.critical b).mp (hb ▸ trivial)
  have ht := ha.turned.turn hl hb
  have hholds (r : Region) : ¬ s.Holds b r := by
    rintro ⟨p', hp'⟩
    rw [hb] at hp'
    cases hp'
  -- As long as the backend does not wait, nothing is being given to it.
  have hnone (hp : ¬ (BackendPc.asking p).Pending) (r : Region) :
    ¬ (s.Holds b r ∨ s.Granting r) := by
    rintro (hold | hgrant)
    · exact hholds r hold
    · exact not_granting hl (hb ▸ hp) hgrant
  cases p with
  | locked =>
    rw [askStep, if_pos (show s.status = .none from ht.1)]
    exact ha.keep_lock hl hl rfl rfl trivial ht fun r _ hold => absurd hold (hnone (by rintro ⟨⟩) r)
  | post =>
    refine ha.keep_lock hl hl rfl rfl trivial (.inl ⟨rfl, ?_⟩) fun r _ hold =>
      absurd hold (hnone (by rintro ⟨⟩) r)
    rcases ht.2 with hpc | hpc
    · exact hpc ▸ .poll
    · exact hpc ▸ .poll2
  | wait =>
    have hkeep {pc : BackendPc} (hpc : pc.Critical) (hp : pc.Pending)
        (hturn : Turn s pc) : Access (s.goto b pc) := by
      refine ha.keep_lock hl hl rfl rfl hpc hturn fun r _ hold => ?_
      rcases hold with hold | ⟨b', hl', hb', hm⟩
      · exact absurd hold (hholds r)
      · have hself : (s.goto b pc).backends b = pc := Function.update_self ..
        exact .inr ⟨b, hl, by rw [hself]; exact hp, hm⟩
    cases c with
    | timeout => exact hkeep trivial .timedOut ht
    | go | send | free =>
      simp only [askStep]
      split
      · rename_i hdone
        refine hkeep trivial .read ?_
        rcases ht with ⟨hget, -⟩ | hd
        · rw [hdone] at hget
          cases hget
        · exact hd
      · exact ha
  | read =>
    refine ha.keep_lock hl hl rfl rfl trivial ht fun r _ hold => ?_
    rcases hold with hold | ⟨-, -, -, hpc | ⟨-, hret⟩⟩
    · exact absurd hold (hholds r)
    · rcases ht.2 with hpc' | hpc' <;> rw [hpc] at hpc' <;> cases hpc'
    · exact .inl ⟨.getReset, by rw [hret]⟩

/-- A backend that has a region. -/
theorem Access.hold (ha : Access s) {p : HoldPc} (hb : s.backends b = .holding r p) (c : Choice) :
    Access (holdStep s b r c p) := by
  have hregion (r' : Region) (hold : s.Holds b r') : r' = r := by
    obtain ⟨p', hp'⟩ := hold
    rw [hb] at hp'
    cases hp'
    rfl
  have hpending : ¬ (s.backends b).Pending := by
    rw [hb]
    exact nofun
  -- The backend has the lock and keeps its region.
  have hkeep (p' : HoldPc) {s' : State h} (hcrit : (BackendPc.holding r p).Critical)
      (hcrit' : (BackendPc.holding r p').Critical) (hl' : s'.lock = s.lock)
      (hbackends : s'.backends = Function.update s.backends b (.holding r p'))
      (hbitmap : s'.bitmap = s.bitmap)
      (hturn : Turn s (.holding r p) → Turn s' (.holding r p')) : Access s' := by
    have hl : s.lock = some b := (ha.critical b).mp (hb ▸ hcrit)
    refine ha.keep_lock hl (hl'.trans hl) hbackends hbitmap hcrit' (hturn (ha.turned.turn hl hb)) ?_
    rintro r' - (hold | hgrant)
    · exact .inl ⟨p', by rw [hregion r' hold]⟩
    · exact absurd hgrant (not_granting hl hpending)
  have hquiet (hcrit : (BackendPc.holding r p).Critical) :
      s.lock = some b ∧ Turn s (.holding r p) := by
    have hl : s.lock = some b := (ha.critical b).mp (hb ▸ hcrit)
    exact ⟨hl, ha.turned.turn hl hb⟩
  cases p with
  | getReset => exact hkeep .getUnlock trivial trivial rfl rfl rfl fun ht => ⟨rfl, ht.2⟩
  | getUnlock =>
    obtain ⟨hl, ht⟩ := hquiet trivial
    refine ha.release_lock hl rfl id ht hpending fun r' _ hold => ⟨.ctor, ?_⟩
    rw [hregion r' hold]
  | ctor | copy | readResp | reset =>
    exact ha.inside hb ⟨rfl, rfl, rfl, rfl, rfl, rfl⟩ rfl id id
  | ready =>
    cases c with
    | send | free => exact ha.inside hb ⟨rfl, rfl, rfl, rfl, rfl, rfl⟩ rfl id id
    | go | timeout => exact ha
  | serialize q ws =>
    cases ws <;> exact ha.inside hb ⟨rfl, rfl, rfl, rfl, rfl, rfl⟩ rfl id id
  | waitDone q =>
    simp only [holdStep]
    split
    · exact ha.inside hb ⟨rfl, rfl, rfl, rfl, rfl, rfl⟩ rfl id id
    · exact ha
  | freeLock =>
    simp only [holdStep]
    split
    · rename_i hl
      refine ha.take_lock hl rfl trivial id fun r' hold => ⟨.freeLocked, ?_⟩
      rw [hregion r' hold]
    · exact ha
  | freeLocked =>
    obtain ⟨-, ht⟩ := hquiet trivial
    rw [holdStep, if_pos (show s.status = .none from ht.1)]
    exact hkeep .freeId trivial trivial rfl rfl rfl id
  | freeId => exact hkeep .freePost trivial trivial rfl rfl rfl fun ht => ⟨ht, rfl⟩
  | freePost =>
    refine hkeep .freeWait trivial trivial rfl rfl rfl fun ht => .inl ⟨rfl, ht.2, ?_⟩
    rcases ht.1.2 with hpc | hpc
    · exact hpc ▸ .poll
    · exact hpc ▸ .poll2
  | freeWait =>
    simp only [holdStep]
    split
    · rename_i hdone
      refine hkeep .freeReset trivial trivial rfl rfl rfl fun ht => ?_
      rcases ht with ⟨hfree, -⟩ | hd
      · rw [hdone] at hfree
        cases hfree
      · exact hd
    · exact ha
  | freeReset => exact hkeep .freeUnlock trivial trivial rfl rfl rfl fun ht => ⟨⟨rfl, ht.1.2⟩, ht.2⟩
  | freeUnlock =>
    obtain ⟨hl, hq, hbit⟩ := hquiet trivial
    refine ha.release_lock hl rfl id hq hpending fun r' hbit' hold => ?_
    rw [hregion r' hold] at hbit'
    exact absurd hbit' hbit

theorem Access.backend (ha : Access s) (b : ℕ) (c : Choice) : Access (backendStep s b c) := by
  unfold backendStep
  cases hb : s.backends b with
  | init =>
    dsimp only
    split
    · rename_i hl
      refine ha.take_lock hl rfl trivial id fun r hold => ?_
      obtain ⟨p, hp⟩ := hold
      rw [hb] at hp
      cases hp
    · exact ha
  | asking p => exact ha.ask hb c
  | holding r p => exact ha.hold hb c
  | gone | timedOut | aborted => exact ha

/-- **`Access` holds in every run.** -/
theorem access_of_reach (hs : Reach step (fun _ _ => True) (State.start h) s) : Access s := by
  refine hs.invariant (access_start h) fun s l ha _ => ?_
  cases l with
  | server => exact ha.server
  | child pid seed => exact ha.child pid seed
  | backend b c => exact ha.backend b c

/-! ## A usable allocator -/

/-- A backend that has returned from `getSharedBuffer`, with a region or with a null pointer, or
from `freeBuffer`. -/
inductive BackendPc.Returned : BackendPc → Prop
  | region (r : Region) {p : HoldPc} : p.Inside → Returned (.holding r p)
  | null : Returned .timedOut
  | freed : Returned .gone

/-- The allocator is usable: a backend that has returned does not have the lock; when the lock is
free, nothing is under way and every region in use has been told to some backend; and no assertion
has failed. -/
structure State.Usable (s : State h) : Prop where
  released : ∀ b, (s.backends b).Returned → s.lock ≠ some b
  status : s.lock = none → s.status = .none
  owned : s.lock = none → ∀ r, HasBit s.bitmap r → ∃ b, s.Holds b r
  asserted : ∀ b, s.backends b ≠ .aborted

theorem Access.not_aborted (ha : Access s) (b : ℕ) : s.backends b ≠ .aborted := by
  intro hb
  have hl : s.lock = some b := (ha.critical b).mp (hb ▸ trivial)
  exact ha.turned.turn hl hb

/-- **The allocator is usable exactly as long as no backend has timed out.** -/
theorem usable_iff (hs : Reach step (fun _ _ => True) (State.start h) s) :
    s.Usable ↔ ∀ b, s.backends b ≠ .timedOut := by
  have ha := access_of_reach hs
  constructor
  · intro hu b hb
    exact hu.released b (hb ▸ .null) ((ha.critical b).mp (hb ▸ trivial))
  · intro hno
    refine ⟨fun b hret hl => ?_, fun hl => (ha.turned.quiet hl).1, fun hl r hbit => ?_,
      ha.not_aborted⟩
    · have hcrit := (ha.critical b).mpr hl
      generalize hb : s.backends b = pc at hret hcrit
      cases hret with
      | region r hp => cases hp <;> exact hcrit
      | null => exact hno b hb
      | freed => exact hcrit
    · rcases ha.owned r hbit with hold | ⟨b, hl', -⟩
      · exact hold
      · rw [hl] at hl'
        cases hl'

/-- The labels move the backend `0` only, so the others have not started. -/
theorem backends_of_labels {ls : List Label} (hls : ∀ b c, .backend b c ∈ ls → b = 0) {b : ℕ}
    (hb : b ≠ 0) : (ls.foldl step s).backends b = s.backends b := by
  induction ls generalizing s with
  | nil => rfl
  | cons l ls ih =>
    rw [List.foldl_cons, ih fun b' c hmem => hls b' c (List.mem_cons_of_mem _ hmem)]
    refine step_backends s ?_
    cases l with
    | backend b' c =>
      rintro ⟨⟩
      exact hb (hls b c List.mem_cons_self)
    | _ => rintro ⟨⟩

/-- A backend connects. -/
def connectingFully : List Label :=
  List.replicate 3 (.backend 0 .go) ++ List.replicate 6 .server ++ List.replicate 4 (.backend 0 .go)

theorem usable_connected : ∃ s : State .idle, Reach step (fun _ _ => True) (State.start .idle) s ∧
    HasBit s.bitmap ⟨0, by decide⟩ ∧ s.Usable := by
  have hs : Reach step (fun _ _ => True) _ _ :=
    reach_of_labels (State.start .idle) connectingFully fun _ _ => trivial
  refine ⟨_, hs, rfl, (usable_iff hs).mpr fun b hb => ?_⟩
  by_cases hb₀ : b = 0
  · subst hb₀
    cases hb
  · rw [backends_of_labels (by simp [connectingFully]) hb₀] at hb
    cases hb

/-! ## A lock that is never released -/

/-- A backend that has timed out stays where it is, and the others do not get the lock. -/
theorem Access.stuck (ha : Access s) (hb : s.backends b = .timedOut) (l : Label) :
    (step s l).backends b = .timedOut ∧
      ∀ b', s.backends b' = .init → (step s l).backends b' = .init := by
  have hl : s.lock = some b := (ha.critical b).mp (hb ▸ trivial)
  cases l with
  | server =>
    rw [step, (serverStep_eq s).2]
    exact ⟨hb, fun _ => id⟩
  | child pid seed =>
    rw [step, (childStep_frame s pid seed).2]
    exact ⟨hb, fun _ => id⟩
  | backend b₁ c =>
    have hself {b' : ℕ} (hstay : b' = b₁ → backendStep s b₁ c = s) :
        (backendStep s b₁ c).backends b' = s.backends b' := by
      by_cases hne : b' = b₁
      · rw [hstay hne]
      · exact (ofBackend s b₁ c).others b' hne
    refine ⟨(hself ?_).trans hb, fun b' hb' => (hself ?_).trans hb'⟩
    · rintro rfl
      simp only [backendStep, hb]
    · rintro rfl
      simp only [backendStep, hb', hl, reduceCtorEq, if_false]

/-- **After a timeout nobody connects.** -/
theorem blocked (hs : Reach step (fun _ _ => True) (State.start h) s)
    (hb : s.backends b = .timedOut)
    (hs' : Reach step (fun _ _ => True) s s') :
    s'.lock = some b ∧ ∀ b', s.backends b' = .init → s'.backends b' = .init := by
  have hstuck : s'.backends b = .timedOut ∧
      ∀ b', s.backends b' = .init → s'.backends b' = .init := by
    induction hs' with
    | init => exact ⟨hb, fun _ => id⟩
    | step l hreach _ ih =>
      obtain ⟨hb₁, hinit⟩ := (access_of_reach (hs.trans hreach)).stuck ih.1 l
      exact ⟨hb₁, fun b' hb' => hinit b' (ih.2 b' hb')⟩
  refine ⟨?_, hstuck.2⟩
  exact ((access_of_reach (hs.trans hs')).critical b).mp (hstuck.1 ▸ trivial)

/-- A backend posts its request and gives up; then the server answers. -/
def givingUp : List Label :=
  List.replicate 3 (.backend 0 .go) ++ .backend 0 .timeout :: List.replicate 6 .server

/-- **A timeout leaves the lock taken for ever, and a region in use that belongs to nobody.** -/
theorem left_locked : ∃ s : State .idle, Reach step (fun _ _ => True) (State.start .idle) s ∧
    s.backends 0 = .timedOut ∧ ¬ s.Usable ∧ HasBit s.bitmap ⟨0, by decide⟩ ∧
    (∀ b r, ¬ s.Holds b r) ∧
    ∀ s', Reach step (fun _ _ => True) s s' → s'.lock = some 0 ∧ s'.backends 1 = .init := by
  have hs : Reach step (fun _ _ => True) _ _ :=
    reach_of_labels (State.start .idle) givingUp fun _ _ => trivial
  refine ⟨_, hs, rfl, fun hu => hu.released 0 .null rfl, rfl, ?_, fun s' hs' => ?_⟩
  · rintro b r ⟨p, hp⟩
    by_cases hb : b = 0
    · subst hb
      cases hp
    · have hls : ∀ b c, .backend b c ∈ givingUp → b = 0 := by
        simp only [givingUp, List.mem_append, List.mem_cons, List.mem_replicate]
        grind
      rw [backends_of_labels hls hb] at hp
      cases hp
  · obtain ⟨hl, hinit⟩ := blocked (b := 0) hs rfl hs'
    exact ⟨hl, hinit 1 rfl⟩

end SharedMemory

end HEDB
