import HEDB.SharedMemory.Regions
import HEDB.SharedMemory.Allocation
import HEDB.SharedMemory.Processes

/-!
# Who holds a region

The steps of all processes together: every step but one keeps the invariant (`Inv.step`), and under
the invariant no two backends hold the same region (`Inv.exclusive`).

The one step is the `Unreal` read. The server posts `SHM_DONE` also when it has found no free
region, and a backend cannot tell: it takes the region that `ret_id` still names from the last
allocation, which another backend holds (`Inv.not_exclusive_of_unreal`). This happens exactly when
there is one backend more than there are regions (`exclusive_step_iff`).

* `exclusive_of_atMost`: with no more backends than regions, regions are exclusive and every grant
  is real.
* `two_holders`: seventeen backends, two of which hold the same region.
-/

namespace HEDB

namespace SharedMemory

variable {h : Handler} {s : State h} {ph : Region → Phase}

/-! ## Every step -/

/-- The invariant holds at first, whatever the regions hold besides their status words. -/
theorem inv_of_memory (h : Handler) (left : Region → Mem) :
    Inv { State.start h with regions := fun r => ⟨.none, left r⟩ } fun _ => .free where
  control :=
    { critical := fun b => ⟨False.elim, by rintro ⟨⟩⟩
      stage := ⟨rfl, .inl rfl⟩
      bits := fun r => by simp [State.start, HasBit, Phase.role]
      children := by rintro _ _ ⟨⟩
      fresh := fun _ _ => rfl
      holds := by rintro _ _ _ ⟨⟩ }
  regions _ := rfl
  log _ := .nil _

theorem inv_start (h : Handler) : Inv (State.start h) fun _ => .free :=
  inv_of_memory h fun _ => Mem.zero

/-- A backend keeps the invariant, unless it takes a region that was not allocated to it. -/
theorem Inv.backend (hi : Inv s ph) (b : ℕ) (c : Choice) (hreal : ¬ Unreal s (.backend b c)) :
    ∃ ph', Inv (backendStep s b c) ph' := by
  unfold backendStep
  cases hb : s.backends b with
  | init =>
    dsimp only
    split_ifs with hl
    · exact ⟨ph, hi.start_get hb hl⟩
    · exact ⟨ph, hi⟩
  | asking p => exact ⟨ph, hi.ask hb c hreal⟩
  | holding r p =>
    by_cases hp : p.Inside
    · exact hi.inside hb hp c
    · exact ⟨ph, hi.outside hb hp c⟩
  | gone => exact ⟨ph, hi⟩
  | timedOut => exact ⟨ph, hi⟩
  | aborted => exact ⟨ph, hi⟩

/-- **Every step but an unreal read keeps the invariant.** -/
theorem Inv.step (hi : Inv s ph) (l : Label) (hreal : ¬ Unreal s l) : ∃ ph',
    Inv (step s l) ph' := by
  cases l with
  | server => exact hi.server
  | child pid seed => exact hi.child pid seed
  | backend b c => exact hi.backend b c hreal

/-! ## Exclusivity -/

/-- **Under the invariant a region is held by one backend at a time.** -/
theorem Inv.exclusive (hi : Inv s ph) : s.Exclusive := by
  rintro b b' r ⟨p, hp⟩ ⟨p', hp'⟩
  rcases hi.control.holds b r p hp with ho | ⟨hf, hrel⟩
  · rcases hi.control.holds b' r p' hp' with ho' | ⟨hf', -⟩
    · exact Option.some.inj (ho.symm.trans ho')
    · rw [hf'] at ho
      cases ho
  · rcases hi.control.holds b' r p' hp' with ho' | ⟨-, hrel'⟩
    · rw [hf] at ho'
      cases ho'
    · have hl := (hi.control.critical b).1 (hp ▸ hrel.critical r)
      have hl' := (hi.control.critical b').1 (hp' ▸ hrel'.critical r)
      exact Option.some.inj (hl.symm.trans hl')

/-- Every region has an owner when a `SHM_GET` was answered without an allocation. -/
theorem Inv.full_of_unreal (hi : Inv s ph) {b : ℕ} (hb : s.backends b = .asking .read)
    (hg : s.granted = none) (r : Region) : ∃ b' ≠ b, s.Holds b' r := by
  obtain ⟨hl, -, -, ⟨hg', -⟩ | ⟨-, hfull⟩⟩ := hi.control.holder hb trivial
  · rw [hg] at hg'
    cases hg'
  · obtain ⟨b', ho⟩ : ∃ b', (ph r).role.owner = some b' := by
      rw [← Option.ne_none_iff_exists']
      exact fun ho => hfull r (Role.eq_free_of_owner ho)
    obtain ⟨pid, -, -, c, -, hrow⟩ := (hi.regions r).served ho
    rcases hrow.owner_at with ⟨-, hg'⟩ | ⟨p, hb'⟩
    · rw [hg] at hg'
      cases hg'
    · refine ⟨b', ?_, p, hb'⟩
      rintro rfl
      cases hb.symm.trans hb'

/-- **An unreal read takes a region that another backend holds.** -/
theorem Inv.not_exclusive_of_unreal (hi : Inv s ph) {b : ℕ} (c : Choice)
    (hb : s.backends b = .asking .read) (hg : s.granted = none) :
    ¬ (SharedMemory.step s (.backend b c)).Exclusive := by
  obtain ⟨b', hne, p, hb'⟩ := hi.full_of_unreal hb hg s.retId
  have hs : SharedMemory.step s (.backend b c) = s.goto b (.holding s.retId .getReset) := by
    simp only [SharedMemory.step, backendStep, hb, askStep]
  rw [hs]
  intro hex
  refine hne (hex b' b s.retId ⟨p, ?_⟩ ⟨.getReset, Function.update_self ..⟩)
  exact (Function.update_of_ne hne ..).trans hb'

/-! ## How many backends there are -/

/-- A backend has started to ask for a region and has not given it back. -/
def State.Connected (s : State h) (b : ℕ) : Prop := s.backends b ≠ .init ∧ s.backends b ≠ .gone

/-- There are no more backends than regions. -/
def State.AtMost (s : State h) : Prop :=
  ∀ t : Finset ℕ, (∀ b ∈ t, s.Connected b) → t.card ≤ maxRegionNum

/-- A backend that is told that it has a region has the region that `ret_id` names. -/
def State.GrantsReal (s : State h) : Prop :=
  ∀ b, s.backends b = .asking .read → s.granted = some s.retId

theorem connected_of_holds {b : ℕ} {r : Region} (hb : s.Holds b r) : s.Connected b := by
  obtain ⟨p, hp⟩ := hb
  unfold State.Connected
  rw [hp]
  exact ⟨by rintro ⟨⟩, by rintro ⟨⟩⟩

/-- An unreal read takes one backend more than there are regions. -/
theorem Inv.not_atMost_of_unreal (hi : Inv s ph) {b : ℕ} (hb : s.backends b = .asking .read)
    (hg : s.granted = none) : ¬ s.AtMost := by
  intro hmost
  choose f hne hf using hi.full_of_unreal hb hg
  have hinj : Function.Injective f := by
    intro r r' hrr
    obtain ⟨p, hp⟩ := hf r
    obtain ⟨p', hp'⟩ := hf r'
    rw [hrr, hp'] at hp
    cases hp
    rfl
  have hb' : b ∉ Finset.univ.image f := by
    simp only [Finset.mem_image, Finset.mem_univ, true_and, not_exists]
    exact hne
  have hcard := hmost (insert b (Finset.univ.image f)) ?_
  · rw [Finset.card_insert_of_notMem hb', Finset.card_image_of_injective _ hinj,
      Finset.card_univ, Fintype.card_fin] at hcard
    omega
  · intro b' hmem
    rcases Finset.mem_insert.1 hmem with rfl | hmem
    · unfold State.Connected
      rw [hb]
      exact ⟨by rintro ⟨⟩, by rintro ⟨⟩⟩
    · obtain ⟨r, -, rfl⟩ := Finset.mem_image.1 hmem
      exact connected_of_holds (hf r)

/-- When a region has been allocated for the backend that reads `ret_id`, every backend has its own
region. -/
theorem Inv.atMost_of_granted (hi : Inv s ph) {b : ℕ} (hb : s.backends b = .asking .read)
    (hg : s.granted ≠ none) : s.AtMost := by
  obtain ⟨hl, -, -, ⟨-, pid, hown⟩ | ⟨hg', -⟩⟩ := hi.control.holder hb trivial
  · intro t ht
    have hsub : t.image some ⊆ Finset.univ.image fun r => (ph r).role.owner := by
      intro o ho
      obtain ⟨b', hb', rfl⟩ := Finset.mem_image.1 ho
      simp only [Finset.mem_image, Finset.mem_univ, true_and]
      by_cases hbb : b' = b
      · exact ⟨s.retId, by rw [hbb]; exact congrArg Role.owner hown⟩
      · -- the other backends do not have the lock, so they hold a region or are not there
        have hcrit : ¬ (s.backends b').Critical := fun hc => hbb <| Option.some.inj <|
          ((hi.control.critical b').1 hc).symm.trans hl
        obtain ⟨hinit, hgone⟩ := ht b' hb'
        cases hpc : s.backends b' with
        | holding r p =>
          refine ⟨r, hi.owner hpc fun hrel => hcrit ?_⟩
          rw [hpc]
          exact hrel.critical r
        | init => exact absurd hpc hinit
        | gone => exact absurd hpc hgone
        | _ => rw [hpc] at hcrit; exact absurd trivial hcrit
    calc t.card = (t.image some).card :=
          (Finset.card_image_of_injective t (Option.some_injective ℕ)).symm
      _ ≤ (Finset.univ.image fun r => (ph r).role.owner).card := Finset.card_le_card hsub
      _ ≤ (Finset.univ : Finset Region).card := Finset.card_image_le
      _ = maxRegionNum := by rw [Finset.card_univ, Fintype.card_fin]
  · exact absurd hg' hg

/-! ## Runs -/

/-- A run in which no region is held twice never makes an unreal read. -/
theorem inv_of_exclusive (hs : Reach step (fun s l => (step s l).Exclusive) (State.start h) s) :
    ∃ ph, Inv s ph := by
  refine hs.invariant (I := fun s => ∃ ph, Inv s ph) ⟨_, inv_start h⟩ ?_
  rintro s l ⟨ph, hi⟩ hex
  refine hi.step l fun hun => ?_
  cases l with
  | backend b c => exact hi.not_exclusive_of_unreal c hun.1 hun.2 hex
  | server => exact hun
  | child pid seed => exact hun

/-- With no more backends than regions every step keeps the invariant. -/
theorem Inv.step_of_atMost (hi : Inv s ph) (hmost : s.AtMost) (l : Label) :
    ∃ ph', Inv (SharedMemory.step s l) ph' := by
  refine hi.step l fun hun => ?_
  cases l with
  | backend b c => exact hi.not_atMost_of_unreal hun.1 hun.2 hmost
  | server => exact hun
  | child pid seed => exact hun

theorem atMost_of_init (hs : ∀ b, maxRegionNum ≤ b → s.backends b = .init) : s.AtMost := by
  intro t ht
  have hsub : t ⊆ Finset.range maxRegionNum := by
    intro b hb
    by_contra hlt
    exact (ht b hb).1 (hs b (by simpa using hlt))
  simpa using Finset.card_le_card hsub

/-- The processes of a run with sixteen backends. -/
def Label.Few : Label → Prop
  | .server => True
  | .child _ _ => True
  | .backend b _ => b < maxRegionNum

theorem reach_atMost {s₀ : State h} (h₀ : ∀ b, maxRegionNum ≤ b → s₀.backends b = .init)
    (hs : Reach step (fun _ l => l.Few) s₀ s) :
    Reach step (fun s l => (step s l).AtMost) s₀ s := by
  suffices hboth : Reach step (fun s l => (step s l).AtMost) s₀ s ∧
      ∀ b, maxRegionNum ≤ b → s.backends b = .init from hboth.1
  induction hs with
  | init => exact ⟨.init, h₀⟩
  | @step s l _ hl ih =>
    obtain ⟨hs, hinit⟩ := ih
    have hinit' : ∀ b, maxRegionNum ≤ b → (step s l).backends b = .init := by
      intro b hb
      rw [step_backends s, hinit b hb]
      cases l with
      | backend b' c =>
        rintro ⟨⟩
        exact absurd hl (not_lt_of_ge hb)
      | _ => rintro ⟨⟩
    exact ⟨hs.step l (atMost_of_init hinit'), hinit'⟩

/-- A run with no more backends than regions never makes an unreal read. -/
theorem inv_of_atMost (hs : Reach step (fun s l => (step s l).AtMost) (State.start h) s) :
    ∃ ph, Inv s ph ∧ s.AtMost := by
  refine hs.invariant (I := fun s => ∃ ph, Inv s ph ∧ s.AtMost)
    ⟨_, inv_start h, atMost_of_init fun _ _ => rfl⟩ ?_
  rintro s l ⟨ph, hi, hmost⟩ hmost'
  obtain ⟨ph', hi'⟩ := hi.step_of_atMost hmost l
  exact ⟨ph', hi', hmost'⟩

/-- A read of `ret_id` keeps regions exclusive exactly when there are no more backends than
regions. -/
theorem Inv.exclusive_step_iff (hi : Inv s ph) {b : ℕ} (c : Choice)
    (hb : s.backends b = .asking .read) :
    (SharedMemory.step s (.backend b c)).Exclusive ↔ s.AtMost := by
  by_cases hg : s.granted = none
  · exact iff_of_false (hi.not_exclusive_of_unreal c hb hg) (hi.not_atMost_of_unreal hb hg)
  · refine iff_of_true ?_ (hi.atMost_of_granted hb hg)
    obtain ⟨ph', hi'⟩ := hi.step (.backend b c) fun hun => hg hun.2
    exact hi'.exclusive

/-- Sixteen backends do not share a region. -/
theorem exclusive_of_few (hs : Reach step (fun _ l => l.Few) (State.start h) s) :
    Reach step (fun s l => (step s l).Exclusive) (State.start h) s := by
  have hmost := reach_atMost (fun _ _ => rfl) hs
  clear hs
  induction hmost with
  | init => exact .init
  | step l hs hmost ih =>
    obtain ⟨ph, hi, -⟩ := inv_of_atMost (hs.step l hmost)
    exact ih.step l hi.exclusive

theorem Inv.grantsReal (hi : Inv s ph) (hmost : s.AtMost) : s.GrantsReal := by
  intro b hb
  obtain ⟨-, -, -, ⟨hg, -⟩ | ⟨hg, -⟩⟩ := hi.control.holder hb trivial
  · exact hg
  · exact absurd hmost (hi.not_atMost_of_unreal hb hg)

/-! ## One backend too many -/

section Connecting

variable {ok : Label → Prop}

/-- The first `i` backends have connected, one after the other. -/
structure Connections (s : State h) (i : ℕ) : Prop where
  lock : s.lock = none
  status : s.status = .none
  server : s.server = .poll
  bits : ∀ r : Region, HasBit s.bitmap r ↔ r < i
  holding : ∀ r : Region, r < i → s.backends r = .holding r .ctor
  init : ∀ b, i ≤ b → s.backends b = .init
  last : ∀ r : Region, r + 1 = i → s.retId = r

/-- The server passes over the bits that are set. -/
theorem reach_scan (hserver : ok .server) (s : State h) {i : ℕ} (hi : i ≤ maxRegionNum)
    (hbits : ∀ r : Region, r < i → HasBit s.bitmap r) :
    Reach step (fun _ l => ok l) { s with server := .scan 0 } { s with server := .scan i } := by
  induction i with
  | zero => exact .init
  | succ i ih =>
    have hlt : i < maxRegionNum := hi
    have hbit : ¬ getBit s.bitmap i = 0#32 :=
      fun hz => (getBit_eq_zero s.bitmap ⟨i, hlt⟩).1 hz (hbits ⟨i, hlt⟩ (Nat.lt_succ_self i))
    have hstep : step { s with server := .scan i } .server =
        { s with server := .scan (i + 1) } := by
      simp only [step, serverStep, dif_pos hlt, if_neg hbit]
    rw [← hstep]
    exact (ih (by omega) fun r hr => hbits r (by omega)).step .server hserver

/-- The next backend takes the lock and posts `SHM_GET`, and the server passes over the regions in
use. -/
theorem Connections.ask {i : ℕ} (hc : Connections s i) (hi : i ≤ maxRegionNum)
    (hserver : ok .server) (hb : ok (.backend i .go)) : Reach step (fun _ l => ok l) s { s with
      lock := some i, status := .get, granted := none, server := .scan i
      backends := Function.update s.backends i (.asking .wait) } := by
  have h₁ : step (step (step (step s (.backend i .go)) (.backend i .go)) (.backend i .go)) .server =
      { s with
        lock := some i, status := .get, granted := none, server := .scan 0
        backends := Function.update s.backends i (.asking .wait) } := by
    simp [step, backendStep, askStep, serverStep, State.goto, hc.init i le_rfl, hc.lock, hc.status,
      hc.server]
  have hreach := ((((Reach.init : Reach step (fun _ l => ok l) s s).step (.backend i .go)
    hb).step (.backend i .go) hb).step (.backend i .go) hb).step .server hserver
  rw [h₁] at hreach
  exact hreach.trans (reach_scan hserver { s with
      lock := some i, status := .get, granted := none
      backends := Function.update s.backends i (.asking .wait) } hi fun r hr => (hc.bits r).2 hr)

/-- The next backend gets the next region, as long as there is one, and a child that polls. -/
theorem Connections.next {i : ℕ} (hc : Connections s i) (hi : i < maxRegionNum)
    (hserver : ok .server) (hb : ok (.backend i .go)) :
    ∃ s', Reach step (fun _ l => ok l) s s' ∧ Connections s' (i + 1) ∧ s'.regions = s.regions ∧
      s'.children s.nextPid = some ⟨⟨i, hi⟩, .poll⟩ ∧
      s'.events = Function.update s.events ⟨i, hi⟩
        (s.events ⟨i, hi⟩ ++ [.forked (some i) s.nextPid]) := by
  have hclear : getBit s.bitmap i = 0#32 :=
    (getBit_eq_zero s.bitmap ⟨i, hi⟩).2 fun hb => absurd ((hc.bits ⟨i, hi⟩).1 hb) (lt_irrefl i)
  refine ⟨_, ((((((((hc.ask hi.le hserver hb).step .server hserver).step .server hserver).step
    .server hserver).step .server hserver).step .server hserver).step (.backend i .go) hb).step
    (.backend i .go) hb).step (.backend i .go) hb |>.step (.backend i .go) hb, ?_⟩
  simp only [step, serverStep, backendStep, askStep, holdStep, State.goto, State.log, dif_pos hi,
    if_pos hclear, Function.update_self, Function.update_idem, if_true]
  refine ⟨⟨rfl, rfl, rfl, fun r => ?_, fun r hr => ?_, fun b hb => ?_, fun r hr => ?_⟩, trivial,
    trivial, trivial⟩
  · show HasBit (setBit s.bitmap i) r ↔ _
    rw [hasBit_setBit s.bitmap ⟨i, hi⟩ r, hc.bits r, Fin.ext_iff]
    show (r : ℕ) = i ∨ _ ↔ _
    omega
  · by_cases hri : (r : ℕ) = i
    · show Function.update s.backends i _ r = _
      rw [hri, Function.update_self]
      exact congrArg (BackendPc.holding · .ctor) (Fin.ext hri.symm)
    · exact (Function.update_of_ne hri ..).trans (hc.holding r (by omega))
  · exact (Function.update_of_ne (by omega) ..).trans (hc.init b (by omega))
  · exact Fin.ext (by show i = (r : ℕ); omega)

/-- Any number of backends connect, as long as there are regions. Nobody writes to a region, and
nothing has happened to the regions that are still free. -/
theorem Connections.connect (ok : Label → Prop) (hc : Connections s 0) (hserver : ok .server)
    {i : ℕ}
    (hi : i ≤ maxRegionNum) (hb : ∀ b < i, ok (.backend b .go)) :
    ∃ s', Reach step (fun _ l => ok l) s s' ∧ Connections s' i ∧ s'.regions = s.regions ∧
      ∀ r : Region, i ≤ r → s'.events r = s.events r := by
  induction i with
  | zero => exact ⟨s, .init, hc, rfl, fun _ _ => rfl⟩
  | succ i ih =>
    obtain ⟨s₁, hs₁, hc₁, hr₁, he₁⟩ := ih (by omega) fun b hlt => hb b (by omega)
    obtain ⟨s₂, hs₂, hc₂, hr₂, -, he₂⟩ := hc₁.next hi hserver (hb i (by omega))
    refine ⟨s₂, hs₁.trans hs₂, hc₂, hr₂.trans hr₁, fun r hr => ?_⟩
    rw [he₂, Function.update_of_ne, he₁ r (by omega)]
    rintro rfl
    exact absurd hr (Nat.not_succ_le_self i)

theorem connections_start (regions : Region → RegionMem) :
    Connections { State.start h with regions := regions } 0 := by
  refine ⟨rfl, rfl, rfl, fun r => ?_, fun r hr => ?_, fun _ _ => rfl, fun r hr => ?_⟩
  · simp [State.start, HasBit]
  · exact absurd hr (Nat.not_lt_zero _)
  · exact absurd hr (Nat.succ_ne_zero _)

theorem zero_lt_maxRegionNum : 0 < maxRegionNum := by decide

/-- The first region. -/
def firstRegion : Region := ⟨0, zero_lt_maxRegionNum⟩

/-- **Every request can be sent**, and then waits for a child that polls. -/
theorem exists_waiting (ok : Label → Prop) (h : Handler) (q : Request) (hserver : ok .server)
    (hb : ∀ c, ok (.backend 0 c)) : ∃ s : State h,
    Reach step (fun _ l => ok l) (State.start h) s ∧
    s.backends 0 = .holding firstRegion (.waitDone q) ∧
    s.children 1 = some ⟨firstRegion, .poll⟩ ∧ (s.regions firstRegion).status = .sent ∧
    q.In (s.regions firstRegion).mem := by
  obtain ⟨s₁, hs₁, hc, -, hch, -⟩ :=
    (connections_start (h := h) fun _ => ⟨.none, Mem.zero⟩).next (by decide) hserver (hb .go)
  obtain ⟨s, m, -, hs, hwait, hreg, hin, hch', -⟩ :=
    reach_posted hb (hc.holding firstRegion Nat.one_pos) q
  refine ⟨s, hs₁.trans hs, hwait, ?_, by rw [hreg], by rwa [hreg]⟩
  rw [hch']
  exact hch

/-- The backend that asks when all regions are in use is told that it has one, and takes the region
that was allocated last. -/
theorem Connections.overflow (hc : Connections s maxRegionNum) :
    ∃ s', Reach step (fun _ _ => True) s s' ∧ s'.Holds (maxRegionNum - 1) s.retId ∧
      s'.Holds maxRegionNum s.retId := by
  have hlast : s.retId = ⟨maxRegionNum - 1, by decide⟩ := hc.last ⟨maxRegionNum - 1, by decide⟩ rfl
  refine ⟨_, (((((hc.ask le_rfl trivial trivial).step .server trivial).step .server trivial).step
    (.backend maxRegionNum .go) trivial).step (.backend maxRegionNum .go) trivial), ?_⟩
  simp only [step, serverStep, backendStep, askStep, State.goto, dif_neg (lt_irrefl maxRegionNum),
    Function.update_self, Function.update_idem, if_true]
  refine ⟨⟨.ctor, ?_⟩, .getReset, by simp only [Function.update_self]⟩
  simp only [Function.update_of_ne (show maxRegionNum - 1 ≠ maxRegionNum by decide)]
  rw [hlast]
  exact hc.holding ⟨maxRegionNum - 1, by decide⟩ (by decide)

end Connecting

/-! ## Exclusivity of regions -/

/-- **Region exclusivity.** In a run with no more backends than regions, no two backends hold the
same region and no backend is told that it has a region when it has none. This is the exact
condition: in a run that has been exclusive so far, the next read of `ret_id` keeps it so if and
only if there are no more backends than regions. -/
theorem exclusive_of_atMost (h : Handler) :
    (∀ s : State h, Reach step (fun s l => (step s l).AtMost) (State.start h) s →
      s.Exclusive ∧ s.GrantsReal) ∧
    (∀ (s : State h) (b : ℕ) (c : Choice),
      Reach step (fun s l => (step s l).Exclusive) (State.start h) s →
      s.backends b = .asking .read → ((step s (.backend b c)).Exclusive ↔ s.AtMost)) := by
  refine ⟨fun s hs => ?_, fun s b c hs hb => ?_⟩
  · obtain ⟨ph, hi, hmost⟩ := inv_of_atMost hs
    exact ⟨hi.exclusive, hi.grantsReal hmost⟩
  · obtain ⟨ph, hi⟩ := inv_of_exclusive hs
    exact hi.exclusive_step_iff c hb

/-- A handler that does nothing. -/
def Handler.idle : Handler where
  Local := Unit
  start _ := ()
  step := id
  finished _ := true

/-- Sixteen backends are connected, each with a region of its own. -/
theorem exclusive_of_atMost_sixteen : ∃ s : State .idle,
    Reach step (fun s l => (step s l).AtMost) (State.start .idle) s ∧
    (∀ r : Region, s.Holds r r) ∧ s.Exclusive ∧ s.GrantsReal := by
  obtain ⟨s, hs, hc, -⟩ := (connections_start fun _ => ⟨.none, Mem.zero⟩).connect Label.Few
    trivial le_rfl fun _ hb => hb
  have hmost := reach_atMost (fun _ _ => rfl) hs
  exact ⟨s, hmost, fun r => ⟨_, hc.holding r r.isLt⟩, (exclusive_of_atMost .idle).1 s hmost⟩

/-- **With seventeen backends, two hold the same region.** -/
theorem two_holders : ∃ s : State .idle, Reach step (fun _ _ => True) (State.start .idle) s ∧
    ∃ r, s.Holds 15 r ∧ s.Holds 16 r := by
  obtain ⟨s, hs, hc, -⟩ := (connections_start fun _ => ⟨.none, Mem.zero⟩).connect (fun _ => True)
    trivial le_rfl fun _ _ => trivial
  obtain ⟨s', hs', h₁, h₂⟩ := hc.overflow
  exact ⟨s', hs.trans hs', s.retId, h₁, h₂⟩

end SharedMemory

end HEDB
