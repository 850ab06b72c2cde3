import HEDB.SharedMemory.Stale

/-!
# Restarting the server

`main` clears the header of the shared memory and leaves the regions as the last server has left
them. Until its constructor has cleared it, the status word of a region is then what was left over,
and the child that the server forks for the region already polls it.

A restart is safe when a child runs the handler only on a request that its backend has posted, and
exits only when it has been told to, and when a backend sees `DONE` only for a request that its
child has handled (`State.Safe`). Every run after a restart is safe exactly when no region is left
with `SENT` or `EXIT` (`restart_safe_iff`). A `DONE` that is left over does no harm, by
`step_stale`. With `EXIT` the child exits, and with `SENT` it runs the handler on what the last
server has left, or, when there is no request type, posts a `DONE` that the backend takes for the
answer to its first request.
-/

namespace HEDB

namespace SharedMemory

variable {h : Handler} {s : State h} {ph : Region → Phase} {left : Region → Mem} {r : Region}

/-! ## The state after a restart -/

/-- A status word as the processes see it. No process tests for `NONE`, so it stands for all the
words that are none of the others. -/
def ReqStatus.ofWord (v : ℤ) : ReqStatus :=
  if v = 1 then .sent else if v = 2 then .done else if v = 3 then .exit else .none

/-- The status word that was left over in a region. -/
def leftStatus (left : Region → Mem) (r : Region) : ReqStatus :=
  .ofWord ((left r).int Layout.status)

/-- The server has started on a shared memory with `left` in its regions. -/
def State.restart (h : Handler) (left : Region → Mem) : State h :=
  { State.start h with regions := fun r => ⟨leftStatus left r, left r⟩ }

/-- What a backend and its child may expect of each other. -/
structure State.Safe (s : State h) : Prop where
  /-- A child calls the handler on a request that its backend has just posted. -/
  handled : ∀ r pid m pre post, s.events r = pre ++ .start pid m :: post →
    ∃ b q pre', pre = pre' ++ [.sent b q m] ∧ .forked (some b) pid ∈ pre'
  /-- A child exits when the server has just told it to. -/
  exits : ∀ r pid pre post, s.events r = pre ++ .exits pid :: post → ∃ pre', pre = pre' ++ [.exit]
  /-- A backend that has seen `DONE` has posted a request that its child has handled. -/
  answered : ∀ b r q, s.backends b = .holding r (.copy q) → ∃ pid m m' pre,
    s.events r = pre ++ [.sent b q m, .start pid m, .finish pid m'] ∧ .forked (some b) pid ∈ pre

/-! ## The last events of a phase -/

/-- What the log of a region ends with in a phase. -/
def Trail (es : List Event) : Phase → Prop
  | .free => True
  | .owned b pid | .preparing b pid _ _ | .copied b pid _ _ | .leaving b pid =>
    .forked (some b) pid ∈ es
  | .sent b pid q m => ∃ pre, es = pre ++ [.sent b q m] ∧ .forked (some b) pid ∈ pre
  | .handling b pid q m =>
    ∃ pre, es = pre ++ [.sent b q m, .start pid m] ∧ .forked (some b) pid ∈ pre
  | .finished b pid q m' => ∃ m pre,
    es = pre ++ [.sent b q m, .start pid m, .finish pid m'] ∧ .forked (some b) pid ∈ pre
  | .exiting b pid => ∃ pre, es = pre ++ [.exit] ∧ .forked (some b) pid ∈ pre

theorem Trail.snoc {es : List Event} {φ φ' : Phase} {e : Event} (ht : Trail es φ)
    (he : Handshake h φ e φ') : Trail (es ++ [e]) φ' := by
  cases he with
  | forked b pid => exact List.mem_append_right es (List.mem_singleton_self _)
  | begin => exact List.mem_append_left _ ht
  | sent => exact ⟨es, rfl, ht⟩
  | start =>
    obtain ⟨pre, rfl, hforked⟩ := ht
    exact ⟨pre, List.append_assoc .., hforked⟩
  | finish b pid q m =>
    obtain ⟨pre, rfl, hforked⟩ := ht
    exact ⟨m, pre, List.append_assoc .., hforked⟩
  | copied =>
    obtain ⟨m, pre, rfl, hforked⟩ := ht
    exact List.mem_append_left _ (List.mem_append_left _ hforked)
  | resp => exact List.mem_append_left _ ht
  | exit => exact ⟨es, rfl, ht⟩
  | exits =>
    obtain ⟨pre, rfl, hforked⟩ := ht
    exact List.mem_append_left _ (List.mem_append_left _ hforked)
  | reaped => trivial

theorem trail_of_follows {es : List Event} {φ : Phase} (hes : Follows (Handshake h) .free es φ) :
    Trail es φ := by
  induction es using List.reverseRecOn generalizing φ with
  | nil =>
    cases hes
    trivial
  | append_singleton es e ih =>
    obtain ⟨φ₁, φ₂, hes, he, hnil⟩ := hes.split
    cases hnil
    exact (ih hes).snoc he

/-- The invariant makes a state safe. -/
theorem Inv.safe (hi : Inv s ph) : s.Safe where
  handled r pid m pre post hes := by
    obtain ⟨φ, φ', hpre, he, -⟩ := (hes ▸ hi.log r).split
    cases he with
    | start b pid q m =>
      obtain ⟨pre', hpre', hforked⟩ := trail_of_follows hpre
      exact ⟨b, q, pre', hpre', hforked⟩
  exits r pid pre post hes := by
    obtain ⟨φ, φ', hpre, he, -⟩ := (hes ▸ hi.log r).split
    cases he with
    | exits b pid =>
      obtain ⟨pre', hpre', -⟩ := trail_of_follows hpre
      exact ⟨pre', hpre'⟩
  answered b r q hb := by
    obtain ⟨φ, st, m, pid, c, hφ, -, ho, -, -, -, hrow⟩ := hi.row_of_holding hb nofun
    cases hrow with
    | idle hidle hc =>
      cases hidle with
      | pending hpending => cases hpending
      | held hrest => cases hrest
      | copying =>
        cases ho
        obtain ⟨m₀, pre, hes, hforked⟩ := hφ ▸ trail_of_follows (hi.log r)
        exact ⟨_, m₀, _, pre, hes, hforked⟩

/-! ## No request and no exit is left over -/

/-- No region is left with a word that a child acts on. -/
def Clean (left : Region → Mem) : Prop := ∀ r, leftStatus left r ≠ .sent ∧ leftStatus left r ≠ .exit

/-- Without such words the restart differs from the first start only in answers left over. -/
theorem restart_of_clean (hleft : Clean left) : State.restart h left =
    State.stale { State.start h with regions := fun r => ⟨.none, left r⟩ }
      (Finset.univ.filter fun r => leftStatus left r = .done) := by
  simp only [State.restart, State.stale, State.mk.injEq, true_and, and_true]
  funext r
  simp only [Finset.mem_filter, Finset.mem_univ, true_and]
  cases hr : leftStatus left r with
  | sent => exact absurd hr (hleft r).1
  | exit => exact absurd hr (hleft r).2
  | none | done => rfl

theorem untouched_start (D : Finset Region) :
    Untouched D { State.start h with regions := fun r => ⟨.none, left r⟩ } where
  status _ _ := rfl
  owner _ _ _ _ hb := by cases hb
  child _ _ _ _ hc := by cases hc

/-- Every run after a clean restart is a run without the words that are left over. -/
theorem inv_of_clean (hleft : Clean left)
    (hs : Reach step (fun s l => (step s l).AtMost) (State.restart h left) s) :
    ∃ s₀ D ph, s = s₀.stale D ∧ Untouched D s₀ ∧ Inv s₀ ph ∧ s₀.AtMost := by
  induction hs with
  | init =>
    exact ⟨_, _, _, restart_of_clean hleft, untouched_start _, inv_of_memory h left,
      atMost_of_init fun _ _ => rfl⟩
  | step l _ hmost ih =>
    obtain ⟨s₀, D, ph, rfl, hd, hi, hmost₀⟩ := ih
    obtain ⟨D', hstep, hd'⟩ := step_stale hi hd l
    obtain ⟨ph', hi'⟩ := hi.step_of_atMost hmost₀ l
    rw [hstep] at hmost ⊢
    exact ⟨_, D', ph', rfl, hd', hi', hmost⟩

theorem safe_of_clean (hleft : Clean left)
    (hs : Reach step (fun s l => (step s l).AtMost) (State.restart h left) s) : s.Safe := by
  obtain ⟨s₀, D, ph, rfl, -, hi, -⟩ := inv_of_clean hleft hs
  exact ⟨hi.safe.handled, hi.safe.exits, hi.safe.answered⟩

/-! ## A request or an exit is left over -/

/-- A backend has been given a region and has not yet cleared the status word, and its child
polls. -/
structure Forked (left : Region → Mem) (s : State h) (r : Region) (pid : ℕ) : Prop where
  region : s.regions r = ⟨leftStatus left r, left r⟩
  owner : s.backends r = .holding r .ctor
  child : s.children pid = some ⟨r, .poll⟩
  events : s.events r = [.forked (some r) pid]

theorem Forked.status {pid : ℕ} (hf : Forked left s r pid) :
    (s.regions r).status = leftStatus left r := by
  rw [hf.region]

/-- Every region can be given to a backend. -/
theorem exists_forked (h : Handler) (left : Region → Mem) (r : Region) : ∃ (s : State h) (pid : ℕ),
    Reach step (fun _ l => l.Few) (State.restart h left) s ∧ Forked left s r pid := by
  have hfew : ∀ b < (r : ℕ), Label.Few (.backend b .go) := fun b hb => hb.trans r.isLt
  obtain ⟨s, hs, hc, hregions, hevents⟩ :=
    (connections_start fun r => ⟨leftStatus left r, left r⟩).connect Label.Few trivial r.isLt.le
      hfew
  have hserver : Label.Few .server := trivial
  obtain ⟨s', hs', hc', hregions', hchild, hevents'⟩ := hc.next r.isLt hserver r.isLt
  refine ⟨s', s.nextPid, hs.trans hs', ?_, hc'.holding r (Nat.lt_succ_self r), hchild, ?_⟩
  · rw [hregions', hregions]
  · rw [hevents', Function.update_self, hevents r le_rfl]
    rfl

theorem step_child {pid seed : ℕ} {c : ChildPc h} (hc : s.children pid = some ⟨r, c⟩) :
    step s (.child pid seed) = childRun s pid r seed c := by
  simp only [step, childStep, hc]

/-- The child reads `EXIT`. -/
theorem Forked.exit {pid : ℕ} (hf : Forked left s r pid) (hexit : leftStatus left r = .exit) :
    ¬ (step s (.child pid 0)).Safe := by
  intro hsafe
  have hlog : (step s (.child pid 0)).events r = [.forked (some r) pid] ++ .exits pid :: [] := by
    rw [step_child hf.child, childRun, if_pos (hf.status.trans hexit), ← hf.events]
    exact Function.update_self ..
  obtain ⟨pre, hpre⟩ := hsafe.exits r pid _ _ hlog
  simpa using congrArg List.getLast? hpre

/-- The child reads `SENT`. -/
theorem Forked.reach_check {pid : ℕ} (hf : Forked left s r pid)
    (hsent : leftStatus left r = .sent) :
    Reach step (fun _ l => l.Few) s (s.childGoto pid r .check) := by
  have hstatus := hf.status.trans hsent
  have hpoll : step s (.child pid 0) = s.childGoto pid r .poll2 := by
    rw [step_child hf.child, childRun, hstatus]
    rfl
  have hpoll2 : step (s.childGoto pid r .poll2) (.child pid 0) = s.childGoto pid r .check := by
    rw [step_child (Function.update_self ..)]
    simp only [childRun, State.childGoto, hstatus, if_true, Function.update_idem]
  rw [← hpoll2, ← hpoll]
  exact (Reach.init.step _ trivial).step _ trivial

theorem step_check (s : State h) (pid : ℕ) (r : Region) :
    step (s.childGoto pid r .check) (.child pid 0) =
      childRun (s.childGoto pid r .check) pid r 0 .check :=
  step_child (Function.update_self ..)

/-- The child calls the handler on what was left over. -/
theorem Forked.start {pid : ℕ} (hf : Forked left s r pid)
    (htype : 0 < (left r).int Layout.reqType) :
    ¬ (step (s.childGoto pid r .check) (.child pid 0)).Safe := by
  intro hsafe
  have hmem : 0 < ((s.childGoto pid r .check).regions r).mem.int Layout.reqType := by
    change 0 < (s.regions r).mem.int _
    rwa [hf.region]
  have hlog : (step (s.childGoto pid r .check) (.child pid 0)).events r =
      [.forked (some r) pid] ++ .start pid (s.regions r).mem :: [] := by
    rw [step_check, childRun, if_pos hmem, ← hf.events]
    exact Function.update_self ..
  obtain ⟨b, q, pre, hpre, -⟩ := hsafe.handled r pid _ _ _ hlog
  simpa using congrArg List.getLast? hpre

/-- A child that is about to post `DONE` answers the first request of its backend without handling
it. -/
theorem exists_answered {pid : ℕ} (hb : s.backends r = .holding r .ctor)
    (hc : s.children pid = some ⟨r, .post⟩) (q : Request) :
    ∃ s' m pre, Reach step (fun _ l => l.Few) s s' ∧ s'.backends r = .holding r (.copy q) ∧
      s'.events r = pre ++ [.sent r q m] := by
  have hfew (c : Choice) : Label.Few (.backend r c) := r.isLt
  obtain ⟨s₁, m, pre, hs₁, hb₁, -, -, hc₁, hlog⟩ := reach_posted hfew hb q
  have hpost : s₁.children pid = some ⟨r, .post⟩ := by rw [hc₁, hc]
  have hchild : Label.Few (.child pid 0) := trivial
  refine ⟨_, m, pre, (hs₁.step _ hchild).step _ (hfew .go), ?_⟩
  simp [step, backendStep, hb₁, holdStep, childStep, hpost, childRun, State.goto, State.setStatus,
    State.childGoto, hlog]

/-- There is no request type, and the child is late with its `DONE`. -/
theorem Forked.late {pid : ℕ} (hf : Forked left s r pid)
    (htype : ¬ 0 < (left r).int Layout.reqType) :
    ∃ s', Reach step (fun _ l => l.Few) (step (s.childGoto pid r .check) (.child pid 0)) s' ∧
      ¬ s'.Safe := by
  have hmem : ¬ 0 < ((s.childGoto pid r .check).regions r).mem.int Layout.reqType := by
    change ¬ 0 < (s.regions r).mem.int _
    rwa [hf.region]
  have hpost : step (s.childGoto pid r .check) (.child pid 0) =
      (s.childGoto pid r .check).childGoto pid r .post := by
    rw [step_check, childRun, if_neg hmem]
  rw [hpost]
  obtain ⟨s', m, pre, hs', hb', hlog⟩ := exists_answered
    (s := (s.childGoto pid r .check).childGoto pid r .post) hf.owner
    (Function.update_self ..) (.bulk .int [] (Nat.zero_le _))
  refine ⟨s', hs', fun hsafe => ?_⟩
  obtain ⟨pid', m₁, m₂, pre', hlog', -⟩ := hsafe.answered r r _ hb'
  rw [hlog] at hlog'
  simpa using congrArg List.getLast? hlog'

/-- A word that a child acts on leads to a state that is not safe. -/
theorem exists_not_safe (h : Handler) (hr : leftStatus left r = .sent ∨ leftStatus left r = .exit) :
    ∃ s : State h, Reach step (fun _ l => l.Few) (State.restart h left) s ∧ ¬ s.Safe := by
  obtain ⟨s, pid, hs, hf⟩ := exists_forked h left r
  have hchild : Label.Few (.child pid 0) := trivial
  rcases hr with hsent | hexit
  · have hcheck := (hs.trans (hf.reach_check hsent)).step _ hchild
    by_cases htype : 0 < (left r).int Layout.reqType
    · exact ⟨_, hcheck, hf.start htype⟩
    · obtain ⟨s', hs', hnot⟩ := hf.late htype
      exact ⟨s', hcheck.trans hs', hnot⟩
  · exact ⟨_, hs.step _ hchild, hf.exit hexit⟩

/-! ## Restart safety -/

/-- **Restart safety.** With no more backends than regions, every run after a restart is safe
exactly when the last server has left no region with `SENT` or `EXIT` in its status word. -/
theorem restart_safe_iff (h : Handler) (left : Region → Mem) :
    (∀ s, Reach step (fun s l => (step s l).AtMost) (State.restart h left) s → s.Safe) ↔
      Clean left := by
  constructor
  · intro hsafe r
    by_contra hr
    have hword : leftStatus left r = .sent ∨ leftStatus left r = .exit := by tauto
    obtain ⟨s, hs, hnot⟩ := exists_not_safe h hword
    exact hnot (hsafe s (reach_atMost (fun _ _ => rfl) hs))
  · intro hleft s hs
    exact safe_of_clean hleft hs

/-- The last server was stopped when every region held a request that was sent. -/
def leftRequest : Region → Mem := fun _ =>
  (Mem.zero.setInt Layout.status 1).setInt Layout.reqType 1

/-- A backend connects, and its child takes three steps before the backend takes another. -/
def polling : List Label := connectingFully ++ List.replicate 3 (.child 1 0)

/-- **The handler runs on a request that is left over.** Its backend has not even come to clear the
status word. -/
theorem leftover_handled : ∃ s : State .idle,
    Reach step (fun s l => (step s l).AtMost) (State.restart .idle leftRequest) s ∧
    s.backends 0 = .holding ⟨0, by decide⟩ .ctor ∧
    s.events ⟨0, by decide⟩ = [.forked (some 0) 1, .start 1 (leftRequest ⟨0, by decide⟩)] ∧
    ¬ s.Safe := by
  have hfew : ∀ l ∈ polling, l.Few := by
    intro l hl
    simp only [polling, connectingFully, List.mem_append, List.mem_replicate] at hl
    have hzero : (0 : ℕ) < maxRegionNum := by decide
    rcases hl with ((⟨-, rfl⟩ | ⟨-, rfl⟩) | ⟨-, rfl⟩) | ⟨-, rfl⟩
    · exact hzero
    · trivial
    · exact hzero
    · trivial
  have hlog : (polling.foldl step (State.restart .idle leftRequest)).events ⟨0, by decide⟩ =
      [.forked (some 0) 1] ++ .start 1 (leftRequest ⟨0, by decide⟩) :: [] := rfl
  refine ⟨_, reach_atMost (fun _ _ => rfl) (reach_of_labels _ polling hfew), rfl, hlog, ?_⟩
  intro hsafe
  obtain ⟨b, q, pre, hpre, -⟩ := hsafe.handled _ _ _ _ _ hlog
  simpa using congrArg List.getLast? hpre

end SharedMemory

end HEDB
