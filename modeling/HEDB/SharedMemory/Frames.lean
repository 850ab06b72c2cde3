import HEDB.SharedMemory.Invariant

/-!
# Frames

What a step does not touch stays as it is. Between the construction of its `TEEInvoker` and
`freeBuffer`, a backend only touches its region, and so does a child, always: `Local s s' r` says
that a step from `s` to `s'` is of this kind. Such a step keeps what is known about the header
(`Local.control`) and about the other regions (`Local.region`), so only the row of the region itself
has to be looked at (`Inv.of_local`, `Inv.of_local_event`).
-/

namespace HEDB

namespace SharedMemory

variable {h : Handler}

/-! ## Rows -/

/-- The owner of a region waits for it or holds it. -/
theorem Row.owner_at {r : Region} {g : Option Region} {φ : Phase} {st : ReqStatus} {m : Mem}
    {pc : BackendPc} {c : ChildPc h} (hrow : Row r g φ st m pc c) :
    (pc.Pending ∧ g = some r) ∨ ∃ p, pc = .holding r p := by
  cases hrow with
  | idle hrow _ =>
    cases hrow with
    | pending hp hg => exact .inl ⟨hp, hg⟩
    | _ => exact .inr ⟨_, rfl⟩
  | _ => exact .inr ⟨_, rfl⟩

/-- A backend that holds a region can only be the owner of that region. -/
theorem Row.region_eq {r r' : Region} {g : Option Region} {φ : Phase} {st : ReqStatus} {m : Mem}
    {p : HoldPc} {c : ChildPc h} (hrow : Row r' g φ st m (.holding r p) c) : r' = r := by
  rcases hrow.owner_at with ⟨hp, -⟩ | ⟨p', hp'⟩
  · cases hp
  · cases hp'
    rfl

theorem Served.frame {s s' : State h} {r : Region} {φ : Phase} {b pid : ℕ} (hs : Served s r φ b pid)
    (hreg : s'.regions r = s.regions r) (hpid : s'.childPids r = s.childPids r)
    (hch : ∀ c, s.children pid = some ⟨r, c⟩ → s'.children pid = some ⟨r, c⟩)
    (hrow : ∀ st m (c : ChildPc h), Row r s.granted φ st m (s.backends b) c →
      Row r s'.granted φ st m (s'.backends b) c) : Served s' r φ b pid := by
  obtain ⟨hp, c, hc, hr⟩ := hs
  refine ⟨hpid.trans hp, c, hch c hc, ?_⟩
  rw [hreg]
  exact hrow _ _ _ hr

/-- A region stays as its phase says when the step does not touch it and its row is kept. -/
theorem RegionInv.frame {s s' : State h} {r : Region} {φ : Phase} (hi : RegionInv s r φ)
    (hreg : s'.regions r = s.regions r) (hpid : s'.childPids r = s.childPids r)
    (hch : ∀ pid c, φ.role.child = some pid → s.children pid = some ⟨r, c⟩ →
      s'.children pid = some ⟨r, c⟩)
    (hrow : ∀ b st m (c : ChildPc h),
    φ.role.owner = some b → Row r s.granted φ st m (s.backends b) c →
      Row r s'.granted φ st m (s'.backends b) c) : RegionInv s' r φ := by
  unfold RegionInv at hi ⊢
  cases hρ : φ.role with
  | free =>
    simp only [hρ] at hi ⊢
    rw [hreg]
    exact hi
  | owned b pid | closing b pid =>
    simp only [hρ] at hi ⊢
    exact hi.frame hreg hpid (fun c => hch pid c (by rw [hρ]; rfl))
      fun st m c => hrow b st m c (by rw [hρ]; rfl)

/-- The owner and the child of a region in use. -/
theorem RegionInv.served {s : State h} {r : Region} {φ : Phase} {b : ℕ} (hi : RegionInv s r φ)
    (hb : φ.role.owner = some b) : ∃ pid, φ.role.child = some pid ∧ Served s r φ b pid := by
  unfold RegionInv at hi
  cases hρ : φ.role with
  | free => rw [hρ] at hb; cases hb
  | owned b' pid =>
    rw [hρ] at hb hi
    cases hb
    exact ⟨pid, rfl, hi⟩
  | closing b' pid =>
    rw [hρ] at hb hi
    cases hb
    exact ⟨pid, rfl, hi⟩

theorem RegionInv.of_row {s : State h} {r : Region} {φ : Phase} {b pid : ℕ} {c : ChildPc h}
    (ho : φ.role.owner = some b) (hc : φ.role.child = some pid) (hpid : s.childPids r = pid)
    (hch : s.children pid = some ⟨r, c⟩)
    (hrow : Row r s.granted φ (s.regions r).status (s.regions r).mem (s.backends b) c) :
    RegionInv s r φ := by
  unfold RegionInv
  cases hρ : φ.role with
  | free => rw [hρ] at ho; cases ho
  | owned b' pid' | closing b' pid' =>
    rw [hρ] at ho hc
    cases ho
    cases hc
    exact ⟨hpid, c, hch, hrow⟩

/-! ## Local steps -/

/-- The step touches region `r`, and the program counters of backends and children that work in it
without the lock; nothing else. -/
structure Local (s s' : State h) (r : Region) : Prop where
  header : s' = { s with
    regions := s'.regions, backends := s'.backends, children := s'.children, events := s'.events }
  regions : ∀ r' ≠ r, s'.regions r' = s.regions r'
  backends : ∀ b, s'.backends b = s.backends b ∨
    ∃ p p', s.backends b = .holding r p ∧ s'.backends b = .holding r p' ∧
      ¬ (BackendPc.holding r p).Critical ∧ ¬ (BackendPc.holding r p').Critical
  children : ∀ pid, s'.children pid = s.children pid ∨
    ∃ c c', s.children pid = some ⟨r, c⟩ ∧ s'.children pid = some ⟨r, c'⟩

namespace Local

variable {s s' s'' : State h} {r : Region}

theorem trans (h₁ : Local s s' r) (h₂ : Local s' s'' r) : Local s s'' r where
  header := by
    have hh := h₂.header
    rw [h₁.header] at hh
    exact hh
  regions r' hr' := (h₂.regions r' hr').trans (h₁.regions r' hr')
  backends b := by
    rcases h₁.backends b with hs | ⟨p, p', hp, hp', hn, hn₁⟩
    · rw [← hs]
      exact h₂.backends b
    · rcases h₂.backends b with hs | ⟨q, q', -, hq', -, hn₂⟩
      · exact .inr ⟨p, p', hp, hs.trans hp', hn, hn₁⟩
      · exact .inr ⟨p, q', hp, hq', hn, hn₂⟩
  children pid := by
    rcases h₁.children pid with hs | ⟨c, c', hc, hc'⟩
    · rw [← hs]
      exact h₂.children pid
    · rcases h₂.children pid with hs | ⟨d, d', -, hd'⟩
      · exact .inr ⟨c, c', hc, hs.trans hc'⟩
      · exact .inr ⟨c, d', hc, hd'⟩

/-- Writing in a region is local. -/
theorem write (s : State h) (r : Region) (x : RegionMem) :
    Local s { s with regions := Function.update s.regions r x } r where
  header := rfl
  regions _ hr' := Function.update_of_ne hr' ..
  backends _ := .inl rfl
  children _ := .inl rfl

theorem setStatus (s : State h) (r : Region) (st : ReqStatus) : Local s (s.setStatus r st) r :=
  write s r _

theorem setMem (s : State h) (r : Region) (m : Mem) : Local s (s.setMem r m) r :=
  write s r _

theorem log (s : State h) (r : Region) (e : Event) : Local s (s.log r e) r where
  header := rfl
  regions _ _ := rfl
  backends _ := .inl rfl
  children _ := .inl rfl

/-- A backend without the lock goes on with its region. -/
theorem goto {b : ℕ} {p p' : HoldPc} (hb : s.backends b = .holding r p)
    (hp : ¬ (BackendPc.holding r p).Critical) (hp' : ¬ (BackendPc.holding r p').Critical) :
    Local s (s.goto b (.holding r p')) r where
  header := rfl
  regions _ _ := rfl
  backends b' := by
    by_cases hbb : b' = b
    · subst hbb
      exact .inr ⟨p, p', hb, Function.update_self .., hp, hp'⟩
    · exact .inl (Function.update_of_ne hbb ..)
  children _ := .inl rfl

/-- A child goes on. -/
theorem childGoto {pid : ℕ} {c : ChildPc h} (hc : s.children pid = some ⟨r, c⟩) (c' : ChildPc h) :
    Local s (s.childGoto pid r c') r where
  header := rfl
  regions _ _ := rfl
  backends _ := .inl rfl
  children pid' := by
    by_cases hpp : pid' = pid
    · subst hpp
      exact .inr ⟨c, c', hc, Function.update_self ..⟩
    · exact .inl (Function.update_of_ne hpp ..)

theorem granted (hl : Local s s' r) : s'.granted = s.granted := by rw [hl.header]

/-- A local step leaves the backend that has the lock where it is. -/
theorem backend_eq (hl : Local s s' r) {b : ℕ} (hb : (s.backends b).Critical) :
    s'.backends b = s.backends b := by
  rcases hl.backends b with hs | ⟨p, p', hp, -, hn, -⟩
  · exact hs
  · rw [hp] at hb
    exact absurd hb hn

theorem critical_iff (hl : Local s s' r) (b : ℕ) :
    (s'.backends b).Critical ↔ (s.backends b).Critical := by
  rcases hl.backends b with hs | ⟨p, p', hp, hp', hn, hn'⟩
  · rw [hs]
  · rw [hp, hp']
    exact ⟨fun hc => absurd hc hn', fun hc => absurd hc hn⟩

theorem holder (hl : Local s s' r) (ρ : Region → Role) (b : ℕ) (pc : BackendPc) :
    Holder s' ρ b pc ↔ Holder s ρ b pc := by
  rw [hl.header]
  rcases pc with _ | p | ⟨_, p⟩ | _ | _ | _
  case asking => cases p <;> rfl
  case holding => cases p <;> rfl
  all_goals rfl

/-- **A local step keeps what is known about the header.** -/
theorem control (hl : Local s s' r) {ρ : Region → Role} (hc : Control s ρ) : Control s' ρ := by
  have hlock : s'.lock = s.lock := by rw [hl.header]
  have hserver : s'.server = s.server := by rw [hl.header]
  have hbitmap : s'.bitmap = s.bitmap := by rw [hl.header]
  have hnext : s'.nextPid = s.nextPid := by rw [hl.header]
  refine ⟨fun b => ?_, ?_, fun r' => ?_, fun pid c hpid => ?_, fun pid hpid => ?_,
    fun b r' p hb => ?_⟩
  · rw [hl.critical_iff, hlock]
    exact hc.critical b
  · have hst := hc.stage
    unfold Stage at hst ⊢
    rw [hlock]
    cases hk : s.lock with
    | none =>
      rw [hk] at hst
      rw [hl.header]
      exact hst
    | some b =>
      rw [hk] at hst
      show Holder s' ρ b (s'.backends b)
      rw [hl.backend_eq ((hc.critical b).2 hk), hl.holder]
      exact hst
  · rw [hserver, hbitmap]
    exact hc.bits r'
  · rcases hl.children pid with hs | ⟨d, d', hd, hd'⟩
    · exact hc.children pid c (hs ▸ hpid)
    · rw [hd'] at hpid
      cases hpid
      exact hc.children pid ⟨r, d⟩ hd
  · have hnone := hc.fresh pid (hnext ▸ hpid)
    rcases hl.children pid with hs | ⟨d, d', hd, -⟩
    · rw [hs, hnone]
    · rw [hnone] at hd
      cases hd
  · rcases hl.backends b with hs | ⟨q, q', hq, hq', hn, hn'⟩
    · exact hc.holds b r' p (hs ▸ hb)
    · rw [hq'] at hb
      cases hb
      rcases hc.holds b r q hq with ho | ⟨-, hrel⟩
      · exact .inl ho
      · cases hrel <;> exact absurd trivial hn

/-- **A local step keeps the other regions as they are.** -/
theorem region (hl : Local s s' r) {r' : Region} (hr : r' ≠ r) {φ : Phase}
    (hi : RegionInv s r' φ) : RegionInv s' r' φ := by
  refine hi.frame (hl.regions r' hr) (by rw [hl.header]) ?_ ?_
  · intro pid c _ hc
    rcases hl.children pid with hs | ⟨d, d', hd, -⟩
    · rw [hs, hc]
    · rw [hd] at hc
      cases hc
      exact absurd rfl hr
  · intro b st m c _ hrow
    rw [hl.granted]
    rcases hl.backends b with hs | ⟨p, p', hp, -⟩
    · rw [hs]
      exact hrow
    · rw [hp] at hrow
      exact absurd hrow.region_eq hr

end Local

/-! ## The invariant after a local step -/

variable {s s' : State h} {ph : Region → Phase} {r : Region}

/-- A backend owns its region until the region is freed. -/
theorem Inv.owner (hi : Inv s ph) {b : ℕ} {p : HoldPc} (hb : s.backends b = .holding r p)
    (hn : ¬ p.Released) : (ph r).role.owner = some b :=
  (hi.control.holds b r p hb).resolve_right fun hrel => hn hrel.2

theorem role_update (ph : Region → Phase) (r : Region) (φ : Phase) :
    (fun r' => (Function.update ph r φ r').role) =
      Function.update (fun r' => (ph r').role) r φ.role := by
  funext r'
  by_cases hrr : r' = r
  · rw [hrr, Function.update_self, Function.update_self]
  · rw [Function.update_of_ne hrr, Function.update_of_ne hrr]

/-- A local step that is not an event. -/
theorem Inv.of_local (hi : Inv s ph) (hl : Local s s' r) (hr : RegionInv s' r (ph r))
    (he : s'.events = s.events) : Inv s' ph := by
  refine ⟨hl.control hi.control, fun r' => ?_, fun r' => he ▸ hi.log r'⟩
  by_cases hrr : r' = r
  · exact hrr ▸ hr
  · exact hl.region hrr (hi.regions r')

/-- The phases after an event. -/
theorem Inv.log_event (hi : Inv s ph) {φ : Phase} {e : Event}
    (he : s'.events = Function.update s.events r (s.events r ++ [e]))
    (hstep : Handshake h (ph r) e φ) (r' : Region) :
    Follows (Handshake h) .free (s'.events r') (Function.update ph r φ r') := by
  rw [he]
  by_cases hrr : r' = r
  · subst hrr
    rw [Function.update_self, Function.update_self]
    exact (hi.log r').snoc hstep
  · rw [Function.update_of_ne hrr, Function.update_of_ne hrr]
    exact hi.log r'

/-- A local step that is an event and keeps the role of the region. -/
theorem Inv.of_local_event (hi : Inv s ph) (hl : Local s s' r) {φ : Phase} {e : Event}
    (he : s'.events = Function.update s.events r (s.events r ++ [e]))
    (hstep : Handshake h (ph r) e φ) (hrole : φ.role = (ph r).role) (hr : RegionInv s' r φ) :
    Inv s' (Function.update ph r φ) := by
  have hρ : (fun r' => (Function.update ph r φ r').role) = fun r' => (ph r').role := by
    rw [role_update, hrole]
    exact Function.update_eq_self r _
  refine ⟨hρ ▸ hl.control hi.control, fun r' => ?_, hi.log_event he hstep⟩
  by_cases hrr : r' = r
  · rw [hrr, Function.update_self]
    exact hr
  · rw [Function.update_of_ne hrr]
    exact hl.region hrr (hi.regions r')

end SharedMemory

end HEDB
