import HEDB.SharedMemory.Exclusivity
import HEDB.SharedMemory.Forks

/-!
# Requests and answers

The safety of `sendRequest`, over every run in which each region is held by one backend at a time
and no fork fails: the log of every region follows the handshake, from its first owner on
(`sessions_follow_handshake`). So a request is handled once, on the bytes that were serialized; its
result and its return code are read after its handler has finished, from the bytes that the handler
left; and no child handles or exits on a status word that was written for another owner.

A request that is waited for is also served: when the handler terminates, the steps of the child
alone lead to the answer (`Inv.answer`).
-/

namespace HEDB

namespace SharedMemory

variable {h : Handler} {s : State h} {ph : Region → Phase} {r : Region} {pid : ℕ}

/-! ## The child answers -/

/-- The child can answer the request in its region. -/
def Answers (s : State h) (pid : ℕ) (r : Region) : Prop :=
  ∃ n, (((fun s => childStep s pid 0)^[n] s).regions r).status = .done

theorem Answers.of_step (ha : Answers (childStep s pid 0) pid r) : Answers s pid r := by
  obtain ⟨n, hn⟩ := ha
  exact ⟨n + 1, by rw [Function.iterate_succ_apply]; exact hn⟩

theorem answers_of_post (hch : s.children pid = some ⟨r, .post⟩) : Answers s pid r := by
  refine Answers.of_step ⟨0, ?_⟩
  simp [childStep, hch, childRun, State.setStatus, State.childGoto]

/-- A handler run that ends in `n` steps is answered. -/
theorem answers_of_handling {n : ℕ} {l : h.Local} (hch : s.children pid = some ⟨r, .handling l⟩)
    (hn : h.finished (h.step^[n] (l, (s.regions r).mem)).1 = true) : Answers s pid r := by
  induction n generalizing s l with
  | zero =>
    refine Answers.of_step (answers_of_post ?_)
    rw [Function.iterate_zero, id] at hn
    simp [childStep, hch, childRun, hn, State.childGoto]
  | succ n ih =>
    refine Answers.of_step ?_
    by_cases hfin : h.finished l = true
    · refine answers_of_post ?_
      simp [childStep, hch, childRun, hfin, State.childGoto]
    · refine ih (l := (h.step (l, (s.regions r).mem)).1) ?_ ?_
      · simp [childStep, hch, childRun, hfin, State.childGoto]
      · rw [Function.iterate_succ_apply] at hn
        simpa [childStep, hch, childRun, hfin, State.childGoto, State.setMem] using hn

/-- The handler ends on these bytes. -/
def Handler.EndsOn (h : Handler) (m : Mem) : Prop :=
  ∃ n, h.finished (h.step^[n] (h.start 0, m)).1 = true

theorem answers_of_check (hends : h.EndsOn (s.regions r).mem)
    (hch : s.children pid = some ⟨r, .check⟩)
    (htype : 0 < (s.regions r).mem.int Layout.reqType) : Answers s pid r := by
  obtain ⟨n, hn⟩ := hends
  refine Answers.of_step (answers_of_handling (n := n) (l := h.start 0) ?_ ?_)
  · simp only [childStep, hch, childRun, if_pos htype, State.childGoto, Function.update_self]
  · simp only [childStep, hch, childRun, if_pos htype, State.childGoto, State.log]
    exact hn

theorem answers_of_idle {c : ChildPc h} (hends : h.EndsOn (s.regions r).mem)
    (hch : s.children pid = some ⟨r, c⟩) (hc : c.Idle) (hsent : (s.regions r).status = .sent)
    (htype : 0 < (s.regions r).mem.int Layout.reqType) : Answers s pid r := by
  have hpoll2 : ∀ s : State h, s.children pid = some ⟨r, .poll2⟩ → (s.regions r).status = .sent →
      h.EndsOn (s.regions r).mem → 0 < (s.regions r).mem.int Layout.reqType →
        Answers s pid r := by
    intro s hch hsent hends htype
    refine Answers.of_step (answers_of_check ?_ ?_ ?_)
    · simpa [childStep, hch, childRun, hsent, State.childGoto] using hends
    · simp [childStep, hch, childRun, hsent, State.childGoto]
    · simpa [childStep, hch, childRun, hsent, State.childGoto] using htype
  cases hc with
  | poll2 => exact hpoll2 s hch hsent hends htype
  | poll =>
    refine Answers.of_step (hpoll2 _ ?_ ?_ ?_ ?_)
    · simp [childStep, hch, childRun, hsent, State.childGoto]
    · simp [childStep, hch, childRun, hsent, State.childGoto]
    · simpa [childStep, hch, childRun, hsent, State.childGoto] using hends
    · simpa [childStep, hch, childRun, hsent, State.childGoto] using htype

/-- A child that has come to a request on the bytes `m` and is not done with it. -/
inductive Busy (h : Handler) (m : Mem) : ChildPc h → Mem → Prop
  | idle {c : ChildPc h} : c.Idle → Busy h m c m
  | check : Busy h m .check m
  | handling (n : ℕ) : Busy h m (.handling (h.step^[n] (h.start 0, m)).1)
      (h.step^[n] (h.start 0, m)).2

/-- A child whose handler does not end stays busy. -/
theorem busy_childStep {m : Mem} {c : ChildPc h} (hno : ¬ h.EndsOn m)
    (htype : 0 < m.int Layout.reqType) (hch : s.children pid = some ⟨r, c⟩)
    (hsent : (s.regions r).status = .sent) (hbusy : Busy h m c (s.regions r).mem) :
    ((childStep s pid 0).regions r).status = .sent ∧
      ∃ c', (childStep s pid 0).children pid = some ⟨r, c'⟩ ∧
        Busy h m c' ((childStep s pid 0).regions r).mem := by
  generalize hm : (s.regions r).mem = m' at hbusy
  cases hbusy with
  | idle hidle =>
    cases hidle with
    | poll =>
      have hstep : childStep s pid 0 = s.childGoto pid r .poll2 := by
        simp [childStep, hch, childRun, hsent]
      rw [hstep]
      exact ⟨hsent, .poll2, Function.update_self .., hm ▸ .idle .poll2⟩
    | poll2 =>
      have hstep : childStep s pid 0 = s.childGoto pid r .check := by
        simp [childStep, hch, childRun, hsent]
      rw [hstep]
      exact ⟨hsent, .check, Function.update_self .., hm ▸ .check⟩
  | check =>
    have hstep : childStep s pid 0 =
        (s.log r (.start pid (s.regions r).mem)).childGoto pid r (.handling (h.start 0)) := by
      simp only [childStep, hch, childRun, hm, if_pos htype]
    rw [hstep]
    exact ⟨hsent, .handling (h.start 0), Function.update_self .., hm ▸ .handling 0⟩
  | handling n =>
    have hfin : h.finished (h.step^[n] (h.start 0, m)).1 = false :=
      Bool.eq_false_iff.mpr fun hf => hno ⟨n, hf⟩
    have hstep : childStep s pid 0 = (s.setMem r (h.step^[n + 1] (h.start 0, m)).2).childGoto pid r
        (.handling (h.step^[n + 1] (h.start 0, m)).1) := by
      simp only [childStep, hch, childRun, hfin, hm, Function.iterate_succ_apply']
      rfl
    rw [hstep]
    refine ⟨?_, _, Function.update_self .., ?_⟩
    · simpa [State.setMem, State.childGoto] using hsent
    · simpa [State.setMem, State.childGoto] using Busy.handling (h := h) (m := m) (n + 1)

/-- **A child that polls its region answers a request if and only if its handler ends.** -/
theorem answers_iff_endsOn {c : ChildPc h} (hch : s.children pid = some ⟨r, c⟩) (hc : c.Idle)
    (hsent : (s.regions r).status = .sent) (htype : 0 < (s.regions r).mem.int Layout.reqType) :
    Answers s pid r ↔ h.EndsOn (s.regions r).mem := by
  refine ⟨fun ⟨n, hn⟩ => ?_, fun hends => answers_of_idle hends hch hc hsent htype⟩
  by_contra hno
  have hbusy : ∀ n, (((fun s => childStep s pid 0)^[n] s).regions r).status = .sent ∧
      ∃ c', ((fun s => childStep s pid 0)^[n] s).children pid = some ⟨r, c'⟩ ∧
        Busy h (s.regions r).mem c' (((fun s => childStep s pid 0)^[n] s).regions r).mem := by
    intro n
    induction n with
    | zero => exact ⟨hsent, c, hch, .idle hc⟩
    | succ n ih =>
      obtain ⟨hst, c', hc', hb⟩ := ih
      rw [Function.iterate_succ_apply']
      exact busy_childStep hno htype hc' hst hb
  rw [(hbusy n).1] at hn
  cases hn

/-- **A request that a backend waits for is answered when its child runs.** -/
theorem Inv.answer (hi : Inv s ph) (hterm : h.Terminates) {b : ℕ} {q : Request}
    (hb : s.backends b = .holding r (.waitDone q)) : ∃ pid, Answers s pid r := by
  obtain ⟨φ, st, m, pid, c, hφ, hreg, ho, hc, hpid, hch, hrow⟩ :=
    hi.row_of_holding hb (by rintro ⟨⟩)
  refine ⟨pid, ?_⟩
  cases hrow with
  | idle hrow hidle =>
    cases hrow with
    | pending hp => cases hp
    | held hp => cases hp
    | sent hq =>
      refine answers_of_idle (hterm 0 _) hch hidle (by rw [hreg]) ?_
      rw [hreg]
      exact hq.reqType ▸ Cmd.code_pos _
    | done => exact ⟨0, by rw [Function.iterate_zero, id, hreg]⟩
  | received hq =>
    refine answers_of_check (hterm 0 _) hch ?_
    rw [hreg]
    exact hq.reqType ▸ Cmd.code_pos _
  | handling hat =>
    obtain ⟨seed, n, hn, hbefore⟩ := hat
    obtain ⟨k, hk⟩ := hterm seed _
    -- the run has not ended before step `n`, so it ends after it
    have hnk : n ≤ k := by
      by_contra hlt
      rw [hbefore k (by omega)] at hk
      cases hk
    obtain ⟨d, rfl⟩ := Nat.exists_eq_add_of_le hnk
    refine answers_of_handling (n := d) hch ?_
    rw [hreg, ← hn, ← Function.iterate_add_apply, Nat.add_comm d n]
    exact hk
  | answered => exact answers_of_post hch

/-- The result of a request that is answered is copied. -/
theorem reach_copied {ok : Label → Prop} {b : ℕ} {q : Request} (hgo : ok (.backend b .go))
    (hchild : ok (.child pid 0)) (hb : s.backends b = .holding r (.waitDone q))
    (ha : Answers s pid r) :
    ∃ s' m, Reach step (fun _ l => ok l) s s' ∧ .copied b q m ∈ s'.events r := by
  obtain ⟨n, hn⟩ := ha
  have hreach : ∀ n, Reach step (fun _ l => ok l) s ((fun s => childStep s pid 0)^[n] s) ∧
      ((fun s => childStep s pid 0)^[n] s).backends b = .holding r (.waitDone q) := by
    intro n
    induction n with
    | zero => exact ⟨.init, hb⟩
    | succ n ih =>
      rw [Function.iterate_succ_apply']
      have hstep := Reach.step (.child pid 0) ih.1 hchild
      exact ⟨hstep, (step_backends _ (l := .child pid 0) (by rintro ⟨⟩)).trans ih.2⟩
  obtain ⟨hs, hwait⟩ := hreach n
  generalize (fun s => childStep s pid 0)^[n] s = s' at hn hs hwait
  refine ⟨step (step s' (.backend b .go)) (.backend b .go), (s'.regions r).mem,
    (hs.step _ hgo).step _ hgo, ?_⟩
  simp [step, backendStep, hwait, holdStep, hn, State.goto, State.log]

/-! ## The handshake over whole runs -/

/-- **Requests and answers follow the handshake.** In a run in which no fork fails and each region
is held by one backend at a time, what happens to a region, over all its owners, is a sequence of
sessions: a child is forked for an owner; each request is serialized and sent by the owner, handled
by the child on these bytes, and its result copied and its return code read by the owner from what
the handler left; the child is told to exit, exits and is waited for. A request that is waited for
can be answered by its child. -/
theorem sessions_follow_handshake (h : Handler) (hterm : h.Terminates) (f : Forking h)
    (hf : Reach Forking.step (fun f x => ¬ f.Fails x ∧ (f.step x).state.Exclusive)
      (Forking.start h) f) :
    (∀ r, ∃ φ, Follows (Handshake h) .free (f.state.events r) φ) ∧
    (∀ b r q, f.state.backends b = .holding r (.waitDone q) → ∃ pid, Answers f.state pid r) := by
  obtain ⟨-, hs⟩ := Forking.reach_iff.mp hf
  obtain ⟨ph, hi⟩ := inv_of_exclusive hs
  exact ⟨fun r => ⟨ph r, hi.log r⟩, fun b r q hb => hi.answer hterm hb⟩

/-- A handler that writes a return code and ends. -/
def Handler.returning (v : ℤ) : Handler where
  Local := Bool
  start _ := false
  step x := (true, x.2.setInt Layout.resp v)
  finished l := l

theorem terminates_returning (v : ℤ) : (Handler.returning v).Terminates := fun _ _ => ⟨1, rfl⟩

/-- A request is sent, handled and copied. -/
theorem exists_copied (v : ℤ) (q : Request) : ∃ (s : State (.returning v)) (m : Mem),
    Reach step (fun s l => (step s l).Exclusive) (State.start (.returning v)) s ∧
    .copied 0 q m ∈ s.events firstRegion := by
  have hzero (c : Choice) : Label.Few (.backend 0 c) := firstRegion.isLt
  obtain ⟨s₁, hs₁, hwait, hch, hsent, hin⟩ :=
    exists_waiting Label.Few (.returning v) q trivial hzero
  have hanswers : Answers s₁ 1 firstRegion := answers_of_idle (terminates_returning v 0 _) hch .poll
    hsent (hin.reqType ▸ Cmd.code_pos _)
  obtain ⟨s, m, hs, hcopied⟩ := reach_copied (hzero .go) trivial hwait hanswers
  exact ⟨s, m, exclusive_of_few (hs₁.trans hs), hcopied⟩

/-- A request for the sum of two numbers. -/
def askSum : Request :=
  .calcNum .int .plus ⟨List.replicate _ 7, List.length_replicate⟩
    ⟨List.replicate _ 5, List.length_replicate⟩

theorem sessions_follow_handshake_copied : ∃ (f : Forking (.returning 0)) (m : Mem),
    Reach Forking.step (fun f x => ¬ f.Fails x ∧ (f.step x).state.Exclusive) (Forking.start _) f ∧
    .copied 0 askSum m ∈ f.state.events firstRegion ∧
    ∃ φ, Follows (Handshake (.returning 0)) .free (f.state.events firstRegion) φ := by
  obtain ⟨s, m, hs, hcopied⟩ := exists_copied 0 askSum
  have hf := (Forking.reach_iff (f := ⟨s, fun _ => false⟩)).mpr ⟨rfl, hs⟩
  exact ⟨_, m, hf, hcopied,
    (sessions_follow_handshake _ (terminates_returning 0) _ hf).1 firstRegion⟩

end SharedMemory

end HEDB
