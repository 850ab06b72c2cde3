import HEDB.SharedMemory.Turns

/-!
# Inside a call

A backend that constructs its `TEEInvoker` or sends a request does not need the lock. It works in
its region and waits for the child there. `requestTurn` says which of the two has to move, and
`requestRank` how far the call is from its end; the second component of the rank counts the steps of
the handler, whose number is known only when it has started. As inside the lock, a step of the
process that has to move lowers the rank, and no other step changes it (`Inv.request_step`).
-/

namespace HEDB

namespace SharedMemory

variable {h : Handler} {s : State h} {ph : Region → Phase} {b : ℕ} {r : Region}

/-! ## Ranks -/

/-- The number of steps that a handler run still takes. -/
noncomputable def Handler.remaining (h : Handler) (x : h.Local × Mem) : ℕ :=
  sInf {n | h.finished (h.step^[n] x).1 = true}

theorem Handler.remaining_step {x : h.Local × Mem}
    (hends : ∃ n, h.finished (h.step^[n] x).1 = true) (hx : h.finished x.1 = false) :
    h.remaining (h.step x) < h.remaining x := by
  have hmem : h.finished (h.step^[h.remaining x] x).1 = true := Nat.sInf_mem hends
  cases hn : h.remaining x with
  | zero =>
    rw [hn, Function.iterate_zero, id, hx] at hmem
    cases hmem
  | succ n =>
    rw [hn, Function.iterate_succ_apply] at hmem
    exact Nat.lt_succ_of_le (Nat.sInf_le hmem)

/-- A run that is under way ends. -/
theorem Handler.Terminates.ends (hterm : h.Terminates) {m₀ m : Mem} {l : h.Local}
    (hat : h.At m₀ l m) : ∃ n, h.finished (h.step^[n] (l, m)).1 = true := by
  obtain ⟨seed, n, hn, hbefore⟩ := hat
  obtain ⟨k, hk⟩ := hterm seed m₀
  have hnk : n ≤ k := by
    by_contra hlt
    rw [hbefore k (by omega)] at hk
    cases hk
  obtain ⟨d, rfl⟩ := Nat.exists_eq_add_of_le hnk
  refine ⟨d, ?_⟩
  rw [← hn, ← Function.iterate_add_apply, Nat.add_comm d n]
  exact hk

/-- How far a child is from the answer to a request in its region. -/
noncomputable def serveRank (m : Mem) : Option (Child h) → ℕ ×ₗ ℕ
  | some ⟨_, .poll⟩ => toLex (9, 0)
  | some ⟨_, .poll2⟩ => toLex (8, 0)
  | some ⟨_, .check⟩ => toLex (7, 0)
  | some ⟨_, .handling l⟩ => toLex (6, h.remaining (l, m))
  | _ => toLex (5, 0)

/-- How far a backend is from the end of its call. -/
noncomputable def requestRank (s : State h) (r : Region) : HoldPc → ℕ ×ₗ ℕ
  | .serialize _ ws => toLex (10 + ws.length, 0)
  | .waitDone _ =>
    if (s.regions r).status = .done then toLex (4, 0)
    else serveRank (s.regions r).mem (s.children (s.childPids r))
  | .copy _ => toLex (3, 0)
  | .readResp _ => toLex (2, 0)
  | _ => toLex (1, 0)

/-- The process that has to move. -/
def requestTurn (s : State h) (b : ℕ) (r : Region) : HoldPc → Process
  | .waitDone _ => if (s.regions r).status = .done then .backend b else .child (s.childPids r)
  | _ => .backend b

theorem serveRank_lt (m : Mem) (c : Option (Child h)) (n : ℕ) :
    serveRank m c < toLex (10 + n, 0) := by
  unfold serveRank
  split <;> exact Prod.Lex.toLex_lt_toLex.2 (.inl (by dsimp only; omega))

/-! ## One step -/

/-- What a step of a process does to the call of backend `b` in region `r`. -/
def RequestNext (s s' : State h) (b : ℕ) (r : Region) (p : HoldPc) (who : Process) : Prop :=
  s'.backends b = .holding r .ready ∨
  ∃ p', s'.backends b = .holding r p' ∧ p'.Inside ∧ p' ≠ .ready ∧
    (requestRank s' r p' < requestRank s r p ∨
      requestRank s' r p' = requestRank s r p ∧ requestTurn s' b r p' = requestTurn s b r p ∧
        who ≠ requestTurn s b r p)

/-- The backend itself moves when it has to, and only then. -/
theorem request_own {p : HoldPc} (hb : s.backends b = .holding r p) (hp : p.Inside)
    (hne : p ≠ .ready) (c : Choice) : RequestNext s (backendStep s b c) b r p (.backend b) := by
  have hgoto : ∀ (s' : State h) (p' : HoldPc), p'.Inside → p' ≠ .ready →
      requestRank (s'.goto b (.holding r p')) r p' < requestRank s r p →
      RequestNext s (s'.goto b (.holding r p')) b r p (.backend b) :=
    fun s' p' hp' hne' hlt => .inr ⟨p', Function.update_self .., hp', hne', .inl hlt⟩
  unfold backendStep
  rw [hb]
  cases hp with
  | ctor => exact .inl (Function.update_self ..)
  | ready => exact absurd rfl hne
  | serialize q ws =>
    cases ws with
    | nil =>
      refine hgoto _ _ (.waitDone q) (by rintro ⟨⟩) ?_
      simp only [requestRank]
      split_ifs
      · exact Prod.Lex.toLex_lt_toLex.2 (.inl (by decide))
      · exact serveRank_lt _ _ 0
    | cons w ws =>
      refine hgoto _ _ (.serialize q ws) (by rintro ⟨⟩) ?_
      exact Prod.Lex.toLex_lt_toLex.2 (.inl (by simp))
  | waitDone q =>
    simp only [holdStep]
    split_ifs with hdone
    · refine hgoto _ _ (.copy q) (by rintro ⟨⟩) ?_
      rw [requestRank, requestRank, if_pos hdone]
      exact Prod.Lex.toLex_lt_toLex.2 (.inl (by decide))
    · refine .inr ⟨_, hb, .waitDone q, by rintro ⟨⟩, .inr ⟨rfl, rfl, ?_⟩⟩
      rw [requestTurn, if_neg hdone]
      rintro ⟨⟩
  | copy q =>
    exact hgoto _ _ (.readResp q) (by rintro ⟨⟩) (Prod.Lex.toLex_lt_toLex.2 (.inl (by decide)))
  | readResp q =>
    exact hgoto _ _ .reset (by rintro ⟨⟩) (Prod.Lex.toLex_lt_toLex.2 (.inl (by decide)))
  | reset => exact .inl (Function.update_self ..)

/-- The child of a region serves a request that has been sent. -/
theorem Inv.serveRank_childStep (hi : Inv s ph) (hterm : h.Terminates) {q : Request} (seed : ℕ)
    (hb : s.backends b = .holding r (.waitDone q)) (hn : (s.regions r).status ≠ .done) :
    requestRank (childStep s (s.childPids r) seed) r (.waitDone q) <
      requestRank s r (.waitDone q) := by
  obtain ⟨φ, st, m, pid, c, -, hreg, -, -, rfl, hch, hrow⟩ :=
    hi.row_of_holding hb (by rintro ⟨⟩)
  have hst : st ≠ .done := by rwa [hreg] at hn
  rw [requestRank, requestRank, if_neg hn, hreg, hch]
  cases hrow with
  | idle hrow hc =>
    cases hrow with
    | pending hp => cases hp
    | held hp => cases hp
    | done => exact absurd rfl hst
    | sent hq =>
      cases hc with
      | poll | poll2 =>
        simp [childStep, hch, childRun, hreg, State.childGoto, serveRank,
          Prod.Lex.toLex_lt_toLex]
  | received hq =>
    have htype : 0 < (s.regions r).mem.int Layout.reqType := by
      rw [hreg]
      exact hq.reqType ▸ Cmd.code_pos _
    simp only [childStep, hch, childRun, if_pos htype]
    simp [hreg, State.log, State.childGoto, serveRank, Prod.Lex.toLex_lt_toLex]
  | handling hat =>
    rename_i l
    by_cases hfin : h.finished l = true
    · simp [childStep, hch, childRun, hreg, hfin, State.log, State.childGoto, serveRank,
        Prod.Lex.toLex_lt_toLex]
    · have hless := Handler.remaining_step (x := (l, m)) (hterm.ends hat)
        (Bool.eq_false_of_not_eq_true hfin)
      simpa [childStep, hch, childRun, hreg, hfin, State.setMem, State.childGoto, serveRank,
        Prod.Lex.toLex_lt_toLex] using hless
  | answered =>
    simp [childStep, hch, childRun, hreg, State.setStatus, State.childGoto, serveRank,
      Prod.Lex.toLex_lt_toLex]

/-- A child leaves its region alone when there is no request that it has to answer. -/
theorem Inv.childStep_regions (hi : Inv s ph) {p : HoldPc} (hb : s.backends b = .holding r p)
    (hp : p.Inside) (hdone : ∀ q, p = .waitDone q → (s.regions r).status = .done) (seed : ℕ) :
    (childStep s (s.childPids r) seed).regions = s.regions := by
  obtain ⟨φ, st, m, pid, c, -, hreg, -, -, rfl, hch, hrow⟩ :=
    hi.row_of_holding hb (by rintro ⟨⟩ <;> cases hp)
  rw [hreg] at hdone
  -- it polls, and finds nothing
  obtain ⟨hc, hsent, hexit⟩ : c.Idle ∧ st ≠ .sent ∧ st ≠ .exit := by
    cases hrow with
    | idle hrow hc =>
      refine ⟨hc, ?_, ?_⟩
      · rintro rfl
        cases hrow with
        | sent => cases hdone _ rfl
      · rintro rfl
        cases hrow with
        | exiting => cases hp
    | received => cases hdone _ rfl
    | handling => cases hdone _ rfl
    | answered => cases hdone _ rfl
    | _ => cases hp
  cases hc with
  | poll => simp [childStep, hch, childRun, hreg, hexit, State.childGoto]
  | poll2 => simp [childStep, hch, childRun, hreg, hsent, State.childGoto]

/-- **In a call somebody always moves.** -/
theorem Inv.request_step (hi : Inv s ph) (hterm : h.Terminates) {p : HoldPc}
    (hb : s.backends b = .holding r p) (hp : p.Inside) (hne : p ≠ .ready) (l : Label) :
    RequestNext s (SharedMemory.step s l) b r p l.process := by
  by_cases hown : l.process = .backend b
  · cases l with
    | backend b' c =>
      cases hown
      exact request_own hb hp hne c
    | _ => cases hown
  have hb' := (step_backends s hown).trans hb
  by_cases hchild : l.process = .child (s.childPids r)
  · cases l with
    | child pid seed =>
      cases hchild
      by_cases hwait : ∀ q, p = .waitDone q → (s.regions r).status = .done
      · -- the backend does not wait for the child, which polls
        have hstill := hi.childStep_regions hb hp (fun q hq => hwait q hq) seed
        refine .inr ⟨p, hb', hp, hne, .inr ?_⟩
        rw [SharedMemory.step]
        cases hp with
        | waitDone q =>
          simp only [requestRank, requestTurn, hstill, hwait q rfl, if_true]
          exact ⟨trivial, trivial, by rintro ⟨⟩⟩
        | _ => exact ⟨rfl, rfl, by rintro ⟨⟩⟩
      · push Not at hwait
        obtain ⟨q, rfl, hn⟩ := hwait
        exact .inr ⟨_, hb', hp, hne, .inl (hi.serveRank_childStep hterm seed hb hn)⟩
    | _ => cases hchild
  · obtain ⟨-, hreg, hpid, hch⟩ := hi.untouched hb hp hown hchild
    refine .inr ⟨p, hb', hp, hne, .inr ⟨?_, ?_, ?_⟩⟩
    · unfold requestRank
      rw [hreg, hpid, hch]
    · unfold requestTurn
      rw [hreg, hpid]
    · unfold requestTurn
      split
      · split_ifs
        · exact hown
        · exact hchild
      · exact hown

end SharedMemory

end HEDB
