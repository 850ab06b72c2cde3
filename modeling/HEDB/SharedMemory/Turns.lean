import HEDB.SharedMemory.Exclusivity

/-!
# A backend and its child

A backend that works in its region shares it with its child only: the steps of all other processes
leave what the two see as it is (`Inv.untouched`).
-/

namespace HEDB

namespace SharedMemory

variable {h : Handler} {s : State h} {ph : Region → Phase} {b : ℕ} {r : Region}

/-- The child that serves a region is the one of `child_pids`. -/
theorem Inv.pid_eq (hi : Inv s ph) {pid : ℕ} {c : ChildPc h}
    (hch : s.children pid = some ⟨r, c⟩) : s.childPids r = pid := by
  obtain ⟨-, -, -, -, -, -, -, -, hpid, -⟩ := hi.row_of_child hch
  exact hpid

/-- The server leaves a region alone in which a backend works, and its child. -/
theorem Inv.untouched_by_server (hi : Inv s ph) {p : HoldPc} (hb : s.backends b = .holding r p)
    (hp : p.Inside) : (serverStep s).regions r = s.regions r ∧
      (serverStep s).childPids r = s.childPids r ∧
      (serverStep s).children (s.childPids r) = s.children (s.childPids r) := by
  obtain ⟨φ, st, m, pid, c, hφ, -, ho, -, rfl, hch, -⟩ := hi.row_of_holding hb
    (by rintro ⟨⟩ <;> cases hp)
  have hfree : (ph r).role ≠ .free := by
    rw [hφ]
    intro hf
    rw [hf] at ho
    cases ho
  -- a region that the server frees is held by a backend in `freeBuffer`
  have hne : ∀ b' r', s.backends b' = .holding r' .freeWait → r ≠ r' := by
    rintro b' r' hb' rfl
    cases hi.exclusive b b' r ⟨_, hb⟩ ⟨_, hb'⟩
    cases hb.symm.trans hb'
    cases hp
  unfold serverStep
  cases hsv : s.server with
  | scan i => dsimp only; split_ifs <;> exact ⟨rfl, rfl, rfl⟩
  | fork r' =>
    obtain ⟨-, -, -, -, -, hsearch⟩ := hi.control.stage.searching hsv trivial
    cases hsearch with
    | fork hf =>
      refine ⟨rfl, Function.update_of_ne ?_ .., Function.update_of_ne ?_ ..⟩
      · rintro rfl
        exact hfree hf
      · intro hpid
        rw [hpid, hi.control.fresh _ le_rfl] at hch
        cases hch
  | freeExit r' =>
    obtain ⟨b', r'', -, hb', -, -, hf⟩ := hi.control.stage.freeing hsv trivial
    cases hf
    exact ⟨Function.update_of_ne (hne b' r' hb') .., rfl, rfl⟩
  | freeWait r' =>
    obtain ⟨b', r'', -, hb', -, -, hf⟩ := hi.control.stage.freeing hsv trivial
    cases hf with
    | freeWait pid' hclosing =>
      obtain ⟨pid', -, rfl, c', hch', -⟩ := (hi.regions r').served
        (show (ph r').role.owner = some b' by rw [show (ph r').role = _ from hclosing]; rfl)
      have hpids : s.childPids r ≠ s.childPids r' := by
        intro hpp
        rw [hpp, hch'] at hch
        cases hch
        exact hne b' r hb' rfl
      dsimp only
      split
      · exact ⟨rfl, rfl, rfl⟩
      · exact ⟨rfl, rfl, Function.update_of_ne hpids ..⟩
      · exact ⟨rfl, rfl, rfl⟩
  | _ => exact ⟨rfl, rfl, rfl⟩

/-- **A region is shared by its owner and its child only.** -/
theorem Inv.untouched (hi : Inv s ph) {p : HoldPc} (hb : s.backends b = .holding r p)
    (hp : p.Inside) {l : Label} (hl : l.process ≠ .backend b)
    (hl' : l.process ≠ .child (s.childPids r)) :
    (SharedMemory.step s l).backends b = s.backends b ∧
      (SharedMemory.step s l).regions r = s.regions r ∧
      (SharedMemory.step s l).childPids r = s.childPids r ∧
      (SharedMemory.step s l).children (s.childPids r) = s.children (s.childPids r) := by
  cases l with
  | server =>
    obtain ⟨hreg, hpid, hch⟩ := hi.untouched_by_server hb hp
    exact ⟨congrFun (serverStep_eq s).2 b, hreg, hpid, hch⟩
  | child pid seed =>
    obtain ⟨rs, es, c, heq, hrs⟩ := childStep_eq s pid seed
    have hpid : s.childPids r ≠ pid := fun hpp => hl' (by rw [hpp]; rfl)
    rw [SharedMemory.step, heq]
    exact ⟨rfl, hrs r fun pc hch => hpid (hi.pid_eq hch), rfl, Function.update_of_ne hpid ..⟩
  | backend b' c =>
    have hof := ofBackend s b' c
    have hbb : b ≠ b' := fun hbb => hl (by rw [hbb]; rfl)
    refine ⟨hof.others b hbb, hof.regions r fun hheld => hbb ?_, congrFun hof.childPids r,
      congrFun hof.children _⟩
    exact hi.exclusive b b' r ⟨p, hb⟩ hheld

end SharedMemory

end HEDB
