import HEDB.Foundations.System

/-!
# What fair runs lead to

A run is a sequence of states, and at each time one process takes a step. It is fair to a process
that gets a turn again and again.

`LeadsTo run P Q` says that whenever `P` holds, `Q` holds at that time or later. These facts chain
(`LeadsTo.trans`). The rule for a single one is a rank: as long as `P` holds and `Q` has not come
about, one process has to move. Its step lowers the rank, and the steps of the others do not raise
it and do not change who has to move (`leadsTo_of_rank`).
-/

namespace HEDB

variable {σ π : Type*} {run : ℕ → σ}

/-- The process takes a step again and again. -/
def FairTo (who : ℕ → π) (p : π) : Prop := ∀ n, ∃ m, n ≤ m ∧ who m = p

/-- Whenever `P` holds, `Q` holds at that time or later. -/
def LeadsTo (run : ℕ → σ) (P Q : σ → Prop) : Prop := ∀ n, P (run n) → ∃ m, n ≤ m ∧ Q (run m)

theorem LeadsTo.trans {P Q R : σ → Prop} (hpq : LeadsTo run P Q) (hqr : LeadsTo run Q R) :
    LeadsTo run P R := by
  intro n hn
  obtain ⟨m, hnm, hm⟩ := hpq n hn
  obtain ⟨k, hmk, hk⟩ := hqr m hm
  exact ⟨k, hnm.trans hmk, hk⟩

/-- Strengthening `P` and weakening `Q`. -/
theorem LeadsTo.mono {P P' Q Q' : σ → Prop} (h : LeadsTo run P Q) (hP : ∀ s, P' s → P s)
    (hQ : ∀ s, Q s → Q' s) : LeadsTo run P' Q' := by
  intro n hn
  obtain ⟨m, hnm, hm⟩ := h n (hP _ hn)
  exact ⟨m, hnm, hQ _ hm⟩

/-- **The rank rule.** -/
theorem leadsTo_of_rank {ρ : Type*} [Preorder ρ] [WellFoundedLT ρ] {P Q : σ → Prop} (who : ℕ → π)
    (rank : σ → ρ) (turn : σ → π) (hfair : ∀ n, P (run n) → FairTo who (turn (run n)))
    (hstep : ∀ n, P (run n) → Q (run (n + 1)) ∨ P (run (n + 1)) ∧
      (rank (run (n + 1)) < rank (run n) ∨ rank (run (n + 1)) = rank (run n) ∧
        turn (run (n + 1)) = turn (run n) ∧ who n ≠ turn (run n))) : LeadsTo run P Q := by
  suffices h : ∀ x : ρ, ∀ n, rank (run n) = x → P (run n) → ∃ m, n ≤ m ∧ Q (run m) from
    fun n hn => h _ n rfl hn
  intro x
  induction x using WellFoundedLT.induction with
  | ind x ih =>
    -- The second induction is on the time until the process that has to move takes its step.
    have hwait : ∀ d n, rank (run n) = x → P (run n) → who (n + d) = turn (run n) →
        ∃ m, n ≤ m ∧ Q (run m) := by
      intro d
      induction d with
      | zero =>
        intro n hx hn hturn
        rcases hstep n hn with hq | ⟨hp, hlt | ⟨-, -, hne⟩⟩
        · exact ⟨n + 1, n.le_succ, hq⟩
        · obtain ⟨m, hm, hq⟩ := ih _ (hx ▸ hlt) (n + 1) rfl hp
          exact ⟨m, by omega, hq⟩
        · exact absurd hturn hne
      | succ d ihd =>
        intro n hx hn hturn
        rcases hstep n hn with hq | ⟨hp, hlt | ⟨heq, hsame, -⟩⟩
        · exact ⟨n + 1, n.le_succ, hq⟩
        · obtain ⟨m, hm, hq⟩ := ih _ (hx ▸ hlt) (n + 1) rfl hp
          exact ⟨m, by omega, hq⟩
        · obtain ⟨m, hm, hq⟩ := ihd (n + 1) (heq.trans hx) hp
            (by rw [hsame, ← hturn, Nat.add_right_comm, Nat.add_assoc])
          exact ⟨m, by omega, hq⟩
    intro n hx hn
    obtain ⟨m, hm, hturn⟩ := hfair n hn n
    obtain ⟨d, rfl⟩ := Nat.exists_eq_add_of_le hm
    exact hwait d n hx hn hturn

end HEDB
