import Mathlib.Tactic

/-!
# Transition systems and event logs

A system of processes is a step function on states: a label says which process takes the next step
and what it chooses, and a process that waits leaves the state as it is. `Reach ok init s` says that
`s` can be reached from `init` by steps that satisfy `ok`; every property that holds at first and is
kept by such steps holds of all reachable states (`Reach.invariant`), and a state that is reached by
several steps is reached in a run (`Reach.trans`).

A schedule says who takes the step at each time. It is fair when everybody gets a turn again and
again. If every step either changes nothing or lowers a rank, and somebody can always lower it, then
the system ends under every fair schedule (`Fair.ends`).

`Follows R a es b` says that the events `es`, in their order, lead the automaton `R` from `a` to
`b`. A log grows at its end (`Follows.snoc`) and can be cut at any of its events (`Follows.split`);
what every event keeps, a log keeps (`Follows.invariant`).
-/

namespace HEDB

section Systems

variable {σ ℓ : Type*} {step : σ → ℓ → σ} {ok : σ → ℓ → Prop} {init : σ}

/-- The states that are reachable by allowed steps. -/
inductive Reach (step : σ → ℓ → σ) (ok : σ → ℓ → Prop) (init : σ) : σ → Prop
  | init : Reach step ok init init
  | step {s : σ} (l : ℓ) : Reach step ok init s → ok s l → Reach step ok init (step s l)

/-- **A property that allowed steps keep holds of every reachable state.** -/
theorem Reach.invariant {I : σ → Prop} (h₀ : I init)
    (hstep : ∀ s l, I s → ok s l → I (step s l)) {s : σ} (h : Reach step ok init s) : I s := by
  induction h with
  | init => exact h₀
  | step l _ hok ih => exact hstep _ l ih hok

/-- Runs compose. -/
theorem Reach.trans {s t : σ} (h₁ : Reach step ok init s) (h₂ : Reach step ok s t) :
    Reach step ok init t := by
  induction h₂ with
  | init => exact h₁
  | step l _ hok ih => exact ih.step l hok

/-- The states of a run under a schedule. -/
def trace (step : σ → ℓ → σ) (init : σ) (sched : ℕ → ℓ) : ℕ → σ
  | 0 => init
  | n + 1 => step (trace step init sched n) (sched n)

/-- Every label comes up again and again. -/
def Fair (sched : ℕ → ℓ) : Prop := ∀ l n, ∃ m, n ≤ m ∧ sched m = l

theorem exists_fair (ℓ : Type*) [Countable ℓ] [Nonempty ℓ] : ∃ sched : ℕ → ℓ, Fair sched := by
  obtain ⟨f, hf⟩ := exists_surjective_nat ℓ
  refine ⟨fun n => f n.unpair.1, fun l n => ?_⟩
  obtain ⟨a, rfl⟩ := hf l
  exact ⟨Nat.pair a n, Nat.right_le_pair a n, by simp⟩

/-- A property that steps keep holds at all times. -/
theorem trace_invariant {I : σ → Prop} (h₀ : I init) (hstep : ∀ s l, I s → I (step s l))
    (sched : ℕ → ℓ) (n : ℕ) : I (trace step init sched n) := by
  induction n with
  | zero => exact h₀
  | succ n ih => exact hstep _ _ ih

/-- **A fair run ends**, if steps that change the state lower its rank and there is one in every
state that is not an end. -/
theorem Fair.ends {sched : ℕ → ℓ} (hfair : Fair sched) {P : σ → Prop} (rank : σ → ℕ)
    (hrank : ∀ s l, step s l = s ∨ rank (step s l) < rank s)
    (hmove : ∀ s, ¬ P s → ∃ l, step s l ≠ s) : ∃ n, P (trace step init sched n) := by
  by_contra hnever
  -- From the state of least rank on nothing changes any more, although somebody could move.
  obtain ⟨n, hn⟩ : ∃ n, ∀ m, rank (trace step init sched n) ≤ rank (trace step init sched m) :=
    ⟨_, fun m => Function.argmin_le (fun n => rank (trace step init sched n)) m⟩
  have hconst : ∀ m, n ≤ m → trace step init sched m = trace step init sched n := by
    intro m hm
    induction m, hm using Nat.le_induction with
    | base => rfl
    | succ m hm ih =>
      rcases hrank (trace step init sched m) (sched m) with hsame | hless
      · exact hsame.trans ih
      · rw [ih] at hless
        have hmin := hn (m + 1)
        rw [trace, ih] at hmin
        omega
  obtain ⟨l, hl⟩ := hmove _ fun h => hnever ⟨n, h⟩
  obtain ⟨m, hm, rfl⟩ := hfair l n
  have hsucc := hconst (m + 1) (by omega)
  rw [trace, hconst m hm] at hsucc
  exact hl hsucc

end Systems

section Automata

variable {α ε : Type*} {R : α → ε → α → Prop}

/-- The events lead the automaton from the first state to the second. -/
inductive Follows (R : α → ε → α → Prop) : α → List ε → α → Prop
  | nil (a : α) : Follows R a [] a
  | cons {a b c : α} {e : ε} {es : List ε} : R a e b → Follows R b es c → Follows R a (e :: es) c

/-- One more event at the end of a log. -/
theorem Follows.snoc {a b c : α} {e : ε} {es : List ε} (h : Follows R a es b) (he : R b e c) :
    Follows R a (es ++ [e]) c := by
  induction h with
  | nil a => exact .cons he (.nil c)
  | cons hab _ ih => exact .cons hab (ih he)

/-- A property of the log so far and where it leads, which every event keeps. -/
theorem Follows.invariant {I : List ε → α → Prop}
    (hstep : ∀ pre a e b, I pre a → R a e b → I (pre ++ [e]) b) {a b : α} {es : List ε}
    (h : Follows R a es b) (ha : I [] a) : I es b := by
  suffices hpre : ∀ pre, I pre a → I (pre ++ es) b from hpre [] ha
  clear ha
  induction h with
  | nil a =>
    intro pre ha
    rwa [List.append_nil]
  | @cons a b c e es he _ ih =>
    intro pre ha
    rw [← List.singleton_append, ← List.append_assoc]
    exact ih _ (hstep pre _ _ _ ha he)

/-- A log that leads somewhere can be cut at any event. -/
theorem Follows.split {a c : α} {e : ε} {pre post : List ε} (h : Follows R a (pre ++ e :: post) c) :
    ∃ b b', Follows R a pre b ∧ R b e b' ∧ Follows R b' post c := by
  induction pre generalizing a with
  | nil =>
    cases h with
    | cons he hpost => exact ⟨a, _, .nil a, he, hpost⟩
  | cons e' pre ih =>
    cases h with
    | cons he' htail =>
      obtain ⟨b, b', hpre, he, hpost⟩ := ih htail
      exact ⟨b, b', .cons he' hpre, he, hpost⟩

end Automata

end HEDB
