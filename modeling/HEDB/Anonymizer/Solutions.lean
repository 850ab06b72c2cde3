import Mathlib.Tactic

/-!
# Solutions of constraints

`solve` in `run_z3.py` and the script `run_z3_save.py` ask the solver for one model after the other
and add a clause after each, so that the next model is different. The clause negates the conjunction
of the disequalities `v != m[v]`, and so demands that some variable keeps its value. All models of a
run agree with each other somewhere (`pairwise_agree`), and nothing keeps the solver from giving the
same model again. Different models are certain only for a single iteration, or when there is no
variable to report (`solutions_iff`). The scripts print a model of the constraints or fail, and any
model can be the one that they print, however many iterations there are (`printed_iff`).
-/

namespace HEDB

namespace Anonymizer

namespace Z3

/-! ## The loop -/

/-- The values of the variables. -/
abbrev Assignment (D : Type) : Type := String → D

/-- The names that are neither blocked nor printed. -/
def administrative : List String := ["model_version", "op", "type", "array-ext"]

/-- The other variables. -/
def reported (vars : List String) : List String := vars.filter fun v => v ∉ administrative

/-- How a script ends. -/
inductive Outcome
  /-- "not able to generate enough output". -/
  | notEnough
  /-- "no constraints". -/
  | noConstraints
  /-- The model is printed before there is one. -/
  | unbound
  | printed (out : String)
  deriving DecidableEq

section Scripts

variable {D : Type}

/-- The list `c` of a model: the disequalities, as variables with values. -/
def disequalities (vars : List String) (m : Assignment D) : List (String × D) :=
  (reported vars).map fun v => (v, m v)

/-- The clause `Not(And(c))`. -/
def Clause (c : List (String × D)) (x : Assignment D) : Prop := ¬ ∀ d ∈ c, x d.1 ≠ d.2

variable (check : List (List (String × D)) → Option (Assignment D)) (vars : List String)

/-- The loop. `check` is the solver on the constraints and the clauses that were added, and
`onEmpty` is how the script ends on a model without variables. It returns the models, and an outcome
if it ends the script. -/
def enumerate (onEmpty : Outcome) :
    ℕ → List (List (String × D)) → List (Assignment D) × Option Outcome
  | 0, _ => ([], none)
  | n + 1, added =>
    match check added with
    | none => ([], some .notEnough)
    | some m =>
      if vars = [] then ([m], some onEmpty)
      else
        let rest := enumerate onEmpty n (added ++ [disequalities vars m])
        (m :: rest.1, rest.2)

/-- The text of a model. `print` is the text of a value. -/
def render (print : D → String) (m : Assignment D) : String :=
  let out := String.join ((reported vars).map fun v => v ++ "," ++ print (m v) ++ "\n" ++ ";")
  String.ofList (out.toList.filter fun c => c ≠ '\n' ∧ c ≠ ' ')

/-- A script: the loop, and the text of the last model. -/
def script (onEmpty : Outcome) (print : D → String) (iters : ℕ) : Outcome :=
  match enumerate check vars onEmpty iters [] with
  | (_, some outcome) => outcome
  | (models, none) =>
    match models.getLast? with
    | none => .unbound
    | some m => .printed (render vars print m)

/-- `solve` in `run_z3.py`. -/
def solve (print : D → String) (iters : ℕ) : Outcome :=
  script check vars .noConstraints print iters

/-- `run_z3_save.py`, which takes a model without variables for a failure. -/
def solveSave (print : D → String) (iters : ℕ) : Outcome :=
  script check vars .notEnough print iters

end Scripts

/-! ## What it is for -/

variable {D : Type} {C : Assignment D → Prop} {vars : List String}
  {check : List (List (String × D)) → Option (Assignment D)} {onEmpty : Outcome} {iters : ℕ}

/-- The solver is sound and complete for the constraints and the clauses. -/
structure Decides (C : Assignment D → Prop)
    (check : List (List (String × D)) → Option (Assignment D)) : Prop where
  sound : ∀ added m, check added = some m → C m ∧ ∀ c ∈ added, Clause c m
  complete : ∀ added, check added = none → ∀ m, ¬ (C m ∧ ∀ c ∈ added, Clause c m)

/-- Two models are different on the variables that are reported. -/
def Differ (vars : List String) (m m' : Assignment D) : Prop := ∃ v ∈ reported vars, m v ≠ m' v

/-- There are as many different models of the constraints. -/
def Enough (C : Assignment D → Prop) (vars : List String) (iters : ℕ) : Prop :=
  ∃ models : List (Assignment D), models.length = iters ∧ (∀ m ∈ models, C m) ∧
    models.Pairwise (Differ vars)

/-- **The loop enumerates different models**, whichever the solver picks, and fails only if there
are not enough. -/
def Enumerates (C : Assignment D → Prop) (vars : List String) (onEmpty : Outcome) (iters : ℕ) :
    Prop :=
  ∀ check, Decides C check →
    (enumerate check vars onEmpty iters []).1.Pairwise (Differ vars) ∧
    ((enumerate check vars onEmpty iters []).2 = some .notEnough → ¬ Enough C vars iters)

/-! ## Models of a run -/

/-- A clause demands that a variable keeps its value. -/
theorem clause_disequalities {m x : Assignment D} :
    Clause (disequalities vars m) x ↔ ∃ v ∈ reported vars, x v = m v := by
  simp [Clause, disequalities]

/-- Every model of the loop keeps the constraints and the clauses that were there before. -/
theorem sound_of_mem_enumerate (hcheck : Decides C check) {added : List (List (String × D))}
    {m : Assignment D} (hm : m ∈ (enumerate check vars onEmpty iters added).1) :
    C m ∧ ∀ c ∈ added, Clause c m := by
  induction iters generalizing added with
  | zero => exact absurd hm List.not_mem_nil
  | succ n ih =>
    rw [enumerate] at hm
    cases hcall : check added with
    | none =>
      rw [hcall] at hm
      exact absurd hm List.not_mem_nil
    | some m₀ =>
      have hm₀ := hcheck.sound added m₀ hcall
      simp only [hcall] at hm
      split_ifs at hm with hvars
      · rw [List.mem_singleton.1 hm]
        exact hm₀
      · rcases List.mem_cons.1 hm with rfl | hm
        · exact hm₀
        · obtain ⟨hC, hclauses⟩ := ih hm
          exact ⟨hC, fun c hc => hclauses c (List.mem_append_left _ hc)⟩

/-- **The models of a run agree with each other.** -/
theorem pairwise_agree (hcheck : Decides C check) (added : List (List (String × D))) :
    (enumerate check vars onEmpty iters added).1.Pairwise fun m m' =>
      ∃ v ∈ reported vars, m' v = m v := by
  induction iters generalizing added with
  | zero => exact .nil
  | succ n ih =>
    rw [enumerate]
    cases hcall : check added with
    | none => exact .nil
    | some m =>
      split_ifs with hvars
      · exact List.pairwise_singleton _ _
      · refine .cons (fun m' hm' => clause_disequalities.1 ?_) (ih _)
        exact (sound_of_mem_enumerate hcheck hm').2 _ (List.mem_append_right _ List.mem_cons_self)

/-! ## A solver that repeats itself -/

/-- **There is a solver that gives a model as long as it may.** -/
theorem exists_stubborn {m₀ : Assignment D} (hm₀ : C m₀) : ∃ check, Decides C check ∧
    ∀ added, (∀ c ∈ added, Clause c m₀) → check added = some m₀ := by
  classical
  refine ⟨fun added => if ∀ c ∈ added, Clause c m₀ then some m₀
    else if h : ∃ m, C m ∧ ∀ c ∈ added, Clause c m then some h.choose else none, ⟨?_, ?_⟩, ?_⟩
  · intro added m hm
    split_ifs at hm with hadded hsat
    · cases hm
      exact ⟨hm₀, hadded⟩
    · cases hm
      exact hsat.choose_spec
  · intro added hnone m hm
    split_ifs at hnone with hadded hsat
    exact hsat ⟨m, hm⟩
  · exact fun added hadded => if_pos hadded

/-- The clauses of a model do not exclude the model. -/
theorem enumerate_stubborn (hvars : reported vars ≠ []) {m₀ : Assignment D}
    (hcheck : ∀ added, (∀ c ∈ added, Clause c m₀) → check added = some m₀)
    {added : List (List (String × D))} (hadded : ∀ c ∈ added, Clause c m₀) :
    enumerate check vars onEmpty iters added = (List.replicate iters m₀, none) := by
  have hne : vars ≠ [] := by
    rintro rfl
    exact hvars rfl
  induction iters generalizing added with
  | zero => rfl
  | succ n ih =>
    have hnext : ∀ c ∈ added ++ [disequalities vars m₀], Clause c m₀ := by
      intro c hc
      rcases List.mem_append.1 hc with hc | hc
      · exact hadded c hc
      · obtain ⟨v, hv⟩ := List.exists_mem_of_ne_nil _ hvars
        rw [List.mem_singleton.1 hc]
        exact clause_disequalities.2 ⟨v, hv, rfl⟩
    simp only [enumerate, hcheck added hadded, if_neg hne, ih hnext, List.replicate_succ]

/-! ## When the models are different -/

theorem Decides.exists_first (hcheck : Decides C check) (hC : ∃ m, C m) :
    ∃ m, check [] = some m := by
  obtain ⟨m, hm⟩ := hC
  cases hcall : check [] with
  | none => exact absurd ⟨hm, by simp⟩ (hcheck.complete [] hcall m)
  | some m => exact ⟨m, rfl⟩

/-- Without variables to report there are no two different models. -/
theorem not_enough_of_nil (hvars : reported vars = []) (h : 2 ≤ iters) : ¬ Enough C vars iters := by
  rintro ⟨models, hlen, -, hpairwise⟩
  match models, hlen, hpairwise with
  | m :: m' :: models, _, hpairwise =>
    obtain ⟨v, hv, -⟩ := List.rel_of_pairwise_cons hpairwise List.mem_cons_self
    rw [hvars] at hv
    exact List.not_mem_nil hv
  | [m], hlen, _ => exact absurd hlen (by simp; omega)
  | [], hlen, _ => exact absurd hlen (by simp; omega)

/-- A model without variables ends the loop. -/
theorem enumerates_nil_iff (hC : ∃ m, C m) :
    Enumerates C [] onEmpty iters ↔ (onEmpty = .notEnough → iters ≠ 1) := by
  have hone : Enough C [] 1 := by
    obtain ⟨m, hm⟩ := hC
    exact ⟨[m], rfl, by simpa using hm, List.pairwise_singleton _ _⟩
  cases iters with
  | zero => exact iff_of_true (fun check _ => ⟨.nil, nofun⟩) nofun
  | succ n =>
    have hrun : ∀ check, Decides C check → ∃ m,
        enumerate check [] onEmpty (n + 1) [] = ([m], some onEmpty) := by
      intro check hcheck
      obtain ⟨m, hm⟩ := hcheck.exists_first hC
      exact ⟨m, by simp only [enumerate, hm, if_true]⟩
    constructor
    · rintro h rfl hn
      obtain ⟨m, hm⟩ := hC
      obtain ⟨check, hcheck, -⟩ := exists_stubborn hm
      obtain ⟨m', hm'⟩ := hrun check hcheck
      refine (h check hcheck).2 (by rw [hm']) ?_
      rwa [hn]
    · intro h check hcheck
      obtain ⟨m, hm⟩ := hrun check hcheck
      rw [hm]
      refine ⟨List.pairwise_singleton _ _, fun hfail => not_enough_of_nil rfl ?_⟩
      have := h (Option.some.inj hfail)
      omega

/-- With variables, the loop is right for one iteration and where there is nothing to report. -/
theorem enumerates_cons_iff (hC : ∃ m, C m) (hvars : vars ≠ []) :
    Enumerates C vars onEmpty iters ↔ iters ≤ 1 ∨ reported vars = [] := by
  constructor
  · intro h
    by_contra hnot
    obtain ⟨hiters, hreported⟩ := not_or.1 hnot
    obtain ⟨m, hm⟩ := hC
    obtain ⟨check, hcheck, hstubborn⟩ := exists_stubborn hm
    have hpairwise := (h check hcheck).1
    rw [enumerate_stubborn hreported hstubborn (by simp)] at hpairwise
    obtain ⟨n, rfl⟩ : ∃ n, iters = n + 2 := ⟨iters - 2, by omega⟩
    obtain ⟨v, -, hne⟩ := List.rel_of_pairwise_cons hpairwise List.mem_cons_self
    exact hne rfl
  · intro h check hcheck
    match iters with
    | 0 => exact ⟨.nil, nofun⟩
    | n + 1 =>
      obtain ⟨m, hm⟩ := hcheck.exists_first hC
      simp only [enumerate, hm, if_neg hvars, List.nil_append]
      match n with
      | 0 => exact ⟨List.pairwise_singleton _ _, nofun⟩
      | n + 1 =>
        -- The clause without disequalities is false.
        have hnil : reported vars = [] := h.resolve_left (by omega)
        have hnone : check [disequalities vars m] = none := by
          cases hcall : check [disequalities vars m] with
          | none => rfl
          | some m' =>
            have hclause := (hcheck.sound _ m' hcall).2 _ List.mem_cons_self
            obtain ⟨v, hv, -⟩ := clause_disequalities.1 hclause
            rw [hnil] at hv
            exact absurd hv List.not_mem_nil
        simp only [enumerate, hnone]
        exact ⟨List.pairwise_singleton _ _, fun _ => not_enough_of_nil hnil (by omega)⟩

/-- **The loop of `run_z3.py` enumerates different models only in one iteration, or where there is
nothing to report.** That of `run_z3_save.py` also fails on its first model when this has no
variables. -/
theorem solutions_iff (C : Assignment D → Prop) (hC : ∃ m, C m) (vars : List String) (iters : ℕ) :
    (Enumerates C vars .noConstraints iters ↔ iters ≤ 1 ∨ reported vars = []) ∧
    (Enumerates C vars .notEnough iters ↔
      if vars = [] then iters ≠ 1 else iters ≤ 1 ∨ reported vars = []) := by
  by_cases hvars : vars = []
  · subst hvars
    rw [enumerates_nil_iff hC, enumerates_nil_iff hC, if_pos rfl]
    exact ⟨iff_of_true nofun (.inr rfl), by simp⟩
  · rw [enumerates_cons_iff hC hvars, enumerates_cons_iff hC hvars, if_neg hvars]
    exact ⟨Iff.rfl, Iff.rfl⟩

/-! ## What the scripts print -/

theorem enumerate_ne_printed (hempty : ∀ out, onEmpty ≠ .printed out)
    (added : List (List (String × D))) (out : String) :
    (enumerate check vars onEmpty iters added).2 ≠ some (.printed out) := by
  induction iters generalizing added with
  | zero => simp [enumerate]
  | succ n ih =>
    rw [enumerate]
    cases check added with
    | none => simp
    | some m =>
      dsimp only
      split_ifs
      · simpa using hempty out
      · exact ih _

/-- A script prints any model of the constraints, and nothing else. -/
theorem script_printed_iff (hempty : ∀ out, onEmpty ≠ .printed out) (hvars : reported vars ≠ [])
    (hiters : 0 < iters) (print : D → String) (out : String) :
    (∃ check, Decides C check ∧ script check vars onEmpty print iters = .printed out) ↔
      ∃ m, C m ∧ out = render vars print m := by
  constructor
  · rintro ⟨check, hcheck, h⟩
    rw [script] at h
    split at h
    · rename_i hend
      exact absurd ((congrArg Prod.snd hend).trans (congrArg some h)) 
        (enumerate_ne_printed hempty [] out)
    · rename_i models hrun
      cases hlast : models.getLast? with
      | none => simp [hlast] at h
      | some m =>
        have hm : m ∈ (enumerate check vars onEmpty iters []).1 :=
          hrun ▸ List.mem_of_getLast? hlast
        simp only [hlast, Outcome.printed.injEq] at h
        exact ⟨m, (sound_of_mem_enumerate hcheck hm).1, h.symm⟩
  · rintro ⟨m, hm, rfl⟩
    obtain ⟨check, hcheck, hstubborn⟩ := exists_stubborn hm
    refine ⟨check, hcheck, ?_⟩
    rw [script, enumerate_stubborn hvars hstubborn (by simp)]
    simp [List.getLast?_replicate, hiters.ne']

/-- **The iterations make no difference to what the scripts can print.** -/
theorem printed_iff (C : Assignment D → Prop) (hvars : reported vars ≠ []) (hiters : 0 < iters)
    (print : D → String) (out : String) :
    ((∃ check, Decides C check ∧ solve check vars print iters = .printed out) ↔
      ∃ m, C m ∧ out = render vars print m) ∧
    ((∃ check, Decides C check ∧ solveSave check vars print iters = .printed out) ↔
      ∃ m, C m ∧ out = render vars print m) :=
  ⟨script_printed_iff (by simp) hvars hiters print out,
    script_printed_iff (by simp) hvars hiters print out⟩

/-- One model of a constraint on a variable. -/
theorem solutions_once : (∃ m : Assignment ℕ, m "left" < 10) ∧
    Enumerates (fun m : Assignment ℕ => m "left" < 10) ["left"] .noConstraints 1 := by
  have hC : ∃ m : Assignment ℕ, m "left" < 10 := ⟨fun _ => 0, by decide⟩
  exact ⟨hC, (solutions_iff _ hC ["left"] 1).1.2 (.inl le_rfl)⟩

/-- **The same model three times**, from a sound and complete solver on constraints with ten
models. -/
theorem solutions_repeated : ∃ check,
    Decides (fun m : Assignment ℕ => m "left" < 10) check ∧
    enumerate check ["left"] .noConstraints 3 [] = ([fun _ => 7, fun _ => 7, fun _ => 7], none) ∧
    Enough (fun m : Assignment ℕ => m "left" < 10) ["left"] 3 ∧
    ¬ Enumerates (fun m : Assignment ℕ => m "left" < 10) ["left"] .noConstraints 3 := by
  obtain ⟨check, hcheck, hstubborn⟩ :=
    @exists_stubborn ℕ (fun m => m "left" < 10) (fun _ => 7) (by decide)
  have hrun : enumerate check ["left"] .noConstraints 3 [] =
      ([fun _ => 7, fun _ => 7, fun _ => 7], none) :=
    enumerate_stubborn (by decide) hstubborn (by simp)
  refine ⟨check, hcheck, hrun, ⟨[fun _ => 0, fun _ => 1, fun _ => 2], rfl, by simp, ?_⟩,
    fun h => ?_⟩
  · simp [Differ, reported, administrative]
  · have hpairwise := (h check hcheck).1
    rw [hrun] at hpairwise
    obtain ⟨v, -, hne⟩ := List.rel_of_pairwise_cons hpairwise List.mem_cons_self
    exact hne rfl

end Z3

end Anonymizer

end HEDB
