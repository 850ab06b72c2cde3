import HEDB.Foundations.Best
import HEDB.Udf.Aggregates

/-!
# Aggregates that keep one of two values

`min` and `max` are aggregates with a strict transition function and no initial state, and the
transition function also combines the states of parallel workers. When it returns the value with the
greater key, the aggregate of any plan returns a best value of the column
(`Picks.aggregateParallel`).
-/

namespace HEDB

namespace Udf

/-! ## Aggregates -/

/-- An aggregate with a strict `SFUNC` and no `INITCOND`: the first value is the state. -/
def aggregate {α : Type} (sfunc : α → α → Sends α) : List α → Sends (Option α)
  | [] => return none
  | value :: values => do
    let state ← values.foldlM sfunc value
    return some state

/-- A parallel aggregate, whose `COMBINEFUNC` is its `SFUNC`: each worker aggregates a part, and the
states of the workers that had values are combined. -/
def aggregateParallel {α : Type} (sfunc : α → α → Sends α) (parts : List (List α)) :
    Sends (Option α) := do
  let states ← parts.mapM (aggregate sfunc)
  aggregate sfunc states.reduceOption

/-! ## Results -/

/-- The code returns the value, whatever the state of the privacy zone. -/
def Returns {α : Type} (m : Sends α) (v : α) : Prop := ∀ c, ∃ c', m c = some (.ok v, c')

section Returns

variable {α β : Type} {m : Sends α} {f : α → Sends β} {v v' : α} {w : β}

theorem Returns.eq (h : Returns m v) (h' : Returns m v') : v = v' := by
  obtain ⟨c, hc⟩ := h ⟨OpsProcess.zero, []⟩
  obtain ⟨c', hc'⟩ := h' ⟨OpsProcess.zero, []⟩
  rw [hc] at hc'
  simpa using congrArg (Option.map Prod.fst) hc'

theorem returns_pure (v : α) : Returns (pure v : Sends α) v := fun c => ⟨c, rfl⟩

theorem Returns.bind (h : Returns m v) (hf : Returns (f v) w) : Returns (m >>= f) w := by
  intro c
  obtain ⟨c₁, h₁⟩ := h c
  rw [run_bind h₁]
  exact hf c₁

end Returns

/-! ## Aggregates that keep one of two values -/

section Picks

variable {α V : Type} [PartialOrder V] {key : α → V} {P : α → Prop} {sfunc : α → α → Sends α}

/-- On the values of a column, the function returns the one with the greater key. -/
def Picks (P : α → Prop) (key : α → V) (sfunc : α → α → Sends α) : Prop :=
  ∀ a b, P a → P b → ∃ r, Returns (sfunc a b) r ∧ (r = a ∨ r = b) ∧ key a ≤ key r ∧ key b ≤ key r

theorem Picks.foldlM (h : Picks P key sfunc) {values : List α} {state : α} (hstate : P state)
    (hvalues : ∀ b ∈ values, P b) :
    ∃ r, Returns (values.foldlM sfunc state) r ∧ Best key (state :: values) (some r) := by
  induction values generalizing state with
  | nil => exact ⟨state, returns_pure state, by simp [Best]⟩
  | cons value values ih =>
    obtain ⟨s, hs, hmem, hle, hle'⟩ := h state value hstate (hvalues value List.mem_cons_self)
    have hP : P s := hmem.elim (· ▸ hstate) (· ▸ hvalues value List.mem_cons_self)
    obtain ⟨r, hr, hin, habove⟩ := ih hP fun b hb => hvalues b (List.mem_cons_of_mem _ hb)
    have hsr := habove s List.mem_cons_self
    refine ⟨r, hs.bind hr, ?_, fun b hb => ?_⟩
    · rcases List.mem_cons.1 hin with rfl | hin
      · rcases hmem with rfl | rfl <;> simp
      · simp [hin]
    · rcases List.mem_cons.1 hb with rfl | hb
      · exact hle.trans hsr
      rcases List.mem_cons.1 hb with rfl | hb
      · exact hle'.trans hsr
      · exact habove b (List.mem_cons_of_mem _ hb)

theorem Picks.aggregate (h : Picks P key sfunc) {values : List α} (hvalues : ∀ b ∈ values, P b) :
    ∃ r, Returns (aggregate sfunc values) r ∧ Best key values r := by
  cases values with
  | nil => exact ⟨none, returns_pure none, rfl⟩
  | cons value values =>
    obtain ⟨r, hr, hbest⟩ := h.foldlM (hvalues value List.mem_cons_self) fun b hb =>
      hvalues b (List.mem_cons_of_mem _ hb)
    exact ⟨some r, hr.bind (returns_pure _), hbest⟩

theorem Picks.mapM_aggregate (h : Picks P key sfunc) {parts : List (List α)}
    (hparts : ∀ b ∈ parts.flatten, P b) :
    ∃ states, Returns (parts.mapM (Udf.aggregate sfunc)) states ∧
      List.Forall₂ (Best key) parts states := by
  induction parts with
  | nil => exact ⟨[], returns_pure [], .nil⟩
  | cons part parts ih =>
    have hpart : ∀ b ∈ part, P b := fun b hb => hparts b (List.mem_append_left _ hb)
    obtain ⟨state, hstate, hbest⟩ := h.aggregate hpart
    obtain ⟨states, hstates, hforall⟩ := ih fun b hb => hparts b (List.mem_append_right _ hb)
    refine ⟨state :: states, ?_, .cons hbest hforall⟩
    rw [List.mapM_cons]
    exact hstate.bind (hstates.bind (returns_pure _))

/-- **A parallel aggregate returns the best value of the column.** -/
theorem Picks.aggregateParallel (h : Picks P key sfunc) {parts : List (List α)}
    (hparts : ∀ b ∈ parts.flatten, P b) :
    ∃ r, Returns (aggregateParallel sfunc parts) r ∧ Best key parts.flatten r := by
  obtain ⟨states, hstates, hforall⟩ := h.mapM_aggregate hparts
  obtain ⟨r, hr, hbest⟩ := h.aggregate fun b hb => hparts b (mem_flatten_of_best hforall hb)
  exact ⟨r, hstates.bind hr, best_flatten hforall hbest⟩

end Picks

end Udf

end HEDB
