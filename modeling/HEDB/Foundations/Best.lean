import Mathlib.Data.List.ReduceOption
import Mathlib.Data.List.Forall2
import Mathlib.Order.Basic

/-!
# Best elements of lists

`Best key l` holds of an element of `l` with the greatest key. When a list is cut into parts, the
best of the best elements of the parts is a best element of the whole (`best_flatten`), and the
order of the list does not change its key (`Best.map_key_eq`).
-/

namespace HEDB

variable {α V : Type} [PartialOrder V] {key : α → V}

/-- An element of the list with the greatest key, none if the list is empty. -/
def Best (key : α → V) (l : List α) : Option α → Prop
  | none => l = []
  | some a => a ∈ l ∧ ∀ b ∈ l, key b ≤ key a

/-! ## Parts of a list -/

section Parts

variable {parts : List (List α)} {states : List (Option α)}

theorem mem_flatten_of_best (h : List.Forall₂ (Best key) parts states) {a : α}
    (ha : a ∈ states.reduceOption) : a ∈ parts.flatten := by
  induction h with
  | nil => exact absurd ha List.not_mem_nil
  | @cons part state parts states hbest _ ih =>
    rw [List.flatten_cons, List.mem_append]
    cases state with
    | none => exact .inr (ih ha)
    | some b =>
      rw [List.reduceOption_cons_of_some, List.mem_cons] at ha
      rcases ha with rfl | ha
      · exact .inl hbest.1
      · exact .inr (ih ha)

theorem exists_best_of_mem_flatten (h : List.Forall₂ (Best key) parts states) {b : α}
    (hb : b ∈ parts.flatten) : ∃ a ∈ states.reduceOption, key b ≤ key a := by
  induction h with
  | nil => exact absurd hb List.not_mem_nil
  | @cons part state parts states hbest _ ih =>
    rw [List.flatten_cons, List.mem_append] at hb
    cases state with
    | none =>
      rw [show part = [] from hbest] at hb
      exact ih (hb.resolve_left List.not_mem_nil)
    | some a =>
      rw [List.reduceOption_cons_of_some]
      rcases hb with hb | hb
      · exact ⟨a, List.mem_cons_self, hbest.2 b hb⟩
      · obtain ⟨a', ha', hle⟩ := ih hb
        exact ⟨a', List.mem_cons_of_mem _ ha', hle⟩

/-- **The best of the best of each part is the best of all.** -/
theorem best_flatten (h : List.Forall₂ (Best key) parts states) {best : Option α}
    (hbest : Best key states.reduceOption best) : Best key parts.flatten best := by
  cases best with
  | none =>
    refine List.eq_nil_iff_forall_not_mem.2 fun b hb => ?_
    obtain ⟨a, ha, -⟩ := exists_best_of_mem_flatten h hb
    rw [show states.reduceOption = [] from hbest] at ha
    exact List.not_mem_nil ha
  | some a =>
    refine ⟨mem_flatten_of_best h hbest.1, fun b hb => ?_⟩
    obtain ⟨a', ha', hle⟩ := exists_best_of_mem_flatten h hb
    exact hle.trans (hbest.2 a' ha')

end Parts

/-- The order of a list does not matter. -/
theorem Best.perm {l l' : List α} {best : Option α} (h : Best key l best) (hperm : l.Perm l') :
    Best key l' best := by
  cases best with
  | none =>
    rw [show l = [] from h] at hperm
    exact hperm.nil_eq.symm
  | some a => exact ⟨hperm.mem_iff.1 h.1, fun b hb => h.2 b (hperm.mem_iff.2 hb)⟩

/-- Best elements of permuted lists have the same key. -/
theorem Best.map_key_eq {l l' : List α} {best best' : Option α} (h : Best key l best)
    (h' : Best key l' best') (hperm : l.Perm l') : best.map key = best'.map key := by
  cases best with
  | none =>
    rw [show l = [] from h] at hperm
    cases best' with
    | none => rfl
    | some a' => exact absurd (hperm.mem_iff.2 h'.1) List.not_mem_nil
  | some a =>
    cases best' with
    | none =>
      rw [show l' = [] from h'] at hperm
      exact absurd (hperm.mem_iff.1 h.1) List.not_mem_nil
    | some a' =>
      exact congrArg some (le_antisymm (h'.2 a (hperm.mem_iff.1 h.1))
        (h.2 a' (hperm.mem_iff.2 h'.1)))

end HEDB
