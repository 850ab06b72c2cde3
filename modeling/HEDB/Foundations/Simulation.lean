import Mathlib.Data.List.Forall2
import Mathlib.Tactic

/-!
# Code that simulates a partial function

Code with a state and errors may also go wrong, and then it has no outcome at all. It simulates a
partial function when it goes wrong exactly where the function is undefined and otherwise returns,
from every state and without an error, a value that is related to that of the function
(`Simulates`). The rules follow the constructs of the code.
-/

namespace HEDB

variable {ε σ α α' β β' γ : Type}

/-- The outcome of code, for a value of the function. -/
def Simulated (R : α → β → Prop) (out : Option (Except ε α × σ)) : Option β → Prop
  | none => out = none
  | some b => ∃ a s, out = some (.ok a, s) ∧ R a b

/-- The code goes wrong where the function is undefined, and returns a related value where it is
defined. -/
def Simulates (R : α → β → Prop) (m : ExceptT ε (StateT σ Option) α) (x : Option β) : Prop :=
  ∀ s, Simulated R (m s) x

/-- A value that may be missing. -/
def orWrong : Option α → ExceptT ε (StateT σ Option) α
  | none => ExceptT.mk fun _ => none
  | some a => pure a

section Rules

variable {R : α → β → Prop} {S : α' → β' → Prop} {m : ExceptT ε (StateT σ Option) α}
  {x : Option β}

theorem simulates_pure {a : α} {b : β} (h : R a b) :
    Simulates R (pure a : ExceptT ε (StateT σ Option) α) (some b) :=
  fun s => ⟨a, s, rfl, h⟩

theorem Simulates.bind {f : α → ExceptT ε (StateT σ Option) α'} {k : β → Option β'}
    (hm : Simulates R m x) (hf : ∀ a b, R a b → Simulates S (f a) (k b)) :
    Simulates S (m >>= f) (x.bind k) := by
  intro s
  have hs := hm s
  cases x with
  | none =>
    show (m s).bind _ = none
    rw [show m s = none from hs]
    rfl
  | some b =>
    obtain ⟨a, s', hrun, hab⟩ := hs
    have hbind : (m >>= f) s = f a s' := by
      show (m s).bind _ = _
      rw [hrun]
      rfl
    rw [hbind]
    exact hf a b hab s'

theorem simulates_orWrong {x : Option α} {y : Option β} (h : Option.Rel R x y) :
    Simulates R (orWrong x : ExceptT ε (StateT σ Option) α) y := by
  cases h with
  | none => exact fun _ => rfl
  | some hab => exact simulates_pure hab

theorem simulates_map {f : γ → β} {x : Option γ} :
    Simulates R m (x.map f) ↔ Simulates (fun a c => R a (f c)) m x := by
  cases x <;> rfl

/-- Code that simulates related functions goes wrong together, or returns values of related
results. -/
theorem Simulates.agree {m' : ExceptT ε (StateT σ Option) α'} {x' : Option β'}
    {T : β → β' → Prop} (hm : Simulates R m x) (hm' : Simulates S m' x')
    (h : Option.Rel T x x') (s s' : σ) :
    (x' = none → m s = none ∧ m' s' = none) ∧
    ∀ b', x' = some b' → ∃ a t a' t' b, m s = some (.ok a, t) ∧ m' s' = some (.ok a', t') ∧
      R a b ∧ S a' b' ∧ T b b' := by
  have hs := hm s
  have hs' := hm' s'
  cases h with
  | none => exact ⟨fun _ => ⟨hs, hs'⟩, by rintro _ ⟨⟩⟩
  | some hbb =>
    refine ⟨by rintro ⟨⟩, ?_⟩
    rintro _ ⟨rfl⟩
    obtain ⟨a, t, hrun, hab⟩ := hs
    obtain ⟨a', t', hrun', hab'⟩ := hs'
    exact ⟨a, t, a', t', _, hrun, hrun', hab, hab', hbb⟩

end Rules

/-! ## Related partial functions -/

theorem rel_bind {R : α → β → Prop} {S : α' → β' → Prop} {x : Option α} {y : Option β}
    {f : α → Option α'} {k : β → Option β'} (h : Option.Rel R x y)
    (hf : ∀ a b, R a b → Option.Rel S (f a) (k b)) : Option.Rel S (x.bind f) (y.bind k) := by
  cases h with
  | none => exact .none
  | some hab => exact hf _ _ hab

theorem rel_refl {R : α → α → Prop} (hR : ∀ a, R a a) (x : Option α) : Option.Rel R x x := by
  cases x with
  | none => exact .none
  | some a => exact .some (hR a)

/-! ## Lists -/

section Lists

variable {R : α → β → Prop} {xs : List α} {ys : List β}

theorem rel_getElem? (h : List.Forall₂ R xs ys) (i : ℕ) : Option.Rel R xs[i]? ys[i]? := by
  induction h generalizing i with
  | nil => exact .none
  | cons hxy _ ih =>
    cases i with
    | zero => exact .some hxy
    | succ i => exact ih i

theorem rel_mapM_getElem? (h : List.Forall₂ R xs ys) (is : List ℕ) :
    Option.Rel (List.Forall₂ R) (is.mapM fun i => xs[i]?) (is.mapM fun i => ys[i]?) := by
  induction is with
  | nil => exact .some .nil
  | cons i is ih =>
    rw [List.mapM_cons, List.mapM_cons]
    have hi := rel_getElem? h i
    revert hi ih
    generalize xs[i]? = x, ys[i]? = y, (is.mapM fun i => xs[i]?) = x',
      (is.mapM fun i => ys[i]?) = y'
    rintro (hrest | _) (hxy | _)
    · exact .some (.cons hxy hrest)
    all_goals exact .none

theorem exists_of_mem_right (h : List.Forall₂ R xs ys) {y : β} (hy : y ∈ ys) :
    ∃ x ∈ xs, R x y := by
  induction h with
  | nil => exact absurd hy List.not_mem_nil
  | cons hxy _ ih =>
    rcases List.mem_cons.1 hy with rfl | hy
    · exact ⟨_, List.mem_cons_self, hxy⟩
    · obtain ⟨x, hx, hxy⟩ := ih hy
      exact ⟨x, List.mem_cons_of_mem _ hx, hxy⟩

theorem forall₂_replicate {a : α} {b : β} (h : R a b) (k : ℕ) :
    List.Forall₂ R (List.replicate k a) (List.replicate k b) := by
  induction k with
  | zero => exact .nil
  | succ k ih => exact .cons h ih

theorem lookup_zip [BEq α] [LawfulBEq α] {k : ℕ} {a : α} {b : β}
    (hxs : xs.Nodup) (hx : xs[k]? = some a) (hy : ys[k]? = some b) :
    (xs.zip ys).lookup a = some b := by
  induction k generalizing xs ys with
  | zero =>
    cases xs with
    | nil => cases hx
    | cons x xs =>
      cases ys with
      | nil => cases hy
      | cons y ys =>
        cases hx
        cases hy
        simp
  | succ k ih =>
    cases xs with
    | nil => cases hx
    | cons x xs =>
      cases ys with
      | nil => cases hy
      | cons y ys =>
        have hne : a ≠ x := by
          rintro rfl
          exact (List.nodup_cons.1 hxs).1 (List.mem_of_getElem? hx)
        rw [List.zip_cons_cons, List.lookup_cons, beq_false_of_ne hne]
        exact ih (List.nodup_cons.1 hxs).2 hx hy

end Lists

end HEDB
