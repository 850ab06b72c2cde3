import Mathlib.Tactic

/-!
# Reducing a list in windows

A list is reduced by a partial function `sum` that takes no more than `size` items at a time. The
items are collected in a window; a full window is replaced by its sum, which is the first item of
the next one.

When `sum` is a fold whose results are fixed by one more step from its start, the windows do not
matter (`windowedSum_eq_foldlM`). `fresh` collects the items of a list of windows, each one once:
the first item of a later window is the sum of the one before.
-/

namespace HEDB

section Windows

variable {α : Type*} (size : ℕ) (sum : List α → Option α)

/-- One more item for the window. -/
def pushWindow (ws : List α) (x : α) : Option (List α) :=
  if ws.length + 1 = size then (sum (ws ++ [x])).map fun t => [t] else some (ws ++ [x])

/-- The sum of the last window. A window of one item is not summed again. -/
def closeWindow (ws : List α) : Option α := if 1 < ws.length then sum ws else ws.head?

/-- The sum of a list in windows. -/
def windowedSum : List α → Option α
  | [] => none
  | x :: xs => (xs.foldlM (pushWindow size sum) [x]).bind (closeWindow sum)

variable {size sum}

/-- When every window has a sum, so has every list. -/
theorem windowedSum_isSome (hsum : ∀ ws, (sum ws).isSome) {l : List α} (hl : l ≠ []) :
    ∃ t, windowedSum size sum l = some t := by
  have hpush : ∀ xs ws, ws ≠ [] →
      ∃ ws', List.foldlM (pushWindow size sum) ws xs = some ws' ∧ ws' ≠ [] := by
    intro xs
    induction xs with
    | nil => exact fun ws hne => ⟨ws, rfl, hne⟩
    | cons x xs ih =>
      intro ws hne
      obtain ⟨t, ht⟩ := Option.isSome_iff_exists.1 (hsum (ws ++ [x]))
      rw [List.foldlM_cons, pushWindow, ht]
      split_ifs
      · exact ih [t] (by simp)
      · exact ih (ws ++ [x]) (by simp)
  obtain ⟨x, xs, rfl⟩ := List.exists_cons_of_ne_nil hl
  obtain ⟨ws, hws, hne⟩ := hpush xs [x] (by simp)
  rw [windowedSum, hws, Option.bind_some, closeWindow]
  split_ifs
  · exact Option.isSome_iff_exists.1 (hsum ws)
  · exact ⟨ws.head hne, List.head?_eq_some_head hne⟩

/-- What the sums of windows inherit from the items: the items carry weights, and the sum carries
the sum of their weights. -/
theorem windowedSum_of_forall₂ {M : Type*} [AddMonoid M] {R : M → α → Prop}
    (hsum : ∀ ms ws t, ws ≠ [] → List.Forall₂ R ms ws → sum ws = some t → R ms.sum t) {ms : List M}
    {l : List α} (hl : List.Forall₂ R ms l) {t : α} (h : windowedSum size sum l = some t) :
    R ms.sum t := by
  have hpush : ∀ {ns xs}, List.Forall₂ R ns xs → ∀ ks ws ws', ws ≠ [] → List.Forall₂ R ks ws →
      List.foldlM (pushWindow size sum) ws xs = some ws' →
      ws' ≠ [] ∧ ∃ ks', List.Forall₂ R ks' ws' ∧ ks'.sum = ks.sum + ns.sum := by
    intro ns xs hxs
    induction hxs with
    | nil =>
      intro ks ws ws' hne hws h
      cases h
      exact ⟨hne, ks, hws, by simp⟩
    | @cons n x ns xs hx _ ih =>
      intro ks ws ws' hne hws h
      have hws₁ : List.Forall₂ R (ks ++ [n]) (ws ++ [x]) :=
        List.rel_append hws (.cons hx .nil)
      rw [List.foldlM_cons] at h
      obtain ⟨ws₁, h₁, h₂⟩ := Option.bind_eq_some_iff.1 h
      rw [pushWindow] at h₁
      split_ifs at h₁ with hfull
      · obtain ⟨u, hu, rfl⟩ := Option.map_eq_some_iff.1 h₁
        obtain ⟨hne', ks', hks', hadd⟩ :=
          ih [(ks ++ [n]).sum] [u] ws' (by simp) (.cons (hsum _ _ u (by simp) hws₁ hu) .nil) h₂
        exact ⟨hne', ks', hks', by simpa [add_assoc] using hadd⟩
      · cases h₁
        obtain ⟨hne', ks', hks', hadd⟩ := ih _ _ ws' (by simp) hws₁ h₂
        exact ⟨hne', ks', hks', by simpa [add_assoc] using hadd⟩
  cases hl with
  | nil => cases h
  | @cons m x ms xs hx hxs =>
    obtain ⟨ws, hws, hclose⟩ := Option.bind_eq_some_iff.1 h
    obtain ⟨hne, ks, hks, hadd⟩ := hpush hxs [m] [x] ws (by simp) (.cons hx .nil) hws
    have hms : (m :: ms).sum = ks.sum := by simpa using hadd.symm
    rw [closeWindow] at hclose
    rw [hms]
    split_ifs at hclose with hmany
    · exact hsum ks ws t hne hks hclose
    · cases hks with
      | nil => exact absurd rfl hne
      | @cons k w ks ws hw hks =>
        cases hks with
        | nil =>
          cases hclose
          simpa using hw
        | cons => simp at hmany

/-- **The windows do not matter.** -/
theorem windowedSum_eq_foldlM {op : α → α → Option α} {zero : α}
    (hsum : ∀ ws, sum ws = ws.foldlM op zero) (hop : ∀ a b t, op a b = some t → op zero t = some t)
    {x : α} (hx : op zero x = some x) (xs : List α) :
    windowedSum size sum (x :: xs) = (x :: xs).foldlM op zero := by
  -- The items that are still to come are folded from the sum of the window.
  have hfold : ∀ xs ws, ws ≠ [] → (∀ a, ws = [a] → op zero a = some a) →
      (List.foldlM (pushWindow size sum) ws xs).bind (closeWindow sum) =
        (ws ++ xs).foldlM op zero := by
    intro xs
    induction xs with
    | nil =>
      intro ws hne hone
      rw [List.append_nil, List.foldlM_nil]
      change closeWindow sum ws = _
      rw [closeWindow]
      split_ifs with hlt
      · exact hsum ws
      · obtain ⟨a, rfl⟩ : ∃ a, ws = [a] :=
          List.length_eq_one_iff.1 (by have := List.length_pos_of_ne_nil hne; omega)
        simp [hone a rfl]
    | cons x xs ih =>
      intro ws hne hone
      have hsplit : (ws ++ x :: xs).foldlM op zero =
          ((ws ++ [x]).foldlM op zero).bind fun t => xs.foldlM op t := by
        rw [List.append_cons, List.foldlM_append]
        rfl
      rw [List.foldlM_cons, pushWindow, hsplit]
      split_ifs with hfull
      · rw [hsum]
        cases ht : (ws ++ [x]).foldlM op zero with
        | none => rfl
        | some t =>
          have hfix : op zero t = some t := by
            rw [List.foldlM_append] at ht
            obtain ⟨a, -, ha⟩ := Option.bind_eq_some_iff.1 ht
            exact hop a x t (by simpa using ha)
          have hrest := ih [t] (by simp) fun a ha => by
            cases ha
            exact hfix
          simpa [hfix] using hrest
      · have hrest := ih (ws ++ [x]) (by simp) fun a ha => by
          have hlen : ws.length + 1 = 1 := by simpa using congrArg List.length ha
          exact absurd (List.length_eq_zero_iff.1 (by omega)) hne
        rw [List.foldlM_append] at hrest
        exact hrest
  exact hfold xs [x] (by simp) fun a ha => by
    cases ha
    exact hx

/-! ## Full windows -/

/-- The items of the windows, without the sums that were carried over. -/
def fresh : List (List α) → List α
  | [] => []
  | q :: qs => q ++ qs.flatMap List.tail

theorem fresh_snoc {qs : List (List α)} (hne : qs ≠ []) (q : List α) :
    fresh (qs ++ [q]) = fresh qs ++ q.tail := by
  cases qs with
  | nil => exact absurd rfl hne
  | cons q' qs => simp [fresh]

/-- An item that goes into the last window. -/
theorem fresh_push (qs : List (List α)) {q : List α} (hq : q ≠ []) (x : α) :
    fresh (qs ++ [q ++ [x]]) = fresh (qs ++ [q]) ++ [x] := by
  cases qs with
  | nil => simp [fresh]
  | cons q' qs => simp [fresh, List.tail_append_of_ne_nil hq]

end Windows

end HEDB
