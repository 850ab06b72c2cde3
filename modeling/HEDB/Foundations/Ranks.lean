import Mathlib.Tactic

/-!
# Ranks in sorted lists

The rank of an element of a strictly sorted list is its position. Ranks in one list compare as the
elements do (`rank_lt_iff`, `rank_eq_iff`).

Ranks in two lists may belong to different elements. They never do exactly when one of the lists is
the beginning of the other (`ranksAgree_iff`), and then the ranks of both are ranks in the longer
one (`exists_common_ranking`).
-/

namespace HEDB

section Ranks

variable {α : Type*} {l m : List α} {i j : ℕ} {x y : α}

/-! ## One list -/

section Sorted

variable {R : α → α → Prop}

theorem rel_of_rank_lt (hl : l.Pairwise R) (hx : l[i]? = some x) (hy : l[j]? = some y) (h : i < j) :
    R x y := by
  obtain ⟨hi, rfl⟩ := List.getElem?_eq_some_iff.1 hx
  obtain ⟨hj, rfl⟩ := List.getElem?_eq_some_iff.1 hy
  exact List.pairwise_iff_getElem.1 hl i j hi hj h

/-- **Ranks compare as the elements do.** -/
theorem rank_lt_iff [Std.Asymm R] (hl : l.Pairwise R) (hx : l[i]? = some x) (hy : l[j]? = some y) :
    i < j ↔ R x y := by
  refine ⟨rel_of_rank_lt hl hx hy, fun h => ?_⟩
  rcases lt_trichotomy i j with hij | rfl | hij
  · exact hij
  · obtain rfl : x = y := Option.some.inj (hx.symm.trans hy)
    exact absurd h (Std.Asymm.asymm _ _ h)
  · exact absurd h (Std.Asymm.asymm _ _ (rel_of_rank_lt hl hy hx hij))

theorem rank_eq_iff [Std.Asymm R] (hl : l.Pairwise R) (hx : l[i]? = some x) (hy : l[j]? = some y) :
    i = j ↔ x = y := by
  refine ⟨fun h => Option.some.inj (hx.symm.trans (h ▸ hy)), fun h => ?_⟩
  subst h
  have hirr : ¬ R x x := fun h => Std.Asymm.asymm _ _ h h
  have h₁ := mt (rank_lt_iff hl hx hy).1 hirr
  have h₂ := mt (rank_lt_iff hl hy hx).1 hirr
  omega

end Sorted

/-! ## Two lists -/

/-- Equal ranks in the two lists belong to equal elements. -/
def RanksAgree (l m : List α) : Prop := ∀ (i : ℕ) (x y : α), l[i]? = some x → m[i]? = some y → x = y

theorem RanksAgree.symm (h : RanksAgree l m) : RanksAgree m l :=
  fun i x y hx hy => (h i y x hy hx).symm

theorem getElem?_of_isPrefix (h : l <+: m) (hx : l[i]? = some x) : m[i]? = some x := by
  obtain ⟨hi, rfl⟩ := List.getElem?_eq_some_iff.1 hx
  exact List.prefix_iff_getElem?.1 h i hi

theorem ranksAgree_of_isPrefix (h : l <+: m) : RanksAgree l m :=
  fun _ _ _ hx hy => Option.some.inj ((getElem?_of_isPrefix h hx).symm.trans hy)

theorem isPrefix_of_ranksAgree (h : RanksAgree l m) (hle : l.length ≤ m.length) : l <+: m := by
  rw [List.prefix_iff_getElem?]
  intro i hi
  have hm : m[i]? = some m[i] := List.getElem?_eq_getElem (by omega)
  rw [hm, h i _ _ (List.getElem?_eq_getElem hi) hm]

/-- **Two lists rank their elements alike exactly when one is the beginning of the other.** -/
theorem ranksAgree_iff : RanksAgree l m ↔ l <+: m ∨ m <+: l := by
  constructor
  · intro h
    rcases le_total l.length m.length with hle | hle
    · exact .inl (isPrefix_of_ranksAgree h hle)
    · exact .inr (isPrefix_of_ranksAgree h.symm hle)
  · intro h
    rcases h with h | h
    · exact ranksAgree_of_isPrefix h
    · exact (ranksAgree_of_isPrefix h).symm

/-- Lists that rank their elements alike are parts of one sorted list. -/
theorem exists_common_ranking {R : α → α → Prop} (h : RanksAgree l m) (hl : l.Pairwise R)
    (hm : m.Pairwise R) :
    ∃ n : List α, n.Pairwise R ∧ (∀ (i : ℕ) (x : α), l[i]? = some x → n[i]? = some x) ∧
      ∀ (i : ℕ) (x : α), m[i]? = some x → n[i]? = some x := by
  rcases ranksAgree_iff.1 h with h | h
  · exact ⟨m, hm, fun _ _ => getElem?_of_isPrefix h, fun _ _ => id⟩
  · exact ⟨l, hl, fun _ _ => id, fun _ _ => getElem?_of_isPrefix h⟩

end Ranks

end HEDB
