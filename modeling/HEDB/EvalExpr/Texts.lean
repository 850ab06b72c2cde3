import HEDB.EvalExpr.Follows

/-!
# Whole texts

The main loop of `convert_expr` comes to the end of a text exactly if all its prefixes fit into the
arrays (`run_of_inside`, `run_of_not_inside`). So the three ways in which `convert_expr` ends can be
told from the text: outside of its arrays, with `exit`, or with a string (`convertExpr_eq_outside`,
`convertExpr_eq_exit`, `convertExpr_eq_ok`).
-/

namespace HEDB

namespace EvalExpr

variable {R : Reading} {s : Conv}

/-! ## Texts -/

/-- The state before the first token. -/
def Conv.start : Conv := ⟨[], [], false⟩

/-- The arrays are large enough for every part of the text that is read. -/
def Inside (ts : List Token) : Prop := ∀ pre R, pre <+: ts → reading pre = some R → R.Fits

/-- The arrays are large enough for what is written at the end: the operators of the last group, and
the copy of the queue with one byte more unless a parenthesis is open. -/
def EndsInside (ts : List Token) : Prop :=
  (∀ pre R, pre ++ [.closing] <+: ts → reading pre = some R → R.outer = [] →
    R.nums + R.signs.length ≤ exprStackMaxSize) ∧
  ∀ R, reading ts = some R →
    if R.outer = [] then R.nums + R.signs.length < exprStackMaxSize
    else R.nums + R.signs.length ≤ exprStackMaxSize + R.outerWaiting.length

/-- Every parenthesis is closed, and none closes nothing. -/
def Balanced (ts : List Token) : Prop := ∃ R, reading ts = some R ∧ R.outer = []

theorem reading_append_singleton (ts : List Token) (t : Token) :
    reading (ts ++ [t]) = (reading ts).bind fun R => R.read t := by
  rw [reading, List.foldlM_append]
  refine Option.bind_congr fun R _ => ?_
  cases hR : R.read t <;> simp [hR]

theorem run_append (ts us : List Token) (s : Conv) : run (ts ++ us) s = run ts s >>= run us :=
  List.foldlM_append

theorem run_singleton (t : Token) (s : Conv) : run [t] s = readToken s t := by
  rw [run, List.foldlM_cons]
  cases readToken s t <;> rfl

theorem Inside.of_prefix {ts us : List Token} (h : Inside us) (hpre : ts <+: us) : Inside ts :=
  fun pre R hp hR => h pre R (hp.trans hpre) hR

theorem inside_append_singleton {ts : List Token} {t : Token} : Inside (ts ++ [t]) ↔
    Inside ts ∧ ∀ R, reading (ts ++ [t]) = some R → R.Fits := by
  constructor
  · intro h
    exact ⟨h.of_prefix (List.prefix_append ..), fun R hR => h _ R List.prefix_rfl hR⟩
  · rintro ⟨hts, hlast⟩ pre R hpre hR
    rcases List.prefix_concat_iff.mp hpre with rfl | hpre
    · exact hlast R hR
    · exact hts pre R hpre hR

theorem fits_start : Reading.start.Fits := by
  refine ⟨?_, by decide, by decide⟩
  rintro t later ⟨⟩

theorem follows_start : Follows .start .start := ⟨rfl, rfl, rfl, le_rfl⟩

/-- **What holds along a run**: the compiler reaches the end of a text that fits, and what holds at
the start and is kept by every token holds at the end. -/
theorem run_induction {p : List Token → Reading → Conv → Prop} (hstart : p [] .start .start)
    (hstep : ∀ ts t R R' s s', reading ts = some R → Follows R s → R'.Fits → R.read t = some R' →
      s'.out = s.out ++ R.emits t → p ts R s → p (ts ++ [t]) R' s')
    {ts : List Token} {R : Reading} (hread : reading ts = some R) (hin : Inside ts) :
    ∃ s, run ts .start = .ok s ∧ Follows R s ∧ p ts R s := by
  induction ts using List.reverseRecOn generalizing R with
  | nil =>
    cases hread
    exact ⟨.start, rfl, follows_start, hstart⟩
  | append_singleton ts t ih =>
    obtain ⟨hts, hlast⟩ := inside_append_singleton.mp hin
    have hfits' := hlast R hread
    rw [reading_append_singleton] at hread
    obtain ⟨R₀, hR₀, hR⟩ := Option.bind_eq_some_iff.mp hread
    obtain ⟨s, hrun, hfollows, hp⟩ := ih hR₀ hts
    have hfits := hts ts R₀ List.prefix_rfl hR₀
    obtain ⟨s', hs', hfollows', hout⟩ := (hfollows.read hfits hR).1 hfits'
    refine ⟨s', ?_, hfollows', hstep ts t R₀ R s s' hR₀ hfollows hfits' hR hout hp⟩
    rw [run_append, hrun]
    exact (run_singleton t s).trans hs'

/-- The compiler reaches the end of a text that fits. -/
theorem run_of_inside {ts : List Token} {R : Reading} (hread : reading ts = some R)
    (hin : Inside ts) : ∃ s, run ts .start = .ok s ∧ Follows R s := by
  obtain ⟨s, hrun, hfollows, -⟩ := run_induction (p := fun _ _ _ => True) trivial
    (fun _ _ _ _ _ _ _ _ _ _ _ _ => trivial) hread hin
  exact ⟨s, hrun, hfollows⟩

theorem run_error_append {ts us : List Token} {e : Stop} (h : run ts .start = .error e) :
    run (ts ++ us) .start = .error e := by
  rw [run_append, h]
  rfl

/-- The compiler leaves its arrays on a text that does not fit. -/
theorem run_of_not_inside {ts : List Token} (hin : ¬ Inside ts) :
    run ts .start = .error .outside := by
  induction ts using List.reverseRecOn with
  | nil =>
    refine absurd (fun pre R hpre hR => ?_) hin
    cases List.prefix_nil.mp hpre
    cases hR
    exact fits_start
  | append_singleton ts t ih =>
    by_cases hts : Inside ts
    · have hlast : ¬ ∀ R, reading (ts ++ [t]) = some R → R.Fits :=
        fun hlast => hin (inside_append_singleton.mpr ⟨hts, hlast⟩)
      simp only [not_forall] at hlast
      obtain ⟨R, hR, hfits⟩ := hlast
      rw [reading_append_singleton] at hR
      obtain ⟨R₀, hR₀, hread⟩ := Option.bind_eq_some_iff.mp hR
      obtain ⟨s, hrun, hfollows⟩ := run_of_inside hR₀ hts
      rw [run_append, hrun]
      exact (run_singleton t s).trans
        ((hfollows.read (hts ts R₀ List.prefix_rfl hR₀) hread).2 hfits)
    · exact run_error_append (ih hts)

/-- A text without a reading has a parenthesis that closes nothing. -/
theorem exists_unmatched {ts : List Token} (h : reading ts = none) :
    ∃ pre R, pre ++ [.closing] <+: ts ∧ reading pre = some R ∧ R.outer = [] := by
  induction ts using List.reverseRecOn with
  | nil => cases h
  | append_singleton ts t ih =>
    cases hts : reading ts with
    | none =>
      obtain ⟨pre, R, hpre, hR, houter⟩ := ih hts
      exact ⟨pre, R, hpre.trans (List.prefix_append ..), hR, houter⟩
    | some R =>
      rw [reading_append_singleton, hts, Option.bind_some] at h
      cases t with
      | closing =>
        refine ⟨ts, R, List.prefix_rfl, hts, ?_⟩
        cases houter : R.outer with
        | nil => rfl
        | cons ops outer =>
          rw [Reading.read, houter] at h
          cases h
      | num | op | opening | other => cases h

/-! ## The end -/

/-- The end of a text in which every parenthesis is closed. -/
theorem Follows.finish (h : Follows R s) (hfits : R.Fits) (houter : R.outer = []) :
    Checked.finish s = if R.nums + R.signs.length < exprStackMaxSize then
        .ok ((s.out ++ codes (waiting R.inner.ops).reverse).takeWhile (· ≠ 0))
      else .error .outside := by
  have hwaiting : R.outerWaiting = [] := by rw [Reading.outerWaiting, houter, List.flatMap_nil]
  have hstack : R.outerStack = [] := by rw [Reading.outerStack, houter, List.flatMap_nil]
  have hlen : (s.out ++ codes (waiting R.inner.ops).reverse).length = R.nums + R.signs.length := by
    have hout := h.length
    rw [Reading.allWaiting, hwaiting, List.append_nil] at hout
    rw [List.length_append, codes, List.length_map, List.length_reverse, hout]
  rw [Checked.finish, h.pops_inner hfits popAll_sign, hwaiting, hstack, List.length_nil,
    Nat.add_zero]
  by_cases hlt : R.nums + R.signs.length < exprStackMaxSize
  · rw [if_pos hlt, if_pos hlt.le]
    show (if _ then _ else _) = _
    rw [if_pos (by rw [hlen]; exact hlt)]
    rfl
  · rw [if_neg hlt]
    split_ifs
    · show (if _ then _ else _) = _
      rw [if_neg (by rw [hlen]; exact hlt)]
    · rfl

/-- The end of a text with an open parenthesis. -/
theorem Follows.finish_open (h : Follows R s) (hfits : R.Fits) (houter : R.outer ≠ []) :
    Checked.finish s =
      .error (if R.nums + R.signs.length ≤ exprStackMaxSize + R.outerWaiting.length then .exit
        else .outside) := by
  obtain ⟨ops, outer, houter⟩ := List.exists_cons_of_ne_nil houter
  rw [Checked.finish, h.pops_inner hfits popAll_sign, Reading.outerStack, houter, List.flatMap_cons]
  split_ifs <;> rfl

variable {cs : List Char}

theorem convertExpr_eq (cs : List Char) :
    Checked.convertExpr cs = run (tokens cs) .start >>= Checked.finish := by
  rw [Checked.convertExpr, ← convertLoop_eq_run]
  rfl

/-- **The compiler leaves its arrays** on a text that does not fit. -/
theorem convertExpr_eq_outside (h : ¬ (Inside (tokens cs) ∧ EndsInside (tokens cs))) :
    Checked.convertExpr cs = .error .outside := by
  rw [convertExpr_eq]
  by_cases hin : Inside (tokens cs)
  swap
  · rw [run_of_not_inside hin]
    rfl
  have hends : ¬ EndsInside (tokens cs) := fun hends => h ⟨hin, hends⟩
  rcases not_and_or.mp hends with hclosing | hlast
  · simp only [not_forall] at hclosing
    obtain ⟨pre, R, hpre, hR, houter, hlong⟩ := hclosing
    have hin' := hin.of_prefix ((List.prefix_append ..).trans hpre)
    obtain ⟨s, hrun, hfollows⟩ := run_of_inside hR hin'
    obtain ⟨rest, hrest⟩ := hpre
    have hstop : run (pre ++ [.closing]) .start = .error .outside := by
      rw [run_append, hrun]
      refine (run_singleton .closing s).trans ?_
      rw [hfollows.read_unmatched (hin' pre R List.prefix_rfl hR) houter, if_neg hlong]
    rw [← hrest, run_error_append hstop]
    rfl
  · simp only [not_forall] at hlast
    obtain ⟨R, hR, hlong⟩ := hlast
    obtain ⟨s, hrun, hfollows⟩ := run_of_inside hR hin
    have hfits := hin _ R List.prefix_rfl hR
    rw [hrun]
    show Checked.finish s = _
    by_cases houter : R.outer = []
    · rw [if_pos houter] at hlong
      rw [hfollows.finish hfits houter, if_neg hlong]
    · rw [if_neg houter] at hlong
      rw [hfollows.finish_open hfits houter, if_neg hlong]

/-- **The compiler calls `exit`** when the parentheses do not match. -/
theorem convertExpr_eq_exit (hin : Inside (tokens cs)) (hends : EndsInside (tokens cs))
    (hbal : ¬ Balanced (tokens cs)) : Checked.convertExpr cs = .error .exit := by
  rw [convertExpr_eq]
  cases hread : reading (tokens cs) with
  | none =>
    obtain ⟨pre, R, hpre, hR, houter⟩ := exists_unmatched hread
    have hin' := hin.of_prefix ((List.prefix_append ..).trans hpre)
    have hroom := hends.1 pre R hpre hR houter
    obtain ⟨s, hrun, hfollows⟩ := run_of_inside hR hin'
    obtain ⟨rest, hrest⟩ := hpre
    have hstop : run (pre ++ [.closing]) .start = .error .exit := by
      rw [run_append, hrun]
      refine (run_singleton .closing s).trans ?_
      rw [hfollows.read_unmatched (hin' pre R List.prefix_rfl hR) houter, if_pos hroom]
    rw [← hrest, run_error_append hstop]
    rfl
  | some R =>
    have houter : R.outer ≠ [] := fun houter => hbal ⟨R, hread, houter⟩
    have hroom := hends.2 R hread
    rw [if_neg houter] at hroom
    obtain ⟨s, hrun, hfollows⟩ := run_of_inside hread hin
    rw [hrun]
    show Checked.finish s = _
    rw [hfollows.finish_open (hin _ R List.prefix_rfl hread) houter, if_pos hroom]

/-- **The compiler comes to a string** when they match. -/
theorem convertExpr_eq_ok (hin : Inside (tokens cs)) (hends : EndsInside (tokens cs))
    (hread : reading (tokens cs) = some R) (houter : R.outer = [])
    (hrun : run (tokens cs) .start = .ok s) (hfollows : Follows R s) : Checked.convertExpr cs =
      .ok ((s.out ++ codes (waiting R.inner.ops).reverse).takeWhile (· ≠ 0)) := by
  have hroom := hends.2 R hread
  rw [if_pos houter] at hroom
  rw [convertExpr_eq, hrun]
  show Checked.finish s = _
  rw [hfollows.finish (hin _ R List.prefix_rfl hread) houter, if_pos hroom]

end EvalExpr

end HEDB
