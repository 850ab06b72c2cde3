import HEDB.Foundations.Bytes

/-!
# The `LIKE` matcher

`MatchText` and `plain_text_like` of `plain_text_ops.c`. A text or a pattern is the list of the
bytes that are left, so `NextByte` is the tail of a list; the pointer and the length of the source
move together.

The language of a pattern is given by `Matches`. The matcher decides it (`matchText_decides`). The
proof follows the code: the wildcard loop keeps the language of `%` and what follows it
(`matches_skipWildcards`), and what the search loop passes over cannot match (`scan_decides`).
-/

namespace HEDB

namespace Like

/-! ## The matcher -/

def percent : UInt8 := 0x25
def underscore : UInt8 := 0x5f
def backslash : UInt8 := 0x5c

def likeTrue : ℤ := 1
def likeFalse : ℤ := 0
def likeAbort : ℤ := 0

/-- The loop after a `%` that skips the wildcards that follow: the text and the pattern that are
left, or nothing when there is not enough text. -/
def skipWildcards : List UInt8 → List UInt8 → Option (List UInt8 × List UInt8)
  | t, [] => some (t, [])
  | t, d :: p =>
    if d = percent then skipWildcards t p
    else if d = underscore then
      match t with
      | [] => none
      | _ :: t => skipWildcards t p
    else some (t, d :: p)

/-- `firstpat`: the byte that the text must have where the pattern matches. There is none when the
pattern ends in an escape. -/
def firstpat : List UInt8 → Option UInt8
  | [] => none
  | d :: p => if d = backslash then p.head? else some d

/-- The search loop: try the pattern at each position of the text that has the byte `first`. -/
def scan (matchAt : List UInt8 → ℤ) (first : UInt8) : List UInt8 → ℤ
  | [] => likeAbort
  | c :: t =>
    if c = first then
      let matched := matchAt (c :: t)
      if matched ≠ likeFalse then matched else scan matchAt first t
    else scan matchAt first t

theorem length_skipWildcards {t p t₁ p₁ : List UInt8} (h : skipWildcards t p = some (t₁, p₁)) :
    p₁.length ≤ p.length := by
  induction p generalizing t with
  | nil =>
    cases h
    exact le_rfl
  | cons d p ih =>
    simp only [skipWildcards] at h
    split_ifs at h with h₁ h₂
    · exact (ih h).trans (Nat.le_succ _)
    · cases t with
      | nil => cases h
      | cons c t => exact (ih h).trans (Nat.le_succ _)
    · cases h
      exact le_rfl

mutual

/-- `MatchText`: the fast path, and the main loop. -/
def matchText (t p : List UInt8) : ℤ :=
  if p = [percent] then likeTrue else matchLoop t p
termination_by (p.length, 1)

/-- The main loop of `MatchText`, and what follows it. -/
def matchLoop : List UInt8 → List UInt8 → ℤ
  | c :: t, d :: p =>
    if d = backslash then
      match p with
      | [] => likeAbort
      | e :: p => if e ≠ c then likeFalse else matchLoop t p
    else if d = percent then
      match h : skipWildcards (c :: t) p with
      | none => likeAbort
      | some (t₁, p₁) =>
        have := length_skipWildcards h
        if p₁ = [] then likeTrue
        else
          match firstpat p₁ with
          | none => likeAbort
          | some first => scan (fun u => matchText u p₁) first t₁
    else if d = underscore then matchLoop t p
    else if d ≠ c then likeFalse
    else matchLoop t p
  | _ :: _, [] => likeFalse
  | [], p => if p.dropWhile (· = percent) = [] then likeTrue else likeAbort
termination_by _ p => (p.length, 0)
decreasing_by
  all_goals exact Prod.Lex.left _ _ (by simp only [List.length_cons]; omega)

end

/-- `plain_text_like`. -/
def plainTextLike (lhs rhs : List UInt8) : ℤ := matchText lhs rhs

/-! ## The language of a pattern -/

/-- The text belongs to the language of the pattern. -/
inductive Matches : List UInt8 → List UInt8 → Prop
  | nil : Matches [] []
  | percent {p t : List UInt8} (u : List UInt8) : Matches p t → Matches (percent :: p) (u ++ t)
  | underscore {p t : List UInt8} (c : UInt8) : Matches p t → Matches (underscore :: p) (c :: t)
  | escape {p t : List UInt8} (c : UInt8) : Matches p t → Matches (backslash :: c :: p) (c :: t)
  | literal {p t : List UInt8} {c : UInt8} : c ≠ Like.percent → c ≠ Like.underscore →
      c ≠ backslash → Matches p t → Matches (c :: p) (c :: t)

section Language

variable {p t : List UInt8} {c d : UInt8}

theorem matches_nil : Matches [] t ↔ t = [] := by
  refine ⟨?_, ?_⟩
  · rintro ⟨⟩
    rfl
  · rintro rfl
    exact .nil

/-- `%` matches any bytes: what follows it matches the rest of the text. -/
theorem matches_percent : Matches (percent :: p) t ↔ ∃ u, u <:+ t ∧ Matches p u := by
  constructor
  · intro h
    cases h with
    | percent u h => exact ⟨_, List.suffix_append .., h⟩
    | literal hc => exact absurd rfl hc
  · rintro ⟨u, ⟨v, rfl⟩, h⟩
    exact .percent v h

theorem matches_underscore : Matches (underscore :: p) t ↔ ∃ c u, t = c :: u ∧ Matches p u := by
  constructor
  · intro h
    cases h with
    | underscore c h => exact ⟨c, _, rfl, h⟩
    | literal _ hc => exact absurd rfl hc
  · rintro ⟨c, u, rfl, h⟩
    exact .underscore c h

theorem matches_escape : Matches (backslash :: c :: p) t ↔ ∃ u, t = c :: u ∧ Matches p u := by
  constructor
  · intro h
    cases h with
    | escape _ h => exact ⟨_, rfl, h⟩
    | literal _ _ hc => exact absurd rfl hc
  · rintro ⟨u, rfl, h⟩
    exact .escape c h

/-- A pattern with a dangling escape matches nothing. -/
theorem not_matches_dangling : ¬ Matches [backslash] t := by
  intro h
  cases h with
  | literal _ _ hc => exact absurd rfl hc

theorem matches_literal (h₁ : c ≠ percent) (h₂ : c ≠ underscore) (h₃ : c ≠ backslash) :
    Matches (c :: p) t ↔ ∃ u, t = c :: u ∧ Matches p u := by
  constructor
  · intro h
    cases h with
    | percent => exact absurd rfl h₁
    | underscore => exact absurd rfl h₂
    | escape => exact absurd rfl h₃
    | literal _ _ _ h => exact ⟨_, rfl, h⟩
  · rintro ⟨u, rfl, h⟩
    exact .literal h₁ h₂ h₃ h

/-- The empty text matches patterns of `%` only. -/
theorem matches_empty : Matches p [] ↔ p.dropWhile (· = percent) = [] := by
  induction p with
  | nil => simp [matches_nil]
  | cons d p ih =>
    by_cases hd : d = percent
    · subst hd
      rw [matches_percent, List.dropWhile_cons_of_pos (by simp), ← ih]
      constructor
      · rintro ⟨u, hu, h⟩
        rwa [List.suffix_nil.1 hu] at h
      · intro h
        exact ⟨[], List.suffix_rfl, h⟩
    · rw [List.dropWhile_cons_of_neg (by simpa using hd)]
      refine iff_of_false ?_ (List.cons_ne_nil d p)
      intro h
      generalize hu : ([] : List UInt8) = u at h
      cases h with
      | percent => exact hd rfl
      | _ => cases hu

end Language

/-! ## The matcher decides the language -/

/-- The result is `LIKE_TRUE` if the proposition holds and `LIKE_FALSE` otherwise. -/
def Decides (result : ℤ) (P : Prop) : Prop := (result = 1 ∧ P) ∨ (result = 0 ∧ ¬ P)

theorem Decides.congr {r : ℤ} {P Q : Prop} (h : Decides r P) (hPQ : P ↔ Q) : Decides r Q := by
  unfold Decides at h ⊢
  rwa [← hPQ]

theorem decides_true {P : Prop} (h : P) : Decides likeTrue P := .inl ⟨rfl, h⟩

theorem decides_false {P : Prop} (h : ¬ P) : Decides likeFalse P := .inr ⟨rfl, h⟩

/-- `LIKE_ABORT` is the same number as `LIKE_FALSE`. -/
theorem decides_abort {P : Prop} (h : ¬ P) : Decides likeAbort P := .inr ⟨rfl, h⟩

/-- **Skipping the wildcards after a `%` keeps the language.** -/
theorem matches_skipWildcards (t p : List UInt8) :
    Matches (percent :: p) t ↔
      ∃ t₁ p₁, skipWildcards t p = some (t₁, p₁) ∧ Matches (percent :: p₁) t₁ := by
  induction p generalizing t with
  | nil => simp [skipWildcards]
  | cons d p ih =>
    simp only [skipWildcards]
    split_ifs with h₁ h₂
    · -- two `%` are one
      subst h₁
      rw [← ih t]
      constructor
      · intro h
        obtain ⟨u, hu, h⟩ := matches_percent.1 h
        obtain ⟨v, hv, h⟩ := matches_percent.1 h
        exact matches_percent.2 ⟨v, hv.trans hu, h⟩
      · intro h
        exact matches_percent.2 ⟨t, List.suffix_rfl, h⟩
    · -- `%_` is `_%`
      subst h₂
      cases t with
      | nil =>
        refine iff_of_false ?_ (by simp)
        intro h
        obtain ⟨u, hu, h⟩ := matches_percent.1 h
        obtain ⟨c, v, rfl, -⟩ := matches_underscore.1 h
        simp at hu
      | cons c t =>
        rw [← ih t]
        constructor
        · intro h
          obtain ⟨u, hu, h'⟩ := matches_percent.1 h
          obtain ⟨e, v, rfl, hv⟩ := matches_underscore.1 h'
          refine matches_percent.2 ⟨v, ?_, hv⟩
          rcases List.suffix_cons_iff.1 hu with heq | hsuf
          · cases heq
            exact List.suffix_rfl
          · exact (List.suffix_cons e v).trans hsuf
        · intro h
          obtain ⟨u, ⟨v, rfl⟩, hu⟩ := matches_percent.1 h
          -- the last byte before the rest of the text is the one that `_` matches
          obtain ⟨w, e, hwe⟩ : ∃ w e, c :: v = w ++ [e] := by
            rcases List.eq_nil_or_concat (c :: v) with hnil | ⟨w, e, hwe⟩
            · cases hnil
            · exact ⟨w, e, by rw [hwe, List.concat_eq_append]⟩
          refine matches_percent.2 ⟨e :: u, ⟨w, ?_⟩, matches_underscore.2 ⟨e, u, rfl, hu⟩⟩
          rw [← List.cons_append, hwe, List.append_assoc]
          rfl
    · simp

/-- After the wildcards the pattern is at its end or at a literal. -/
theorem head_skipWildcards {t p t₁ p₁ : List UInt8} (h : skipWildcards t p = some (t₁, p₁)) :
    p₁ = [] ∨ ∃ d q, p₁ = d :: q ∧ d ≠ percent ∧ d ≠ underscore := by
  induction p generalizing t with
  | nil =>
    cases h
    exact .inl rfl
  | cons d p ih =>
    simp only [skipWildcards] at h
    split_ifs at h with h₁ h₂
    · exact ih h
    · cases t with
      | nil => cases h
      | cons c t => exact ih h
    · cases h
      exact .inr ⟨d, p, rfl, h₁, h₂⟩

/-- A pattern at a literal matches only texts that start with its first byte, and nothing when it is
a dangling escape. -/
theorem matches_firstpat {d : UInt8} {p u : List UInt8} (h₁ : d ≠ percent) (h₂ : d ≠ underscore)
    (h : Matches (d :: p) u) : ∃ first v, firstpat (d :: p) = some first ∧ u = first :: v := by
  by_cases h₃ : d = backslash
  · subst h₃
    cases p with
    | nil => exact absurd h not_matches_dangling
    | cons e p =>
      obtain ⟨v, rfl, -⟩ := matches_escape.1 h
      exact ⟨e, v, by simp [firstpat], rfl⟩
  · obtain ⟨v, rfl, -⟩ := (matches_literal h₁ h₂ h₃).1 h
    exact ⟨d, v, by simp [firstpat, h₃], rfl⟩

/-- **The search loop finds a position where the pattern matches, if there is one.** -/
theorem scan_decides {matchAt : List UInt8 → ℤ} {first : UInt8} {p : List UInt8}
    (hm : ∀ u, Decides (matchAt u) (Matches p u)) (hf : ∀ u, Matches p u → ∃ v, u = first :: v)
    (t : List UInt8) : Decides (scan matchAt first t) (Matches (percent :: p) t) := by
  refine Decides.congr ?_ matches_percent.symm
  induction t with
  | nil =>
    refine decides_abort ?_
    rintro ⟨u, hu, h⟩
    obtain ⟨v, rfl⟩ := hf u h
    simp at hu
  | cons c t ih =>
    -- a match of the rest is a match, and there is none but one at this position to add
    have hrest : ¬ Matches p (c :: t) →
        ((∃ u, u <:+ t ∧ Matches p u) ↔ ∃ u, u <:+ c :: t ∧ Matches p u) := by
      intro hno
      constructor
      · rintro ⟨u, hu, h⟩
        exact ⟨u, hu.trans (List.suffix_cons c t), h⟩
      · rintro ⟨u, hu, h⟩
        rcases List.suffix_cons_iff.1 hu with rfl | hu
        · exact absurd h hno
        · exact ⟨u, hu, h⟩
    simp only [scan]
    split_ifs with hc hmatched
    · rcases hm (c :: t) with ⟨h1, h⟩ | ⟨h0, -⟩
      · exact .inl ⟨h1, c :: t, List.suffix_rfl, h⟩
      · exact absurd h0 hmatched
    · rcases hm (c :: t) with ⟨h1, -⟩ | ⟨-, hno⟩
      · rw [h1] at hmatched
        exact absurd (by decide) hmatched
      · exact ih.congr (hrest hno)
    · refine ih.congr (hrest fun h => hc ?_)
      obtain ⟨v, hv⟩ := hf _ h
      cases hv
      rfl

/-- The fast path and the main loop agree. -/
theorem matchText_of_loop {t p : List UInt8} (h : Decides (matchLoop t p) (Matches p t)) :
    Decides (matchText t p) (Matches p t) := by
  rw [matchText]
  split_ifs with hp
  · subst hp
    exact decides_true (matches_percent.2 ⟨[], List.nil_suffix, .nil⟩)
  · exact h

/-- A byte of the pattern that must be in the text. -/
theorem decides_byte {c e : UInt8} {p q t : List UInt8}
    (hq : Matches q (c :: t) ↔ ∃ u, c :: t = e :: u ∧ Matches p u)
    (ih : Decides (matchLoop t p) (Matches p t)) :
    Decides (if e ≠ c then likeFalse else matchLoop t p) (Matches q (c :: t)) := by
  split_ifs with hec
  · refine decides_false fun h => ?_
    obtain ⟨u, hu, -⟩ := hq.1 h
    cases hu
    exact hec rfl
  · rw [not_not] at hec
    subst hec
    refine ih.congr ?_
    rw [hq]
    constructor
    · intro h
      exact ⟨t, rfl, h⟩
    · rintro ⟨u, hu, h⟩
      cases hu
      exact h

/-- The search for the pattern that is left after a `%` and the wildcards that follow it. -/
theorem search_decides {t p t₁ p₁ : List UInt8} (hskip : skipWildcards t p = some (t₁, p₁))
    (ih : ∀ u q, q.length ≤ p.length → Decides (matchLoop u q) (Matches q u)) :
    Decides
      (if p₁ = [] then likeTrue
        else
          match firstpat p₁ with
          | none => likeAbort
          | some first => scan (fun u => matchText u p₁) first t₁)
      (Matches (percent :: p) t) := by
  have hiff : Matches (percent :: p) t ↔ Matches (percent :: p₁) t₁ := by
    rw [matches_skipWildcards, hskip]
    simp
  refine Decides.congr ?_ hiff.symm
  rcases head_skipWildcards hskip with rfl | ⟨d, q, rfl, h₁, h₂⟩
  · exact decides_true (matches_percent.2 ⟨[], List.nil_suffix, .nil⟩)
  · have hm : ∀ u, Decides (matchText u (d :: q)) (Matches (d :: q) u) :=
      fun u => matchText_of_loop (ih u _ (length_skipWildcards hskip))
    rw [if_neg (List.cons_ne_nil d q)]
    split
    case h_1 hfirst =>
      refine decides_abort fun h => ?_
      obtain ⟨u, -, hu⟩ := matches_percent.1 h
      obtain ⟨first, v, hf, -⟩ := matches_firstpat h₁ h₂ hu
      rw [hfirst] at hf
      cases hf
    case h_2 first hfirst =>
      refine scan_decides hm (fun u hu => ?_) t₁
      obtain ⟨first', v, hf, rfl⟩ := matches_firstpat h₁ h₂ hu
      rw [hfirst] at hf
      cases hf
      exact ⟨v, rfl⟩

/-- **The main loop decides the language of the pattern.** -/
theorem matchLoop_decides (t p : List UInt8) : Decides (matchLoop t p) (Matches p t) := by
  induction hn : p.length using Nat.strong_induction_on generalizing t p with
  | _ n ih =>
    have ih' : ∀ t q, q.length < p.length → Decides (matchLoop t q) (Matches q t) :=
      fun t q hq => ih q.length (hn ▸ hq) t q rfl
    cases t with
    | nil =>
      rw [matchLoop]
      · split_ifs with hp
        · exact decides_true (matches_empty.2 hp)
        · exact decides_abort fun h => hp (matches_empty.1 h)
    | cons c t =>
      cases p with
      | nil =>
        rw [matchLoop]
        refine decides_false fun h => ?_
        cases matches_nil.1 h
      | cons d p =>
        have hlt : p.length < (d :: p).length := by simp
        unfold matchLoop
        by_cases h₁ : d = backslash
        · subst h₁
          rw [if_pos rfl]
          cases p with
          | nil => exact decides_abort not_matches_dangling
          | cons e p => exact decides_byte matches_escape (ih' t p (by simp))
        rw [if_neg h₁]
        by_cases h₂ : d = percent
        · subst h₂
          rw [if_pos rfl]
          split
          case h_1 hskip =>
            refine decides_abort fun h => ?_
            rw [matches_skipWildcards, hskip] at h
            simp at h
          case h_2 t₁ p₁ hskip =>
            exact search_decides hskip fun u q hq => ih' u q (hq.trans_lt hlt)
        rw [if_neg h₂]
        by_cases h₃ : d = underscore
        · subst h₃
          rw [if_pos rfl]
          refine (ih' t p hlt).congr ?_
          rw [matches_underscore]
          constructor
          · intro h
            exact ⟨c, t, rfl, h⟩
          · rintro ⟨e, u, hu, h⟩
            cases hu
            exact h
        rw [if_neg h₃]
        exact decides_byte (matches_literal h₂ h₃ h₁) (ih' t p hlt)

/-- **`MatchText` decides the language of the pattern.** -/
theorem matchText_decides (t p : List UInt8) : Decides (matchText t p) (Matches p t) :=
  matchText_of_loop (matchLoop_decides t p)

/-! ## `LIKE` and `NOT LIKE` -/

/-- What `enc_text_like` returns, from the result of the matcher. -/
def encTextLike (result : ℤ) : Bool := BitVec.ofInt 32 result ≠ 0#32

/-- What `enc_text_notlike` returns. -/
def encTextNotlike (result : ℤ) : Bool := 1#32 ^^^ BitVec.ofInt 32 result ≠ 0#32

/-- **`LIKE` is correct**, and `NOT LIKE` is its negation. -/
theorem plainTextLike_correct (t p : List UInt8) :
    (plainTextLike t p = 1 ↔ Matches p t) ∧ (plainTextLike t p = 0 ↔ ¬ Matches p t) ∧
    (encTextLike (plainTextLike t p) = true ↔ Matches p t) ∧
    (encTextNotlike (plainTextLike t p) = true ↔ ¬ Matches p t) := by
  rcases matchText_decides t p with ⟨h1, h⟩ | ⟨h0, h⟩
  · rw [plainTextLike, h1]
    simp [h, encTextLike, encTextNotlike]
  · rw [plainTextLike, h0]
    simp [h, encTextLike, encTextNotlike]

end Like

end HEDB
