import HEDB.Utils.Base64

/-!
# What a text denotes in Base64

`fromBase64` accepts every text. It is described here without shifts, masks and pointers: a text is
cut into windows of up to four characters (`windows`), each window is read up to the first character
that is neither a digit nor a pad (`kept`), and the bytes of the windows follow each other
(`denoted`). `fromBase64_eq_denoted` says that this is what the decoder computes. In particular it
never moves its output pointer back.
-/

namespace HEDB

namespace Base64

/-! ## Windows -/

/-- White space and dark characters end a window. -/
def Stops (c : UInt8) : Prop := digitValue c = ws ∨ digitValue c = nd

instance (c : UInt8) : Decidable (Stops c) := inferInstanceAs (Decidable (_ ∨ _))

/-- The six bits of a character. A pad has none of its own. -/
def sextet (c : UInt8) : ℕ := if IsDigit (digitValue c) then digitValue c else 0

/-- The characters of a window that are read. -/
def kept (w : List UInt8) : List UInt8 := w.takeWhile fun c => ¬ Stops c

/-- The number that the characters of a window spell from `qv` on, in `slots` digits. -/
def spell (slots : ℕ) (qv : ℕ) (w : List UInt8) : ℕ :=
  ((kept w).map sextet ++ List.replicate (slots - (kept w).length) 0).foldl
    (fun n d => n * 64 + d) qv

/-- The bytes that a window loses to pads and to the character that ends it. -/
def lost (w : List UInt8) : ℕ :=
  (kept w).countP (digitValue · = pc) + if (kept w).length < w.length then 1 else 0

/-- The characters of a window that are passed over with it. -/
def consumed (w : List UInt8) : ℕ := min w.length ((kept w).length + 1)

/-- A dark character ends the window, and the text with it. -/
def Dark (w : List UInt8) : Prop := ∃ c ∈ w[(kept w).length]?, digitValue c = nd

instance (w : List UInt8) : Decidable (Dark w) := inferInstanceAs (Decidable (∃ c ∈ _, _))

/-- The bytes of a window. -/
def windowBytes (w : List UInt8) : List UInt8 :=
  ([spell 4 0 w / 2 ^ 16, spell 4 0 w / 2 ^ 8, spell 4 0 w].map UInt8.ofNat).take
    (w.length - 1 - lost w)

/-- The windows of a text of which `n` characters are to be read. A window counts in full even where
it ends early, so that characters at the end of the text may stay unread. -/
def windows : ℕ → List UInt8 → ℕ → List (List UInt8)
  | 0, _, _ => []
  | fuel + 1, text, n =>
    if n = 0 ∨ text.headD 0 = padChar then []
    else
      let rest := skipNonB64 text n
      let left := n - (text.length - rest.length)
      let w := rest.take (min left 4)
      if w.length < 2 then []
      else w :: windows fuel (rest.drop (consumed w)) (if Dark w then 0 else left - w.length)

/-- **The bytes that a text denotes.** A newline at its end is no part of it. -/
def denoted (text : List UInt8) : List UInt8 :=
  let n := if text.getLast? = some 0x0a then text.length - 1 else text.length
  (windows n text n).flatMap windowBytes

/-! ## Reading a window -/

section Windows

variable {c : UInt8} {cs rest : List UInt8} {k n qv nti : ℕ} {nbo : ℤ}

/-- The kinds of characters. -/
theorem digitValue_cases (c : UInt8) :
    digitValue c < 64 ∨ digitValue c = pc ∨ digitValue c = ws ∨ digitValue c = nd := by
  have hall : ∀ i : Fin 128, b64DigitValues.getD i 0 < 64 ∨ b64DigitValues.getD i 0 = pc ∨
      b64DigitValues.getD i 0 = ws ∨ b64DigitValues.getD i 0 = nd := by decide
  by_cases h : c.toNat < 0x80
  · rw [digitValue, if_pos h]
    exact hall ⟨c.toNat, h⟩
  · exact .inr (.inl (if_neg h))

theorem kept_of_stops (h : Stops c) : kept (c :: cs) = [] := by
  simp [kept, h]

theorem kept_of_not_stops (h : ¬ Stops c) : kept (c :: cs) = c :: kept cs := by
  simp [kept, h]

theorem consumed_of_not_stops (h : ¬ Stops c) : consumed (c :: cs) = consumed cs + 1 := by
  rw [consumed, kept_of_not_stops h, consumed, List.length_cons, List.length_cons]
  omega

theorem dark_of_not_stops (h : ¬ Stops c) : Dark (c :: cs) ↔ Dark cs := by
  rw [Dark, kept_of_not_stops h, List.length_cons, List.getElem?_cons_succ, Dark]

theorem lost_of_not_stops (h : ¬ Stops c) :
    lost (c :: cs) = lost cs + if digitValue c = pc then 1 else 0 := by
  simp only [lost, kept_of_not_stops h, List.countP_cons, List.length_cons,
    decide_eq_true_eq, add_lt_add_iff_right]
  omega

theorem spell_of_not_stops (h : ¬ Stops c) (m : ℕ) :
    spell (m + 1) qv (c :: cs) = spell m (qv * 64 + sextet c) cs := by
  rw [spell, kept_of_not_stops h, List.length_cons, Nat.succ_sub_succ, List.map_cons,
    List.cons_append, List.foldl_cons, spell]

theorem consumed_of_stops (h : Stops c) : consumed (c :: cs) = 1 := by
  simp [consumed, kept_of_stops h]

theorem dark_of_stops (h : Stops c) : Dark (c :: cs) ↔ digitValue c = nd := by
  simp [Dark, kept_of_stops h]

theorem lost_of_stops (h : Stops c) : lost (c :: cs) = 1 := by
  simp [lost, kept_of_stops h]

theorem spell_of_stops (h : Stops c) (m : ℕ) :
    spell m qv (c :: cs) = (List.replicate m 0).foldl (fun n d => n * 64 + d) qv := by
  simp [spell, kept_of_stops h]

/-- The step of a character that does not end the window. -/
theorem char_of_not_stops (hk : k < nti) (h : ¬ Stops c) :
    Group.char ⟨c :: rest, n, nti, nbo, qv⟩ k =
      ⟨rest, n, nti, nbo - (if digitValue c = pc then 1 else 0), qv * 64 + sextet c⟩ := by
  rw [Stops, not_or] at h
  simp only [Group.char, if_pos hk, List.headD_cons, List.tail_cons, if_neg h.1, if_neg h.2]
  by_cases hpc : digitValue c = pc
  · have hdigit : ¬ IsDigit pc := by decide
    simp only [hpc, if_true, sextet, if_neg hdigit, add_zero, Nat.shiftLeft_eq]
  · have hlt : digitValue c < 64 := by
      simpa only [hpc, h.1, h.2, or_false] using digitValue_cases c
    have hdigit : IsDigit (digitValue c) := hlt.trans (by decide)
    have hor : qv <<< 6 ||| digitValue c = qv * 64 + digitValue c := by
      rw [← Nat.shiftLeft_add_eq_or_of_lt (show digitValue c < 2 ^ 6 from hlt), Nat.shiftLeft_eq]
    simp only [if_neg hpc, sextet, if_pos hdigit, sub_zero, hor]

/-- The step of a character that ends the window. -/
theorem char_of_stops (hk : k < nti) (h : Stops c) :
    Group.char ⟨c :: rest, n, nti, nbo, qv⟩ k =
      ⟨rest, if digitValue c = nd then 0 else n, k, nbo - 1, qv * 64⟩ := by
  simp only [Group.char, if_pos hk, List.headD_cons, List.tail_cons, Nat.shiftLeft_eq]
  by_cases hnd : digitValue c = nd
  · simp only [hnd, if_true]
  · have hws : digitValue c = ws := h.resolve_right hnd
    simp only [hws, if_true]
    rfl

theorem foldl_char_beyond (h : nti ≤ k) (m : ℕ) (text : List UInt8) :
    (List.range' k m).foldl Group.char ⟨text, n, nti, nbo, qv⟩ =
      ⟨text, n, nti, nbo, (List.replicate m 0).foldl (fun n d => n * 64 + d) qv⟩ := by
  induction m generalizing k qv with
  | zero => rfl
  | succ m ih =>
    have hstep : Group.char ⟨text, n, nti, nbo, qv⟩ k = ⟨text, n, nti, nbo, qv * 64 + 0⟩ := by
      have hzero : digitValue (numeral 0) = 0 := by decide
      simp only [Group.char, if_neg (not_lt.mpr h), hzero]
      rw [if_neg (by decide), if_neg (by decide), if_neg (by decide), Nat.or_zero,
        Nat.shiftLeft_eq, add_zero]
    rw [List.range'_succ, List.foldl_cons, hstep, ih (h.trans k.le_succ)]
    rfl

/-- **The characters of a window, one after the other.** The induction is on those that are left. -/
theorem foldl_char_window (cs rest : List UInt8) (n : ℕ) (nbo : ℤ) (qv : ℕ)
    (hk : k + cs.length ≤ 4) :
    ∃ nti', (List.range' k (4 - k)).foldl Group.char ⟨cs ++ rest, n, k + cs.length, nbo, qv⟩ =
      ⟨(cs ++ rest).drop (consumed cs), if Dark cs then 0 else n, nti', nbo - lost cs,
        spell (4 - k) qv cs⟩ := by
  induction cs generalizing k qv nbo with
  | nil =>
    refine ⟨k, ?_⟩
    rw [List.nil_append, List.length_nil, add_zero, foldl_char_beyond le_rfl]
    simp [consumed, lost, Dark, spell, kept]
  | cons c cs ih =>
    rw [List.length_cons] at hk ⊢
    obtain ⟨m, hm⟩ : ∃ m, 4 - k = m + 1 := ⟨3 - k, by omega⟩
    have hm' : 4 - (k + 1) = m := by omega
    have hlt : k < k + (cs.length + 1) := by omega
    rw [hm, List.range'_succ, List.foldl_cons, List.cons_append]
    by_cases hstop : Stops c
    · refine ⟨k, ?_⟩
      rw [char_of_stops hlt hstop, foldl_char_beyond k.le_succ, consumed_of_stops hstop,
        lost_of_stops hstop, spell_of_stops hstop]
      simp only [dark_of_stops hstop]
      rfl
    · obtain ⟨nti', hfold⟩ := ih (k := k + 1) (nbo - (if digitValue c = pc then 1 else 0))
        (qv * 64 + sextet c) (by omega)
      refine ⟨nti', ?_⟩
      rw [char_of_not_stops hlt hstop, show k + (cs.length + 1) = k + 1 + cs.length by omega, ← hm',
        hfold, consumed_of_not_stops hstop, List.drop_succ_cons, lost_of_not_stops hstop, hm',
          spell_of_not_stops hstop]
      simp only [dark_of_not_stops hstop]
      congr 1
      push_cast
      split_ifs <;> omega

theorem lost_le (w : List UInt8) : lost w ≤ w.length := by
  induction w with
  | nil => rfl
  | cons c cs ih =>
    by_cases h : Stops c
    · rw [lost_of_stops h, List.length_cons]
      omega
    · rw [lost_of_not_stops h, List.length_cons]
      split_ifs <;> omega

/-- A window that does not begin with a pad keeps a byte for each of its pads. -/
theorem lost_lt (hc : digitValue c ≠ pc) (hcs : cs ≠ []) : lost (c :: cs) < (c :: cs).length := by
  have hpos := List.length_pos_of_ne_nil hcs
  rw [List.length_cons]
  by_cases h : Stops c
  · rw [lost_of_stops h]
    omega
  · rw [lost_of_not_stops h, if_neg hc]
    have := lost_le cs
    omega

end Windows

/-! ## The loop -/

/-- `skipNonB64` drops a number of characters, and stops before a digit or a NUL. -/
theorem skipNonB64_eq_drop (text : List UInt8) (n : ℕ) :
    ∃ k, k ≤ n ∧ k ≤ text.length ∧ skipNonB64 text n = text.drop k ∧
      (k < n → ∀ c ∈ (text.drop k).head?, digitValue c ≠ pc) := by
  induction text, n using skipNonB64.induct with
  | case1 c s nc h ih =>
    obtain ⟨k, hkn, hks, hskip, hhead⟩ := ih
    refine ⟨k + 1, by omega, by simpa using hks, ?_, fun hlt => ?_⟩
    · rw [skipNonB64, if_pos h, hskip, List.drop_succ_cons]
    · rw [List.drop_succ_cons]
      exact hhead (by omega)
  | case2 c s nc h =>
    refine ⟨0, by omega, by omega, by rw [skipNonB64, if_neg h, List.drop_zero], fun _ d hd => ?_⟩
    rw [List.drop_zero, List.head?_cons, Option.mem_some_iff] at hd
    subst hd
    intro hpc
    have hzero : digitValue 0 = nd := by decide
    refine h ⟨fun h0 => ?_, ?_⟩
    · rw [h0, hzero] at hpc
      exact absurd hpc (by decide)
    · rw [hpc]
      decide
  | case3 s n h =>
    refine ⟨0, n.zero_le, Nat.zero_le _, ?_, fun hn c hc => ?_⟩
    · rw [skipNonB64, List.drop_zero]
      exact h
    · cases s with
      | nil => cases hc
      | cons d s => exact absurd (Nat.succ_pred_eq_of_pos hn).symm (h d s (n - 1) rfl)

/-- `nboi`. -/
theorem nboi_eq {nti : ℕ} (h : nti ≤ 4) :
    ([0, 0, 1, 2, 3] : List ℤ).getD nti 0 = ((nti - 1 : ℕ) : ℤ) := by
  interval_cases nti <;> rfl

/-- The bytes of a window that has been read. -/
theorem bytes_spell {w : List UInt8} (hlost : lost w < w.length) (text : List UInt8) (n nti : ℕ) :
    Group.bytes ⟨text, n, nti, ((w.length - 1 : ℕ) : ℤ) - lost w, spell 4 0 w⟩ =
      windowBytes w := by
  have hsize : (((w.length - 1 : ℕ) : ℤ) - lost w).toNat = w.length - 1 - lost w := by omega
  simp only [Group.bytes, windowBytes, hsize, Nat.shiftRight_eq_div_pow, List.map_cons,
    List.map_nil]

/-- **The loop reads the windows one after the other.** -/
theorem loop_eq_windows (fuel : ℕ) {text : List UInt8} {n : ℕ} (h : n ≤ text.length) :
    fromBase64Loop fuel text n = some ((windows fuel text n).flatMap windowBytes) := by
  induction fuel generalizing text n with
  | zero => rfl
  | succ fuel ih =>
    rw [fromBase64Loop, windows]
    split_ifs with hstop
    · rfl
    obtain ⟨k, hkn, hkl, hskip, hhead⟩ := skipNonB64_eq_drop text n
    have hlen : (text.drop k).length = text.length - k := List.length_drop ..
    have hleft : n - (text.length - (text.drop k).length) = n - k := by omega
    simp only [hskip, hleft, nboi_eq (min_le_right (n - k) 4)]
    have hw : ((text.drop k).take (min (n - k) 4)).length = min (n - k) 4 := by
      rw [List.length_take, hlen]
      omega
    have hsplit := List.take_append_drop (min (n - k) 4) (text.drop k)
    generalize (text.drop k).take (min (n - k) 4) = w at hw hsplit ⊢
    generalize (text.drop k).drop (min (n - k) 4) = rest at hsplit
    rw [← hsplit] at hlen hhead ⊢
    rw [← hw]
    by_cases hshort : w.length < 2
    · rw [if_pos (by omega), if_pos hshort]
      rfl
    -- the window begins with a digit or a NUL
    have hlost : lost w < w.length := by
      rcases w with _ | ⟨c, _ | ⟨d, cs⟩⟩
      · exact absurd Nat.two_pos hshort
      · exact absurd Nat.one_lt_two hshort
      · exact lost_lt (hhead (by simp only [List.length_cons] at hw; omega) c rfl) (by simp)
    obtain ⟨nti, hfold⟩ := foldl_char_window (k := 0) w rest (n - k - w.length)
      ((w.length - 1 : ℕ) : ℤ) 0 (by omega)
    rw [Nat.zero_add, Nat.sub_zero] at hfold
    have hnbo : ¬ ((w.length - 1 : ℕ) : ℤ) - lost w < 0 := by omega
    rw [if_neg (by omega), if_neg hshort, show [0, 1, 2, 3] = List.range' 0 4 from rfl, hfold,
      if_neg hnbo, bytes_spell hlost]
    have hbound : (if Dark w then 0 else n - k - w.length) ≤
        ((w ++ rest).drop (consumed w)).length := by
      have hconsumed : consumed w ≤ w.length := min_le_left ..
      rw [List.length_append] at hlen
      rw [List.length_drop, List.length_append]
      split_ifs <;> omega
    rw [ih hbound]
    rfl

theorem getLast?_eq_some_iff {text : List UInt8} {c : UInt8} :
    text.getLast? = some c ↔ 0 < text.length ∧ text.getD (text.length - 1) 0 = c := by
  rw [List.getLast?_eq_getElem?, List.getD_eq_getElem?_getD]
  rcases text.length.eq_zero_or_pos with h | h
  · rw [List.length_eq_zero_iff.mp h]
    simp
  · have hlt : text.length - 1 < text.length := by omega
    rw [List.getElem?_eq_getElem hlt, Option.getD_some, Option.some_inj, and_iff_right h]

/-- **`fromBase64` computes what the text denotes**, whatever the text is. -/
theorem fromBase64_eq_denoted (text : List UInt8) :
    fromBase64 text text.length = some (denoted text) := by
  simp only [fromBase64, denoted, getLast?_eq_some_iff]
  refine loop_eq_windows _ ?_
  split_ifs <;> omega

end Base64

end HEDB
