import HEDB.Pipeline.Confinement
import HEDB.Udf.EncText

/-!
# The buffers of the operations on text

The operations on text decrypt into arrays of 256 bytes and write a zero behind the last byte. The
client accepts strings of up to 256 bytes, so that the zero can be one byte too far, and a
concatenation is not checked at all.

`textInside_iff` says for each operation which strings keep it inside its buffers. A write outside a
local array is undefined; a write into the region outside the result field is a change that
`Request.Unchanged` excludes.
-/

namespace HEDB

open Layout

namespace Udf

/-- The ciphertext has been made by the client from the string. -/
def Produced (g : Gcm) (F : FloatOps) (c : EncStr) (s : List UInt8) : Prop :=
  ∃ r r', cstringToEnctextWithLen g F s r = some (.ok c, r')

variable {g : Gcm} {F : FloatOps} {a b c : EncStr} {s t : List UInt8}

theorem Produced.isCipher (h : Produced g F c s) : g.IsCipher c s := by
  obtain ⟨r, r', hcall⟩ := h
  by_cases hle : s.length ≤ stringLength
  · obtain ⟨c', r'', hcall', hc, -⟩ := cstringToEnctextWithLen_eq (g := g) (F := F) hle r
    rw [hcall'] at hcall
    cases hcall
    exact hc
  · rw [cstringToEnctextWithLen, dif_neg hle] at hcall
    cases hcall

theorem exists_produced (g : Gcm) (F : FloatOps) (h : s.length ≤ stringLength) :
    ∃ c, Produced g F c s := by
  obtain ⟨c, r', hcall, -⟩ := cstringToEnctextWithLen_eq (g := g) (F := F) h OpsProcess.zero
  exact ⟨c, _, r', hcall⟩

/-- **The operation of a request stays inside its buffers**: it returns, and of the region only
`resp` and the result field change. -/
def StaysInside (g : Gcm) (F : FloatOps) (q : Request) : Prop :=
  ∀ r, q.In r.mem → ∃ r', handler g F r = some r' ∧ q.Unchanged r.mem r'.mem

/-- **A concatenation is right**: it returns an error, or a ciphertext of the two strings. -/
def Concatenates (g : Gcm) (F : FloatOps) (a b : EncStr) (s t : List UInt8) : Prop :=
  ∀ r, (Request.concat a b).In r.mem → ∃ r', handler g F r = some r' ∧
    (r'.mem.int Layout.resp ≠ 0 ∨
      g.Decrypts ((Request.concat a b).copyResultFrom r'.mem) (s ++ t))

/-! ## Operations that return -/

theorem staysInside_iff {q : Request} : StaysInside g F q ↔
    (∀ r, q.In r.mem → operation g F q r ≠ none) ∧ Confines g F q := by
  constructor
  · intro h
    refine ⟨fun r hin hnone => ?_, confines_of_unchanged fun r r' hin hr' => ?_⟩
    · obtain ⟨r', hr', -⟩ := h r hin
      rw [handler_of_in hin, hnone] at hr'
      cases hr'
    · obtain ⟨r'', hr'', hsame⟩ := h r hin
      rw [hr'] at hr''
      cases hr''
      exact hsame
  · rintro ⟨hreturns, hconfines⟩ r hin
    obtain ⟨⟨resp, r₁⟩, hop⟩ := Option.ne_none_iff_exists'.mp (hreturns r hin)
    refine ⟨⟨r₁.mem.setInt Layout.resp resp, r₁.iv⟩, ?_, ?_⟩
    · rw [handler_of_in hin, hop]
      rfl
    · exact unchanged_of_sameOutside (confined_operation hin hconfines resp r₁ hop) resp

/-- A branch that confines its writes stays inside exactly where it returns, if that does not depend
on the region. -/
theorem staysInside_of_confines {q : Request} {p : Prop} (hq : Confines g F q)
    (h : ∀ r, q.In r.mem → (operation g F q r ≠ none ↔ p)) : StaysInside g F q ↔ p := by
  rw [staysInside_iff]
  constructor
  · intro hreturns
    exact (h _ (in_sent q OpsProcess.zero)).mp (hreturns.1 _ (in_sent q _))
  · intro hp
    exact ⟨fun r hin => (h r hin).mpr hp, hq⟩

theorem ite_some_ne_none {α : Type} {p : Prop} [Decidable p] {x : α} {o : Option α} :
    (if p then some x else o) ≠ none ↔ p ∨ o ≠ none := by
  split_ifs with h <;> simp [h]

theorem staysInside_strCmp (ha : g.IsCipher a s) (hb : g.IsCipher b t) :
    StaysInside g F (.strCmp a b) ↔
      t = [] ∨ s.length < stringLength ∧ t.length < stringLength := by
  refine staysInside_of_confines trivial fun r hin => ?_
  rw [operation, encTextCmp_eq hin ha hb, ite_some_ne_none, ite_some_ne_none]
  simp only [ne_eq, not_true_eq_false, or_false]

theorem staysInside_strLike (ha : g.IsCipher a s) (hb : g.IsCipher b t) :
    StaysInside g F (.strLike a b) ↔ s.length < stringLength ∧ t.length < stringLength := by
  refine staysInside_of_confines trivial fun r hin => ?_
  rw [operation, encTextLike_eq hin ha hb]
  by_cases hs : s.length < stringLength
  · rw [if_pos hs, ite_some_ne_none, ite_some_ne_none, and_iff_right hs]
    simp only [ne_eq, not_true_eq_false, or_false]
    -- an empty pattern is an error, and short
    exact or_iff_right_of_imp fun ht => ht ▸ (by decide : 0 < stringLength)
  · rw [if_neg hs]
    simp only [ne_eq, not_true_eq_false, hs, false_and]

/-- What `enc_text_concatenate` returns: an error for an empty operand, and otherwise the sum. -/
theorem concat_returns {r : OpsProcess} (hin : (Request.concat a b).In r.mem)
    (ha : g.IsCipher a s) (hb : g.IsCipher b t)
    (h : s = [] ∨ s.length < stringLength ∧ t = [] ∨ s.length + t.length < stringLength) :
    operation g F (.concat a b) r = some (-1, r) ∨ s.length + t.length < stringLength ∧
      operation g F (.concat a b) r = encryptStrInto g r (s ++ t) (calcRes sizeofEncStr) := by
  rw [operation, encTextConcatenate_eq hin ha hb]
  by_cases hs : s = []
  · exact .inl (by rw [if_pos hs])
  by_cases ht : t = []
  · refine .inl ?_
    have hlt : s.length < stringLength := by
      rcases h with h | h | h
      · exact absurd h hs
      · exact h.1
      · omega
    rw [if_neg hs, if_neg hlt.ne, if_pos ht]
  · have hsum : s.length + t.length < stringLength := by
      rcases h with h | h | h
      · exact absurd h hs
      · exact absurd h.2 ht
      · exact h
    refine .inr ⟨hsum, ?_⟩
    rw [if_neg hs, if_neg (by omega), if_neg ht, if_neg (by omega), plainTextConcat, if_pos hsum,
      Option.bind_some]

theorem concat_eq_none {r : OpsProcess} (hin : (Request.concat a b).In r.mem)
    (ha : g.IsCipher a s) (hb : g.IsCipher b t)
    (h : ¬ (s = [] ∨ s.length < stringLength ∧ t = [] ∨ s.length + t.length < stringLength)) :
    operation g F (.concat a b) r = none := by
  rw [not_or, not_or] at h
  obtain ⟨hs, ht, hsum⟩ := h
  rw [operation, encTextConcatenate_eq hin ha hb, if_neg hs]
  by_cases hfull : s.length = stringLength
  · rw [if_pos hfull]
  · have hlt := lt_of_le_of_ne ha.length_le hfull
    rw [if_neg hfull, if_neg fun h => ht ⟨hlt, h⟩, plainTextConcat, if_neg hsum]
    exact ite_self _

theorem staysInside_concat (ha : g.IsCipher a s) (hb : g.IsCipher b t) :
    StaysInside g F (.concat a b) ↔
      s = [] ∨ s.length < stringLength ∧ t = [] ∨ s.length + t.length < stringLength := by
  refine staysInside_of_confines trivial fun r hin => ⟨fun hne => ?_, fun h hnone => ?_⟩
  · by_contra h
    exact hne (concat_eq_none hin ha hb h)
  · rcases concat_returns (F := F) hin ha hb h with hop | ⟨-, hop⟩
    · rw [hop] at hnone
      cases hnone
    · rw [hop, encryptStrInto, encryptInto_eq rfl] at hnone
      cases hnone

/-- **A concatenation that returns is right.** -/
theorem concatenates_of_staysInside (ha : g.IsCipher a s) (hb : g.IsCipher b t)
    (h : StaysInside g F (.concat a b)) : Concatenates g F a b s t := by
  have hlens := (staysInside_concat ha hb).mp h
  intro r hin
  rw [handler_of_in hin]
  rcases concat_returns (F := F) hin ha hb hlens with hop | ⟨hsum, hop⟩
  · refine ⟨⟨r.mem.setInt Layout.resp (-1), r.iv⟩, by rw [hop]; rfl, .inl ?_⟩
    rw [Mem.int_setInt _ _ (by decide)]
    decide
  · have hle : (s ++ t).length ≤ stringLength := by
      rw [List.length_append]
      exact hsum.le
    obtain ⟨served, henc, -, hcstr⟩ :=
      encryptStrInto_eq (g := g) (r := r) (o := calcRes sizeofEncStr) hle
    refine ⟨⟨served.mem.setInt Layout.resp 0, served.iv⟩, by rw [hop, henc]; rfl, .inr ?_⟩
    rw [copyResultFrom_setInt _ _ _ (by decide)]
    exact (congrArg g.gcmDecrypt hcstr).trans (Gcm.decrypts_gcmEncrypt _ _)

theorem staysInside_strDec (ha : g.IsCipher a s) :
    StaysInside g F (.strDec a) ↔ s.length < stringLength := by
  have hlen : Confines g F (.strDec a) ↔ s.length < stringLength := by
    rw [Confines, imp_iff_right ha.reported, EncStr.len, ha.length_eq, encStringLength]
    omega
  rw [staysInside_iff, hlen, and_iff_right_iff_imp]
  intro _ r hin
  rw [operation, encStringDec_of_in hin,
    if_pos ⟨ha.reported, by rw [EncStr.len, ha.length_eq]; omega⟩]
  exact Option.some_ne_none _

/-! ## Requests on text -/

/-- **Which strings keep the operations on text inside their buffers.** A comparison with an empty
string and a concatenation with one are errors, which come before the zero that is too far. -/
theorem textInside_iff (ha : Produced g F a s) (hb : Produced g F b t) :
    (StaysInside g F (.strCmp a b) ↔
      t = [] ∨ s.length < stringLength ∧ t.length < stringLength) ∧
    (StaysInside g F (.strLike a b) ↔ s.length < stringLength ∧ t.length < stringLength) ∧
    (StaysInside g F (.concat a b) ∧ Concatenates g F a b s t ↔
      s = [] ∨ s.length < stringLength ∧ t = [] ∨ s.length + t.length < stringLength) ∧
    (StaysInside g F (.strDec a) ↔ s.length < stringLength) := by
  have hca := ha.isCipher
  have hcb := hb.isCipher
  refine ⟨staysInside_strCmp hca hcb, staysInside_strLike hca hcb, ?_, staysInside_strDec hca⟩
  rw [and_iff_left_of_imp (concatenates_of_staysInside hca hcb)]
  exact staysInside_concat hca hcb

/-- Two words that fit, together with what the client makes of them. -/
theorem textInside_hedb : ∃ a b, Produced Gcm.identity FloatOps.null a [104, 101] ∧
    Produced Gcm.identity FloatOps.null b [100, 98] ∧
    StaysInside Gcm.identity FloatOps.null (.strLike a b) ∧
    Concatenates Gcm.identity FloatOps.null a b [104, 101] [100, 98] := by
  obtain ⟨a, ha⟩ := exists_produced (s := [104, 101]) Gcm.identity FloatOps.null (by decide)
  obtain ⟨b, hb⟩ := exists_produced (s := [100, 98]) Gcm.identity FloatOps.null (by decide)
  have h := textInside_iff ha hb
  exact ⟨a, b, ha, hb, h.2.1.mpr (by decide), (h.2.2.1.mpr (by decide)).2⟩

/-- The client accepts a string of 256 bytes, and the privacy zone decrypts it one byte too far. Two
strings of 128 bytes are both short enough, and their concatenation is not. -/
theorem text_leaves_buffers :
    (∃ a, Produced Gcm.identity FloatOps.null a (List.replicate 256 97) ∧
      ¬ StaysInside Gcm.identity FloatOps.null (.strDec a)) ∧
    ∃ a b, Produced Gcm.identity FloatOps.null a (List.replicate 128 97) ∧
      Produced Gcm.identity FloatOps.null b (List.replicate 128 98) ∧
      ¬ StaysInside Gcm.identity FloatOps.null (.concat a b) := by
  constructor
  · obtain ⟨a, ha⟩ := exists_produced (s := List.replicate 256 97) Gcm.identity FloatOps.null
      (by rw [List.length_replicate]; rfl)
    refine ⟨a, ha, fun h => ?_⟩
    have hlt := (staysInside_strDec ha.isCipher).mp h
    rw [List.length_replicate] at hlt
    exact absurd hlt (by decide)
  · obtain ⟨a, ha⟩ := exists_produced (s := List.replicate 128 97) Gcm.identity FloatOps.null
      (by rw [List.length_replicate]; decide)
    obtain ⟨b, hb⟩ := exists_produced (s := List.replicate 128 98) Gcm.identity FloatOps.null
      (by rw [List.length_replicate]; decide)
    refine ⟨a, b, ha, hb, fun h => ?_⟩
    have hlens := (staysInside_concat ha.isCipher hb.isCipher).mp h
    simp at hlens

end Udf

end HEDB
