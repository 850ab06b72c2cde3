import HEDB.Udf.EncText

/-!
# Comparing stored strings

The seven comparison functions of `enc_text` decide by the order tags when both values have one, and
by `strcmp` in the privacy zone otherwise. `ComparesAs` says that all seven agree with the byte-wise
order of two strings. They do so when the tags are in the order of the strings
(`comparesAs_of_tags`), and without tags when the strings fit into the local arrays of the privacy
zone and the right one is not empty (`comparesAs_of_strcmp`). A comparison that returns a value is
one of the two (`compareBy_ok`).
-/

namespace HEDB

namespace Udf

/-! ## The order of strings -/

/-- The three outcomes of a comparison are those of the byte-wise order. -/
structure Orders (s t : List UInt8) (lt eq gt : Prop) : Prop where
  lt_iff : lt ↔ s < t
  eq_iff : eq ↔ s = t
  gt_iff : gt ↔ t < s

/-- **`strcmp` is the byte-wise order** on strings without zeros. -/
theorem orders_strcmp {s t : List UInt8} (hs : 0 ∉ s) (ht : 0 ∉ t) :
    Orders s t (strcmp s t < 0) (strcmp s t = 0) (0 < strcmp s t) := by
  have hpos : ∀ {b : UInt8}, b ≠ 0 → 0 < b.toNat := fun {b} hb =>
    Nat.pos_of_ne_zero fun h => hb (UInt8.toNat_inj.1 h)
  induction s generalizing t with
  | nil =>
    cases t with
    | nil => constructor <;> simp [strcmp, List.lt_irrefl]
    | cons b t =>
      have hb := hpos (b := b) fun h => ht (by simp [h])
      constructor <;> simp [strcmp] <;> omega
  | cons a s ih =>
    cases t with
    | nil =>
      have ha := hpos (b := a) fun h => hs (by simp [h])
      constructor <;> simp [strcmp] <;> omega
    | cons b t =>
      have ih := ih (t := t) (fun h => hs (List.mem_cons_of_mem _ h))
        fun h => ht (List.mem_cons_of_mem _ h)
      by_cases hab : a = b
      · subst hab
        have hirr : ¬ a < a := by simp
        simp only [strcmp, if_true]
        constructor
        · rw [ih.lt_iff, List.cons_lt_cons_iff]
          simp
        · rw [ih.eq_iff]
          simp
        · rw [ih.gt_iff, List.cons_lt_cons_iff]
          simp
      · have hne : a.toNat ≠ b.toNat := fun h => hab (UInt8.toNat_inj.1 h)
        simp only [strcmp, if_neg hab]
        constructor
        · rw [List.cons_lt_cons_iff, UInt8.lt_iff_toNat_lt]
          simp [hab]
        · simp [hab]
          omega
        · rw [List.cons_lt_cons_iff, UInt8.lt_iff_toNat_lt]
          simp [Ne.symm hab]

section Operators

variable (g : Gcm) (F : FloatOps)

/-- **All comparisons of two stored values agree with their strings.** -/
structure ComparesAs (a b : EncStr) (s t : List UInt8) : Prop where
  eq : ∀ r, ∃ r', encTextEq g F a b r = some (.ok (decide (s = t)), r')
  ne : ∀ r, ∃ r', encTextNe g F a b r = some (.ok (decide (s ≠ t)), r')
  lt : ∀ r, ∃ r', encTextLt g F a b r = some (.ok (decide (s < t)), r')
  le : ∀ r, ∃ r', encTextLe g F a b r = some (.ok (decide (¬ t < s)), r')
  gt : ∀ r, ∃ r', encTextGt g F a b r = some (.ok (decide (t < s)), r')
  ge : ∀ r, ∃ r', encTextGe g F a b r = some (.ok (decide (¬ s < t)), r')
  cmp : ∀ r, ∃ ans r', encTextCmp g F a b r = some (.ok ans, r') ∧
    Orders s t (ans < 0) (ans = 0) (0 < ans)

end Operators

variable {g : Gcm} {F : FloatOps} {s t : List UInt8} {a b : EncStr}

/-- Both values have an order tag. -/
def Tagged (a b : EncStr) : Prop := a.order ≠ orderNone ∧ b.order ≠ orderNone

theorem compareBy_of_not_tagged {α : Type} {fast : UInt32 → UInt32 → α} {slow : ℤ → α}
    (h : ¬ Tagged a b) (r : OpsProcess) : compareBy g F fast slow a b r =
      (sendRequest g F (.strCmp a b) r).bind fun reply =>
        some (if reply.resp ≠ 0 then .error reply.resp else .ok (slow (bytesInt reply.result)),
          reply.process) :=
  if_neg h

theorem compareBy_fast {α : Type} {fast : UInt32 → UInt32 → α} {slow : ℤ → α} (h : Tagged a b)
    (r : OpsProcess) : compareBy g F fast slow a b r = some (.ok (fast a.order b.order), r) :=
  if_pos h

/-- **Tags in the order of the strings** give the right answers. -/
theorem comparesAs_of_tags (h : Tagged a b)
    (ho : Orders s t (a.order < b.order) (a.order = b.order) (b.order < a.order)) :
    ComparesAs g F a b s t where
  eq r := ⟨r, (compareBy_fast h r).trans (by simp [ho.eq_iff])⟩
  ne r := ⟨r, (compareBy_fast h r).trans (by simp [ho.eq_iff])⟩
  lt r := ⟨r, (compareBy_fast h r).trans (by simp [ho.lt_iff])⟩
  le r := ⟨r, (compareBy_fast h r).trans (by simp [← ho.gt_iff])⟩
  gt r := ⟨r, (compareBy_fast h r).trans (by simp [ho.gt_iff])⟩
  ge r := ⟨r, (compareBy_fast h r).trans (by simp [← ho.lt_iff])⟩
  cmp r := by
    refine ⟨_, r, compareBy_fast h r, ?_⟩
    have ⟨hlt, heq, hgt⟩ := ho
    simp only [UInt32.lt_iff_toNat_lt, ← UInt32.toNat_inj] at hlt heq hgt ⊢
    constructor
    · rw [← hlt]
      split_ifs <;> omega
    · rw [← heq]
      split_ifs <;> simp <;> omega
    · rw [← hgt]
      split_ifs <;> omega

/-- The strings that the privacy zone compares: both fit into a local array with the zero after
them, and the right one is not empty. -/
structure Fits (s t : List UInt8) : Prop where
  left_lt : s.length < stringLength
  right_ne : t ≠ []
  right_lt : t.length < stringLength

theorem plainTextCmp_eq (hs : 0 ∉ s) (ht : 0 ∉ t) : plainTextCmp s t = strcmp s t := by
  rw [plainTextCmp, cString_eq hs, cString_eq ht]

/-- **Without tags the privacy zone gives the right answers.** -/
theorem comparesAs_of_strcmp (hnone : ¬ Tagged a b) (ha : g.IsCipher a s) (hb : g.IsCipher b t)
    (hs : 0 ∉ s) (ht : 0 ∉ t) (hfits : Fits s t) : ComparesAs g F a b s t := by
  have ho := orders_strcmp hs ht
  have hslow : ∀ {α : Type} (fast : UInt32 → UInt32 → α) (slow : ℤ → α) (r : OpsProcess),
      ∃ r', compareBy g F fast slow a b r = some (.ok (slow (strcmp s t)), r') := by
    intro α fast slow r
    rw [← plainTextCmp_eq hs ht]
    exact compareBy_slow hnone ha hb hfits.left_lt hfits.right_ne hfits.right_lt r
  constructor
  case cmp =>
    intro r
    obtain ⟨r', h⟩ := hslow _ (fun ans => ans) r
    exact ⟨_, r', h, ho⟩
  all_goals
    intro r
    obtain ⟨r', h⟩ := hslow _ _ r
    refine ⟨r', h.trans ?_⟩
    simp [← ho.lt_iff, ← ho.eq_iff, ← ho.gt_iff]

/-- **A comparison that returns a value** is by tags, or of strings that the privacy zone
compares. -/
theorem compareBy_ok {α : Type} {fast : UInt32 → UInt32 → α} {slow : ℤ → α} {v : α}
    {r r' : OpsProcess} (ha : g.IsCipher a s) (hb : g.IsCipher b t)
    (h : compareBy g F fast slow a b r = some (.ok v, r')) :
    Tagged a b ∧ v = fast a.order b.order ∨
      ¬ Tagged a b ∧ Fits s t ∧ v = slow (plainTextCmp s t) := by
  by_cases htag : Tagged a b
  · rw [compareBy_fast htag] at h
    cases h
    exact .inl ⟨htag, rfl⟩
  refine .inr ⟨htag, ?_⟩
  have hcmp := encTextCmp_eq (in_sent (.strCmp a b) r) ha hb
  by_cases hne : t = []
  · -- The empty right operand is refused.
    rw [if_pos hne] at hcmp
    have hcmd : handleCmd g F (Request.strCmp a b).cmd (sent (.strCmp a b) r) =
        setResp (some (-1, _)) := congrArg setResp hcmp
    obtain ⟨reply, hsend, hresp, -⟩ := sendRequest_eq (by decide) hcmd
    rw [compareBy_of_not_tagged htag, hsend] at h
    simp [hresp] at h
  rw [if_neg hne] at hcmp
  by_cases hlen : s.length < stringLength ∧ t.length < stringLength
  · obtain ⟨r₁, h₁⟩ : ∃ r₁, compareBy g F fast slow a b r =
        some (.ok (slow (plainTextCmp s t)), r₁) := compareBy_slow htag ha hb hlen.1 hne hlen.2 r
    rw [h₁] at h
    cases h
    exact ⟨⟨hlen.1, hne, hlen.2⟩, rfl⟩
  · rw [if_neg hlen] at hcmp
    have hcmd : handleCmd g F (Request.strCmp a b).cmd (sent (.strCmp a b) r) = none :=
      congrArg setResp hcmp
    rw [compareBy_of_not_tagged htag, sendRequest_eq_none hcmd] at h
    cases h

end Udf

end HEDB
