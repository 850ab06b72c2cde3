import HEDB.Pipeline.Confinement
import HEDB.Pipeline.Nonces
import HEDB.RecordReplay.Matching

/-!
# The answers of the child

The child answers a request that is logged with zero or with the code of a ciphertext that does not
decrypt (`exists_operation_of_handler`). It leaves the request in the region, and a text that it
delivers with zero has the length of an `EncStr`.
-/

namespace HEDB

open Layout

variable {g : Gcm} {F : FloatOps} {r : OpsProcess}

/-! ## Return codes -/

/-- Zero, or the code of a ciphertext that does not decrypt. -/
def HasCode (g : Gcm) (c : ℤ) : Prop := c = 0 ∨ ∃ s, c = (g.decryptBytes s).1

/-- The operation returns with such a code. -/
def Codes (g : Gcm) (x : Option (ℤ × OpsProcess)) : Prop := ∀ c r', x = some (c, r') → HasCode g c

section Codes

theorem codes_none : Codes g none := by
  intro c r' h
  cases h

theorem codes_some {c : ℤ} (h : HasCode g c) (r : OpsProcess) : Codes g (some (c, r)) := by
  intro c' r' h'
  cases h'
  exact h

theorem codes_decryptBytes (s : List UInt8) (r : OpsProcess) :
    Codes g (some ((g.decryptBytes s).1, r)) :=
  codes_some (.inr ⟨s, rfl⟩) r

theorem codes_bind {α : Type} {x : Option α} {f : α → Option (ℤ × OpsProcess)}
    (h : ∀ a, x = some a → Codes g (f a)) : Codes g (x.bind f) := by
  cases x with
  | none => exact codes_none
  | some a => exact h a rfl

theorem codes_ite {P : Prop} [Decidable P] {x y : Option (ℤ × OpsProcess)} (hx : Codes g x)
    (hy : Codes g y) : Codes g (if P then x else y) := by
  split_ifs
  exacts [hx, hy]

theorem codes_encryptInto {src : List UInt8} {o n : ℕ} : Codes g (encryptInto g r src o n) := by
  intro c r' h
  exact .inl (encryptInto_inv h).2.1

theorem codes_encCmp {w : ℕ} {plainCmp : List UInt8 → List UInt8 → ℤ} :
    Codes g (encCmp g w plainCmp r) :=
  codes_ite (codes_decryptBytes _ r) <| codes_bind fun _ _ => codes_bind fun _ _ =>
    codes_decryptBytes _ _

theorem codes_encCalc {w : ℕ} {plainCalc : ℤ → List UInt8 → List UInt8 → Option (List UInt8)} :
    Codes g (encCalc g w plainCalc r) :=
  codes_ite (codes_decryptBytes _ r) <| codes_bind fun _ _ => codes_bind fun _ _ =>
    codes_bind fun _ _ => codes_encryptInto

theorem hasCode_decryptItems {items : List (List UInt8)} {x : ℤ × List (List UInt8)}
    (h : decryptItems g items = some x) : HasCode g x.1 := by
  induction items generalizing x with
  | nil =>
    cases h
    exact .inl rfl
  | cons item items ih =>
    simp only [decryptItems, Option.bind_eq_bind, Option.pure_def] at h
    split_ifs at h with hcode
    · cases h
      exact .inr ⟨item, rfl⟩
    · obtain ⟨out, -, h⟩ := Option.bind_eq_some_iff.1 h
      obtain ⟨y, hy, h⟩ := Option.bind_eq_some_iff.1 h
      cases h
      exact ih (x := y) hy

theorem codes_encSumBulk {w : ℕ} {plainSumBulk : List (List UInt8) → Option (List UInt8)} :
    Codes g (encSumBulk g w plainSumBulk r) :=
  codes_ite codes_none <| codes_bind fun _ hx =>
    codes_ite (codes_some (hasCode_decryptItems hx) r) <| codes_bind fun _ _ => codes_encryptInto

/-- The code of a text is the one of its ciphertext. -/
theorem hasCode_decryptStr {m : Mem} {o : ℕ} {x : ℤ × List UInt8} (h : decryptStr g m o = some x) :
    HasCode g x.1 := by
  rw [decryptStr_eq_ite] at h
  split_ifs at h
  rw [← Option.some.inj h]
  exact .inr ⟨_, rfl⟩

theorem codes_encTextCmp : Codes g (encTextCmp g r) :=
  codes_bind fun _ _ => codes_bind fun _ hright =>
    codes_ite (codes_some (hasCode_decryptStr hright) r) <| codes_bind fun _ _ =>
      codes_bind fun _ _ => codes_some (hasCode_decryptStr hright) _

theorem codes_encTextLike : Codes g (encTextLike g r) :=
  codes_bind fun _ _ => codes_bind fun _ _ => codes_bind fun _ hright =>
    codes_ite (codes_some (hasCode_decryptStr hright) r) <| codes_bind fun _ _ =>
      codes_some (hasCode_decryptStr hright) _

theorem codes_encTextConcatenate : Codes g (encTextConcatenate g r) :=
  codes_bind fun _ hleft => codes_ite (codes_some (hasCode_decryptStr hleft) r) <|
    codes_bind fun _ _ => codes_bind fun _ hright =>
      codes_ite (codes_some (hasCode_decryptStr hright) r) <| codes_bind fun _ _ =>
        codes_bind fun _ _ => codes_encryptInto

theorem codes_encTextSubstring : Codes g (encTextSubstring g F r) :=
  codes_bind fun _ hstr => codes_ite (codes_some (hasCode_decryptStr hstr) r) <|
    codes_bind fun _ _ => codes_ite (codes_decryptBytes _ r) <|
      codes_ite (codes_decryptBytes _ r) <| codes_bind fun _ _ => codes_bind fun _ _ =>
        codes_bind fun _ _ => codes_encryptInto

theorem codes_encTimestampCmp : Codes g (encTimestampCmp g r) :=
  codes_ite (codes_decryptBytes _ r) <| codes_ite (codes_decryptBytes _ r) <|
    codes_bind fun _ _ => codes_bind fun _ _ => codes_decryptBytes _ _

theorem codes_encTimestampExtractYear : Codes g (encTimestampExtractYear g r) :=
  codes_ite (codes_decryptBytes _ r) <| codes_bind fun _ _ => codes_encryptInto

theorem codes_encFloat32SumBulk : Codes g (encFloat32SumBulk g F r) :=
  codes_ite codes_none codes_encSumBulk

theorem codes_operation {q : Request} (hq : q.Logged) : Codes g (operation g F q r) := by
  cases q with
  | cmp f left right =>
    cases f with
    | int => exact codes_encCmp
    | float => exact codes_encCmp
    | timestamp => exact codes_encTimestampCmp
  | calcNum n op left right =>
    cases n with
    | int => exact show Codes g (encInt32Calc g F r) from codes_encCalc
    | float => exact show Codes g (encFloat32Calc g F r) from codes_encCalc
  | bulk n items h =>
    cases n with
    | int => exact show Codes g (encInt32SumBulk g r) from codes_encSumBulk
    | float => exact codes_encFloat32SumBulk
  | extractYear input => exact codes_encTimestampExtractYear
  | strCmp left right => exact codes_encTextCmp
  | strLike left right => exact codes_encTextLike
  | substring str start length => exact codes_encTextSubstring
  | concat left right => exact codes_encTextConcatenate
  | enc | dec | strEnc | strDec | evalExpr => exact hq.elim

end Codes

/-! ## The handler -/

section Handler

variable {q : Request} {r' : OpsProcess}

/-- The child leaves a logged request in the region. Only `resp` and the result change. -/
theorem unchanged_of_handler (hq : q.Logged) (hin : q.In r.mem) (h : handler g F r = some r') :
    q.Unchanged r.mem r'.mem := by
  have hconf : Confines g F q := by
    cases q with
    | cmp | calcNum | bulk | extractYear | strCmp | strLike | substring | concat => trivial
    | enc | dec | strEnc | strDec | evalExpr => exact hq.elim
  rw [handler_of_in hin] at h
  obtain ⟨c, r₁, hop, rfl⟩ := setResp_inv h
  exact unchanged_of_sameOutside (confined_operation hin hconf c r₁ hop) c

/-- The operation behind an answer, and its code. -/
theorem exists_operation_of_handler (hg : g.IntCodes) (hq : q.Logged) (hin : q.In r.mem)
    (h : handler g F r = some r') : ∃ r₁, operation g F q r = some (r'.mem.int resp, r₁) ∧
      r'.mem = r₁.mem.setInt resp (r'.mem.int resp) ∧ HasCode g (r'.mem.int resp) := by
  rw [handler_of_in hin] at h
  obtain ⟨c, r₁, hop, rfl⟩ := setResp_inv h
  have hcode := codes_operation hq c r₁ hop
  have hint : IsInt c := by
    rcases hcode with rfl | ⟨s, rfl⟩
    · decide
    · exact hg.isInt s
  rw [Mem.int_setInt _ _ hint]
  exact ⟨r₁, hop, rfl, hcode⟩

/-- The text that the child delivers has the length of an `EncStr`. -/
theorem resultFits_of_handler (hg : g.IntCodes) (hq : q.Logged) (hin : q.In r.mem)
    (h : handler g F r = some r') (hresp : r'.mem.int resp = 0) : q.ResultFits r'.mem := by
  obtain ⟨r₁, hop, hmem, -⟩ := exists_operation_of_handler hg hq hin h
  have hkept : ∀ o, resp + 4 ≤ o → r'.mem.uint o = r₁.mem.uint o := by
    intro o ho
    rw [hmem, Mem.uint, Mem.setInt, Mem.read_write_of_disjoint _ (.inr (by rwa [length_intBytes])),
      ← Mem.uint]
  cases q with
  | cmp | calcNum | bulk | extractYear | strCmp | strLike => trivial
  | substring str start length =>
    rw [Request.ResultFits, hkept _ (by decide)]
    exact (deliversText_substring.textFits _ r₁ hop hresp).2
  | concat left right =>
    rw [Request.ResultFits, hkept _ (by decide)]
    exact (deliversText_concatenate.textFits _ r₁ hop hresp).2
  | enc | dec | strEnc | strDec | evalExpr => exact hq.elim

end Handler

end HEDB
