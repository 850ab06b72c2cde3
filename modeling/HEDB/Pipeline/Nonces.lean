import HEDB.Pipeline.Failures
import HEDB.Pipeline.Text
import HEDB.PrivacyZone.Ivs

/-!
# The IVs of a session

A child of the server draws one IV when it starts and counts it up with every encryption, over all
the requests that it serves. So all ciphertexts that a session delivers have different IVs, whatever
the requests are, in whatever order they come and whether they fail or not (`session_ivs_nodup`).

An operation that encrypts its result counts the IV up by one and puts it at the head of the result,
or fails and leaves it (`Draws`). The request to evaluate an expression also runs into the branch of
`CMD_FLOAT_ENC`, which counts it up once more.

One kind of result is not a fresh ciphertext. When the last argument of an expression does not
decrypt, the call returns 0 all the same, and what it delivers is what the region held before.
-/

namespace HEDB

open Layout

variable {g : Gcm} {F : FloatOps} {r : OpsProcess}

/-! ## One operation -/

/-- What an operation that encrypts its result at offset `o` does to the IV. -/
def Draws (r : OpsProcess) (o : ℕ) (x : Option (ℤ × OpsProcess)) : Prop :=
  ∀ c r', x = some (c, r') → IsInt c ∧ ((c ≠ 0 ∧ r'.iv = r.iv) ∨
    (c = 0 ∧ r'.iv = increment r.iv ∧ r'.mem.read o ivSize = (increment r.iv).bytes))

/-- An operation that leaves the IV. -/
def Keeps (r : OpsProcess) (x : Option (ℤ × OpsProcess)) : Prop :=
  ∀ c r', x = some (c, r') → r'.iv = r.iv

theorem draws_failure {c : ℤ} {o : ℕ} (hint : IsInt c) (hc : c ≠ 0) : Draws r o (some (c, r)) := by
  intro c' r' h
  cases h
  exact ⟨hint, .inl ⟨hc, rfl⟩⟩

theorem read_gcmEncrypt (m : Mem) (o : ℕ) (iv : Bytes ivSize) (src : List UInt8) :
    (m.write o (g.gcmEncrypt iv src)).read o ivSize = iv.bytes := by
  have hread := m.read_write o (g.gcmEncrypt iv src)
  rw [Gcm.length_gcmEncrypt, show src.length + ivSize + tagSize = ivSize + (src.length + tagSize) by
    omega, Mem.read_add, Gcm.gcmEncrypt] at hread
  exact (List.append_inj hread (by rw [Mem.length_read, iv.size])).1

theorem encryptInto_inv {src : List UInt8} {o n : ℕ} {c : ℤ} {r' : OpsProcess}
    (h : encryptInto g r src o n = some (c, r')) : src.length + ivSize + tagSize = n ∧ c = 0 ∧
      r' = ⟨r.mem.write o (g.gcmEncrypt (increment r.iv) src), increment r.iv⟩ := by
  obtain ⟨⟨iv, bs⟩, henc, hpair⟩ := Option.map_eq_some_iff.1 h
  cases hpair
  unfold Gcm.encryptBytes at henc
  split_ifs at henc with hlen
  cases henc
  exact ⟨hlen, rfl, rfl⟩

theorem draws_encryptInto {m : Mem} {src : List UInt8} {o n : ℕ} :
    Draws r o (encryptInto g ⟨m, r.iv⟩ src o n) := by
  intro c r' h
  obtain ⟨-, rfl, rfl⟩ := encryptInto_inv h
  exact ⟨by decide, .inr ⟨rfl, rfl, read_gcmEncrypt _ _ _ _⟩⟩

theorem draws_encCalc (hg : g.IntCodes) {w : ℕ}
    {plainCalc : ℤ → List UInt8 → List UInt8 → Option (List UInt8)} :
    Draws r (calcRes w) (encCalc g w plainCalc r) := by
  intro c r' h
  unfold encCalc at h
  dsimp only at h
  split_ifs at h with hcode
  · exact draws_failure (hg.isInt _) hcode c r' h
  · simp only [Option.bind_eq_bind, Option.bind_eq_some_iff] at h
    obtain ⟨_, -, _, -, res, -, henc⟩ := h
    exact draws_encryptInto c r' henc

/-- The code of the first item that does not decrypt. -/
theorem isInt_decryptItems (hg : g.IntCodes) {items : List (List UInt8)} {c : ℤ}
    {xs : List (List UInt8)} (h : decryptItems g items = some (c, xs)) : IsInt c := by
  induction items generalizing c xs with
  | nil =>
    cases h
    decide
  | cons item items ih =>
    rw [decryptItems] at h
    dsimp only at h
    split_ifs at h
    · cases h
      exact hg.isInt _
    · simp only [Option.bind_eq_bind, Option.bind_eq_some_iff, Prod.exists] at h
      obtain ⟨_, -, resp, outs, hitems, hpair⟩ := h
      cases hpair
      exact ih hitems

theorem draws_encSumBulk (hg : g.IntCodes) {w : ℕ}
    {plainSumBulk : List (List UInt8) → Option (List UInt8)} :
    Draws r (bulkRes w) (encSumBulk g w plainSumBulk r) := by
  intro c r' h
  unfold encSumBulk at h
  by_cases hsize : HEDB.bulkSize < (r.mem.int Layout.bulkSize).toNat
  · rw [if_pos hsize] at h
    cases h
  rw [if_neg hsize] at h
  obtain ⟨⟨resp, xs⟩, hitems, h⟩ := Option.bind_eq_some_iff.1 h
  dsimp only at h
  split_ifs at h with hcode
  · exact draws_failure (isInt_decryptItems hg hitems) hcode c r' h
  · obtain ⟨res, -, henc⟩ := Option.bind_eq_some_iff.1 h
    exact draws_encryptInto c r' henc

theorem draws_encFloat32SumBulk (hg : g.IntCodes) :
    Draws r (bulkRes encFloat4Length) (encFloat32SumBulk g F r) := by
  unfold encFloat32SumBulk
  split_ifs
  · intro c r' h
    cases h
  · exact draws_encSumBulk hg

theorem draws_encTimestampExtractYear (hg : g.IntCodes) :
    Draws r yearRes (encTimestampExtractYear g r) := by
  intro c r' h
  unfold encTimestampExtractYear at h
  dsimp only at h
  split_ifs at h with hcode
  · exact draws_failure (hg.isInt _) hcode c r' h
  · obtain ⟨t, -, henc⟩ := Option.bind_eq_some_iff.1 h
    exact draws_encryptInto c r' henc

theorem draws_encEncrypt (f : Fam) : Draws r (encCipher f) (encEncrypt g f r) := draws_encryptInto

/-- The code of a text is the one of its ciphertext. -/
theorem isInt_decryptStr (hg : g.IntCodes) {m : Mem} {o : ℕ} {x : ℤ × List UInt8}
    (h : decryptStr g m o = some x) : IsInt x.1 := by
  rw [decryptStr_eq_ite] at h
  split_ifs at h
  rw [← Option.some.inj h]
  exact hg.isInt _

theorem draws_encStringEnc : Draws r (strEncCipher + strCstr) (encStringEnc g r) :=
  draws_encryptInto

theorem draws_encFloat32EvalExpr (hg : g.IntCodes) :
    Draws r exprRes (encFloat32EvalExpr g F r) := by
  intro c r' h
  unfold encFloat32EvalExpr at h
  dsimp only at h
  by_cases hlast : exprMaxSize ≤ (r.mem.int exprArgCnt - 1).toNat
  · rw [if_pos hlast] at h
    cases h
  rw [if_neg hlast] at h
  split_ifs at h with hcode
  · exact draws_failure (hg.isInt _) hcode c r' h
  · obtain ⟨expr, -, h⟩ := Option.bind_eq_some_iff.1 h
    obtain ⟨res, -, henc⟩ := Option.bind_eq_some_iff.1 h
    exact draws_encryptInto c r' henc

/-! ## Results that are texts -/

/-- A text that an operation delivers at offset `o` has the length `n` of its ciphertext. -/
theorem uint_encryptInto {m : Mem} {iv : Bytes ivSize} {src : List UInt8} {o n : ℕ} {c : ℤ}
    {r' : OpsProcess} (hn : n < 2 ^ 32)
    (h : encryptInto g ⟨m.setUint (o + strLen) n, iv⟩ src (o + strCstr) n = some (c, r')) :
    r'.mem.uint (o + strLen) = n ∧ src.length + ivSize + tagSize = n := by
  obtain ⟨hlen, -, rfl⟩ := encryptInto_inv h
  refine ⟨?_, hlen⟩
  rw [Mem.uint, Mem.read_write_of_disjoint _ (.inl (by simp)), ← Mem.uint, Mem.uint_setUint _ _ hn]

/-- A text that an operation delivers at offset `o` has the length of a ciphertext of a string. -/
def TextFits (o : ℕ) (x : Option (ℤ × OpsProcess)) : Prop :=
  ∀ c r', x = some (c, r') → c = 0 →
    ivSize ≤ r'.mem.uint (o + strLen) ∧ r'.mem.uint (o + strLen) ≤ encStringLength

/-- A text operation returns a code and leaves the process as it is, or it encrypts a string into
the field at offset `o`. -/
def DeliversText (g : Gcm) (r : OpsProcess) (o : ℕ) (x : Option (ℤ × OpsProcess)) : Prop :=
  ∀ c r', x = some (c, r') → (c ≠ 0 ∧ (g.IntCodes → IsInt c) ∧ r' = r) ∨
    ∃ src, src.length ≤ stringLength ∧ encryptStrInto g r src o = some (c, r')

theorem deliversText_failure {c : ℤ} {o : ℕ} (hc : c ≠ 0) (hint : g.IntCodes → IsInt c) :
    DeliversText g r o (some (c, r)) := by
  intro c' r' h
  cases h
  exact .inl ⟨hc, hint, rfl⟩

theorem DeliversText.draws {o : ℕ} {x : Option (ℤ × OpsProcess)} (h : DeliversText g r o x)
    (hg : g.IntCodes) : Draws r (o + strCstr) x := by
  intro c r' hx
  rcases h c r' hx with ⟨hc, hint, rfl⟩ | ⟨src, -, henc⟩
  · exact draws_failure (hint hg) hc c r' rfl
  · exact draws_encryptInto c r' henc

theorem DeliversText.textFits {o : ℕ} {x : Option (ℤ × OpsProcess)} (h : DeliversText g r o x) :
    TextFits o x := by
  intro c r' hx hzero
  rcases h c r' hx with ⟨hc, -⟩ | ⟨src, hsrc, henc⟩
  · exact absurd hzero hc
  · simp only [stringLength] at hsrc
    obtain ⟨huint, -⟩ := uint_encryptInto (by simp only [ivSize, tagSize]; omega) henc
    rw [huint]
    simp only [encStringLength, stringLength, ivSize, tagSize]
    omega

theorem deliversText_concatenate :
    DeliversText g r (calcRes sizeofEncStr) (encTextConcatenate g r) := by
  intro c r' h
  unfold encTextConcatenate at h
  obtain ⟨left, hleft, h⟩ := Option.bind_eq_some_iff.1 h
  split_ifs at h with hcode
  · exact deliversText_failure hcode (fun hg => isInt_decryptStr hg hleft) c r' h
  obtain ⟨-, -, h⟩ := Option.bind_eq_some_iff.1 h
  obtain ⟨right, hright, h⟩ := Option.bind_eq_some_iff.1 h
  split_ifs at h with hcode'
  · exact deliversText_failure hcode' (fun hg => isInt_decryptStr hg hright) c r' h
  obtain ⟨-, -, h⟩ := Option.bind_eq_some_iff.1 h
  obtain ⟨res, hres, henc⟩ := Option.bind_eq_some_iff.1 h
  refine .inr ⟨res, ?_, henc⟩
  unfold plainTextConcat at hres
  split_ifs at hres with hlt
  cases hres
  rw [List.length_append]
  exact hlt.le

theorem deliversText_substring : DeliversText g r subRes (encTextSubstring g F r) := by
  intro c r' h
  unfold encTextSubstring at h
  obtain ⟨str, hstr, h⟩ := Option.bind_eq_some_iff.1 h
  split_ifs at h with hcode
  · exact deliversText_failure hcode (fun hg => isInt_decryptStr hg hstr) c r' h
  obtain ⟨-, -, h⟩ := Option.bind_eq_some_iff.1 h
  dsimp only at h
  split_ifs at h with hstart hlength
  · exact deliversText_failure hstart (fun hg => hg.isInt _) c r' h
  · exact deliversText_failure hlength (fun hg => hg.isInt _) c r' h
  obtain ⟨_, -, h⟩ := Option.bind_eq_some_iff.1 h
  obtain ⟨_, -, h⟩ := Option.bind_eq_some_iff.1 h
  obtain ⟨sub, hsub, henc⟩ := Option.bind_eq_some_iff.1 h
  obtain ⟨hnonneg, hlt, hlen, -⟩ := subText_bounds hsub
  exact .inr ⟨sub, by omega, henc⟩

theorem ivSize_le_encStringEnc {c : ℤ} {r' : OpsProcess} (h : encStringEnc g r = some (c, r')) :
    ivSize ≤ r'.mem.uint (strEncCipher + strLen) := by
  obtain ⟨huint, hlen⟩ := uint_encryptInto (by unfold toUnsigned; omega) h
  omega

/-! ## Operations that encrypt nothing -/

theorem keeps_encCmp {w : ℕ} {plainCmp : List UInt8 → List UInt8 → ℤ} :
    Keeps r (encCmp g w plainCmp r) := by
  intro c r' h
  unfold encCmp at h
  dsimp only at h
  split_ifs at h
  · cases h
    rfl
  · simp only [Option.bind_eq_bind, Option.bind_eq_some_iff] at h
    obtain ⟨_, -, _, -, h⟩ := h
    cases h
    rfl

theorem keeps_encTimestampCmp : Keeps r (encTimestampCmp g r) := by
  intro c r' h
  unfold encTimestampCmp at h
  dsimp only at h
  split_ifs at h
  · cases h
    rfl
  · cases h
    rfl
  · simp only [Option.bind_eq_bind, Option.bind_eq_some_iff] at h
    obtain ⟨_, -, _, -, h⟩ := h
    cases h
    rfl

theorem keeps_encDecrypt (f : Fam) : Keeps r (encDecrypt g f r) := by
  intro c r' h
  unfold encDecrypt at h
  cases h
  cases (g.decryptBytes (r.mem.read decCipher f.size)).2 <;> rfl

theorem keeps_encTextCmp : Keeps r (encTextCmp g r) := by
  intro c r' h
  unfold encTextCmp at h
  obtain ⟨left, -, h⟩ := Option.bind_eq_some_iff.1 h
  obtain ⟨right, -, h⟩ := Option.bind_eq_some_iff.1 h
  split_ifs at h
  · cases h
    rfl
  · simp only [Option.bind_eq_bind, Option.bind_eq_some_iff] at h
    obtain ⟨_, -, _, -, h⟩ := h
    cases h
    rfl

theorem keeps_encTextLike : Keeps r (encTextLike g r) := by
  intro c r' h
  unfold encTextLike at h
  obtain ⟨left, -, h⟩ := Option.bind_eq_some_iff.1 h
  obtain ⟨_, -, h⟩ := Option.bind_eq_some_iff.1 h
  obtain ⟨right, -, h⟩ := Option.bind_eq_some_iff.1 h
  split_ifs at h
  · cases h
    rfl
  · obtain ⟨_, -, h⟩ := Option.bind_eq_some_iff.1 h
    cases h
    rfl

theorem keeps_encStringDec : Keeps r (encStringDec g r) := by
  intro c r' h
  unfold encStringDec at h
  obtain ⟨x, -, h⟩ := Option.bind_eq_some_iff.1 h
  dsimp only at h
  split_ifs at h
  cases h
  rfl

/-! ## One call -/

theorem setResp_inv {x : Option (ℤ × OpsProcess)} {s : OpsProcess} (h : setResp x = some s) :
    ∃ c r', x = some (c, r') ∧ s = ⟨r'.mem.setInt Layout.resp c, r'.iv⟩ := by
  obtain ⟨⟨c, r'⟩, hx, hs⟩ := Option.map_eq_some_iff.1 h
  exact ⟨c, r', hx, hs.symm⟩

/-- The result of a request, if it is a ciphertext. The result of an expression is one when the last
argument decrypts. -/
def Request.cipherResult (g : Gcm) (q : Request) (result : List UInt8) : Option (List UInt8) :=
  match q with
  | .calcNum _ _ _ _ | .bulk _ _ _ | .extractYear _ | .substring _ _ _ | .concat _ _ | .enc _ _
  | .strEnc _ => some result
  | .evalExpr items _ _ =>
    match items.getLast? with
    | some item => if (g.decryptBytes item.bytes).1 = 0 then some result else none
    | none => none
  | _ => none

/-- The head of a field. -/
theorem ivOf_read (m : Mem) {o n : ℕ} (hn : ivSize ≤ n) :
    Gcm.ivOf (m.read o n) = m.read o ivSize := by
  obtain ⟨k, rfl⟩ := Nat.exists_eq_add_of_le hn
  rw [Gcm.ivOf, Mem.read_add, List.take_left' (Mem.length_read ..)]

/-- What a call does to the IV, and the IV of the ciphertext that it delivers at offset `o`, when
the operation returns `c`. -/
def Counts (r : OpsProcess) (c : ℤ) (r' : OpsProcess) (out : Option (List UInt8)) : Prop :=
  ∃ k ≤ 2, r'.iv = increment^[k] r.iv ∧ ∀ bs, out = some bs → bytesInt (intBytes c) = 0 →
    0 < k ∧ Gcm.ivOf bs = (increment r.iv).bytes

theorem Keeps.counts {x : Option (ℤ × OpsProcess)} (hx : Keeps r x) {c : ℤ} {r' : OpsProcess}
    (h : x = some (c, r')) : Counts r c r' none :=
  ⟨0, by omega, hx c r' h, by rintro _ ⟨⟩⟩

theorem Draws.counts {o : ℕ} {x : Option (ℤ × OpsProcess)} (hx : Draws r o x) {c : ℤ}
    {r' : OpsProcess} (h : x = some (c, r')) {n : ℕ} (hn : c = 0 → ivSize ≤ n) :
    Counts r c r' (some (r'.mem.read o n)) := by
  obtain ⟨hint, ⟨hc, hiv⟩ | ⟨rfl, hiv, hread⟩⟩ := hx c r' h
  · refine ⟨0, by omega, hiv, fun bs _ hzero => absurd ?_ hc⟩
    rwa [bytesInt_intBytes hint] at hzero
  · refine ⟨1, by omega, hiv, fun bs hbs _ => ⟨Nat.one_pos, ?_⟩⟩
    cases hbs
    rw [ivOf_read _ (hn rfl), hread]

theorem cipherResult_evalExpr {items : List (Bytes encFloat4Length)} {expr : Str}
    {hle : items.length ≤ exprMaxSize} {out bs : List UInt8}
    (h : (Request.evalExpr items expr hle).cipherResult g out = some bs) :
    bs = out ∧ ∃ item, items.getLast? = some item ∧ (g.decryptBytes item.bytes).1 = 0 := by
  unfold Request.cipherResult at h
  dsimp only at h
  split at h
  · rename_i item hlast
    split_ifs at h with hcode
    exact ⟨(Option.some.inj h).symm, item, hlast, hcode⟩
  · cases h

section Expressions

variable {items : List (Bytes encFloat4Length)} {expr : Str} {hle : items.length ≤ exprMaxSize}
  {item : Bytes encFloat4Length}

theorem int_exprArgCnt (hin : (Request.evalExpr items expr hle).In r.mem) :
    r.mem.int exprArgCnt = items.length := by
  rw [Mem.int, hin.field List.mem_cons_self (length_intBytes _), bytesInt_intBytes]
  simp only [exprMaxSize] at hle
  constructor <;> omega

/-- An argument of an expression in the region. -/
theorem read_item (hin : (Request.evalExpr items expr hle).In r.mem) {i : ℕ}
    (hi : items[i]? = some item) : r.mem.read (exprItem i) encFloat4Length = item.bytes := by
  have hlt : i < items.length := (List.getElem?_eq_some_iff.1 hi).1
  have hitems := read_items (hin.field (List.mem_cons_of_mem _ List.mem_cons_self)
    (Request.length_flatMap_bytes items))
  have hget := congrArg (·[i]?) hitems
  simp only [List.getElem?_map, List.getElem?_range hlt, Option.map_some, hi,
    Option.some.injEq] at hget
  rw [← hget]
  congr 1

/-- The last argument of an expression in the region. -/
theorem read_lastItem (hin : (Request.evalExpr items expr hle).In r.mem)
    (hlast : items.getLast? = some item) :
    r.mem.read (exprItem (r.mem.int exprArgCnt - 1).toNat) encFloat4Length = item.bytes := by
  rw [List.getLast?_eq_getElem?] at hlast
  rw [int_exprArgCnt hin, ← read_item hin hlast]
  congr 2
  omega

end Expressions

/-- An expression fails with the code of its last argument. -/
theorem encFloat32EvalExpr_code {c : ℤ} {r' : OpsProcess}
    (h : encFloat32EvalExpr g F r = some (c, r')) (hc : c ≠ 0) :
    c = (g.decryptBytes
      (r.mem.read (exprItem (r.mem.int exprArgCnt - 1).toNat) encFloat4Length)).1 := by
  unfold encFloat32EvalExpr at h
  dsimp only at h
  by_cases hlast : exprMaxSize ≤ (r.mem.int exprArgCnt - 1).toNat
  · rw [if_pos hlast] at h
    cases h
  rw [if_neg hlast] at h
  split_ifs at h with hcode
  · cases h
    rfl
  · obtain ⟨expr, -, h⟩ := Option.bind_eq_some_iff.1 h
    obtain ⟨res, -, henc⟩ := Option.bind_eq_some_iff.1 h
    exact absurd (encryptInto_inv henc).2.1 hc

/-- The branch of an expression runs on into an encryption. -/
theorem counts_evalExpr (hg : g.IntCodes) {items : List (Bytes encFloat4Length)} {expr : Str}
    {hle : items.length ≤ exprMaxSize} {c : ℤ} {r' : OpsProcess}
    (hin : (Request.evalExpr items expr hle).In r.mem)
    (h : operation g F (.evalExpr items expr hle) r = some (c, r')) :
    Counts r c r' ((Request.evalExpr items expr hle).cipherResult g
      ((Request.evalExpr items expr hle).copyResultFrom r'.mem)) := by
  obtain ⟨r₁, hr₁, henc⟩ := Option.bind_eq_some_iff.1 h
  obtain ⟨c₁, r₀, hexpr, rfl⟩ := setResp_inv hr₁
  rw [encEncrypt, encryptInto_eq (by rw [Mem.length_read]; rfl)] at henc
  cases henc
  obtain ⟨-, ⟨hc₁, hiv⟩ | ⟨-, hiv, hread⟩⟩ := draws_encFloat32EvalExpr hg c₁ r₀ hexpr
  · -- the last argument does not decrypt, and nothing is delivered
    refine ⟨1, by omega, by rw [← hiv]; rfl, fun bs hbs _ => absurd ?_ hc₁⟩
    obtain ⟨-, item, hlast, hcode⟩ := cipherResult_evalExpr hbs
    rw [← hcode, ← read_lastItem hin hlast]
    exact encFloat32EvalExpr_code hexpr hc₁
  · refine ⟨2, le_rfl, by rw [Function.iterate_succ_apply, Function.iterate_one, ← hiv], ?_⟩
    intro bs hbs _
    obtain ⟨rfl, -⟩ := cipherResult_evalExpr hbs
    refine ⟨Nat.two_pos, ?_⟩
    rw [Request.copyResultFrom, ivOf_read _ (by decide), ← hread]
    -- the second ciphertext is written elsewhere
    refine (Mem.read_write_of_disjoint _ (.inr ?_)).trans (Mem.read_write_of_disjoint _ (.inr ?_))
    · rw [Gcm.length_gcmEncrypt, Mem.length_read]
      decide
    · rw [length_intBytes]
      decide

/-- What the operation of a request does to the IV, and the IV of the ciphertext that it
delivers. -/
theorem operation_counts (hg : g.IntCodes) {q : Request} {c : ℤ} {r' : OpsProcess}
    (hin : q.In r.mem) (h : operation g F q r = some (c, r')) :
    Counts r c r' (q.cipherResult g (q.copyResultFrom r'.mem)) := by
  have h32 : ivSize ≤ 32 := by decide
  cases q with
  | cmp f left right =>
    cases f with
    | int => exact keeps_encCmp.counts h
    | float => exact keeps_encCmp.counts h
    | timestamp => exact keeps_encTimestampCmp.counts h
  | calcNum n op left right =>
    cases n with
    | int =>
      exact Draws.counts (n := encInt32Length) (x := encInt32Calc g F r) (draws_encCalc hg) h
        fun _ => h32
    | float =>
      exact Draws.counts (n := encFloat4Length) (x := encFloat32Calc g F r) (draws_encCalc hg) h
        fun _ => h32
  | bulk n items hle =>
    cases n with
    | int =>
      exact Draws.counts (n := encInt32Length) (x := encInt32SumBulk g r) (draws_encSumBulk hg) h
        fun _ => h32
    | float =>
      exact Draws.counts (n := encFloat4Length) (draws_encFloat32SumBulk hg) h fun _ => h32
  | extractYear input => exact (draws_encTimestampExtractYear hg).counts h fun _ => h32
  | strCmp left right => exact keeps_encTextCmp.counts h
  | strLike left right => exact keeps_encTextLike.counts h
  | substring str start length =>
    exact (deliversText_substring.draws hg).counts h fun hc =>
      (deliversText_substring.textFits c r' h hc).1
  | concat left right =>
    exact (deliversText_concatenate.draws hg).counts h fun hc =>
      (deliversText_concatenate.textFits c r' h hc).1
  | enc f plaintext =>
    exact (draws_encEncrypt f).counts h fun _ => by cases f <;> decide
  | dec f ciphertext => exact (keeps_encDecrypt f).counts h
  | strEnc plaintext => exact draws_encStringEnc.counts h fun _ => ivSize_le_encStringEnc h
  | strDec ciphertext => exact keeps_encStringDec.counts h
  | evalExpr items expr hle => exact counts_evalExpr hg hin h

/-- A call counts the IV up, and a ciphertext that it delivers has the next IV. -/
theorem sendRequest_counts (hg : g.IntCodes) {q : Request} {reply : Reply}
    (h : sendRequest g F q r = some reply) : ∃ k ≤ 2, reply.process.iv = increment^[k] r.iv ∧
      ∀ bs, q.cipherResult g reply.result = some bs → reply.resp = 0 →
        0 < k ∧ Gcm.ivOf bs = (increment r.iv).bytes := by
  obtain ⟨served, hserve, hreply⟩ := Option.bind_eq_some_iff.1 h
  rw [serve_of_in (in_sent q r), handleCmd_eq] at hserve
  obtain ⟨c, r', hop, rfl⟩ := setResp_inv hserve
  obtain ⟨k, hk, hiv, hout⟩ := operation_counts hg (in_sent q r) hop
  obtain ⟨hprocess, hresp, hresult⟩ : reply.process.iv = r'.iv ∧
      reply.resp = ((r'.mem.setInt Layout.resp c).setInt status statusDone).int Layout.resp ∧
      reply.result = q.copyResultFrom ((r'.mem.setInt Layout.resp c).setInt status statusDone) := by
    simp only [← Option.some.inj hreply, and_self]
  rw [copyResultFrom_setInt q _ _ (by decide), copyResultFrom_setInt q _ _ (by decide)] at hresult
  rw [Mem.int_setInt_of_disjoint _ _ (by decide), Mem.int, Mem.setInt,
    Mem.read_write_of_length _ _ _ _ (length_intBytes c)] at hresp
  have hsent : (sent q r).iv = r.iv := rfl
  rw [hsent] at hiv hout
  rw [hprocess, hresult, hresp]
  exact ⟨k, hk, hiv, hout⟩

/-! ## A session -/

/-- A call of a session: the process serves the request and goes on. -/
def Serves (g : Gcm) (F : FloatOps) (r : OpsProcess) (call : Request × Reply) (r' : OpsProcess) :
    Prop :=
  sendRequest g F call.1 r = some call.2 ∧ call.2.process = r'

/-- The IV of the ciphertext that a call has delivered. -/
def deliveredIv (g : Gcm) (call : Request × Reply) : Option (List UInt8) :=
  if call.2.resp = 0 then (call.1.cipherResult g call.2.result).map Gcm.ivOf else none

/-- The IVs of a session are increments of its first one, and their numbers go up. -/
theorem exists_indices (hg : g.IntCodes) {r r' : OpsProcess} {calls : List (Request × Reply)}
    (h : Follows (Serves g F) r calls r') : ∃ is : List ℕ, is.Pairwise (· < ·) ∧
      (∀ i ∈ is, i < 2 * calls.length) ∧
      calls.filterMap (deliveredIv g) = is.map fun i => (increment^[i + 1] r.iv).bytes := by
  induction h with
  | nil r => exact ⟨[], .nil, by simp, rfl⟩
  | @cons r r₁ _ call calls hserve _ ih =>
    obtain ⟨hsend, rfl⟩ := hserve
    obtain ⟨is, hsorted, hbound, his⟩ := ih
    obtain ⟨k, hk, hiv, hout⟩ := sendRequest_counts hg hsend
    have hshift : calls.filterMap (deliveredIv g) =
        (is.map (· + k)).map fun i => (increment^[i + 1] r.iv).bytes := by
      rw [his, hiv, List.map_map]
      refine List.map_congr_left fun i _ => ?_
      rw [← Function.iterate_add_apply, Function.comp, Nat.add_right_comm]
    have hsorted' : (is.map (· + k)).Pairwise (· < ·) :=
      hsorted.map _ fun i j hij => Nat.add_lt_add_right hij k
    have hbound' : ∀ i ∈ is.map (· + k), k ≤ i ∧ i < 2 * (calls.length + 1) := by
      intro i hi
      obtain ⟨j, hj, rfl⟩ := List.mem_map.1 hi
      have := hbound j hj
      omega
    rw [List.length_cons, List.filterMap_cons]
    cases hd : deliveredIv g call with
    | none => exact ⟨_, hsorted', fun i hi => (hbound' i hi).2, hshift⟩
    | some bs =>
      unfold deliveredIv at hd
      split_ifs at hd with hresp
      obtain ⟨out, hcipher, rfl⟩ := Option.map_eq_some_iff.1 hd
      obtain ⟨hpos, hhead⟩ := hout out hcipher hresp
      refine ⟨0 :: is.map (· + k), ?_, ?_, ?_⟩
      · exact List.pairwise_cons.2 ⟨fun i hi => hpos.trans_le (hbound' i hi).1, hsorted'⟩
      · rintro i (_ | ⟨_, hi⟩)
        · omega
        · exact (hbound' i hi).2
      · rw [List.map_cons, ← hshift, hhead]
        rfl

/-- **No IV is delivered twice in a session.** A child serves any requests, one after the other, and
fewer than `2 ^ 95` of them. Then the ciphertexts that the calls deliver all have different IVs. -/
theorem session_ivs_nodup (g : Gcm) (F : FloatOps) (hg : g.IntCodes) (r r' : OpsProcess)
    (calls : List (Request × Reply)) (h : Follows (Serves g F) r calls r')
    (hlen : calls.length < 2 ^ 95) : (calls.filterMap (deliveredIv g)).Nodup := by
  obtain ⟨is, hsorted, hbound, his⟩ := exists_indices hg h
  have hsize : 256 ^ ivSize = 2 ^ 96 := by norm_num [ivSize]
  rw [his]
  refine List.Nodup.map_on (fun i hi j hj hij => ?_) (hsorted.imp Nat.ne_of_lt)
  have hnum : ivNumber (increment^[i] (increment r.iv)) =
      ivNumber (increment^[j] (increment r.iv)) :=
    congrArg (fun bs : List UInt8 => leNat bs.reverse) hij
  have := hbound i hi
  have := hbound j hj
  exact index_eq_of_ivNumber_eq _ (by omega) (by omega) hnum

theorem session_ivs_nodup_two : ∃ (plain : Bytes Fam.int.plainSize) (a b : Reply),
    Follows (Serves .identity .null) .zero [(.enc .int plain, a), (.enc .int plain, b)] b.process ∧
    deliveredIv .identity (.enc .int plain, a) = some (Gcm.ivOf a.result) ∧
    deliveredIv .identity (.enc .int plain, b) = some (Gcm.ivOf b.result) ∧
    ([(Request.enc .int plain, a), (.enc .int plain, b)].filterMap
      (deliveredIv .identity)).Nodup := by
  obtain ⟨plain⟩ : Nonempty (Bytes Fam.int.plainSize) := ⟨⟨intBytes 7, length_intBytes 7⟩⟩
  have ha : plainCall .identity .null (.enc .int plain) = some (.cipher plain.bytes) := rfl
  obtain ⟨a, hsend, hresp, -⟩ := sendRequest_simulates ha .zero
  obtain ⟨b, hsend', hresp', -⟩ := sendRequest_simulates ha a.process
  have hsession : Follows (Serves .identity .null) .zero
      [(.enc .int plain, a), (.enc .int plain, b)] b.process :=
    .cons ⟨hsend, rfl⟩ (.cons ⟨hsend', rfl⟩ (.nil _))
  refine ⟨plain, a, b, hsession, ?_, ?_, session_ivs_nodup .identity .null Gcm.identity_intCodes
    _ _ _ hsession (by norm_num)⟩
  · rw [deliveredIv, if_pos hresp]
    rfl
  · rw [deliveredIv, if_pos hresp']
    rfl

end HEDB
