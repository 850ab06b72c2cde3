import HEDB.PlainOps.Ieee
import HEDB.Udf.Averages
import HEDB.Udf.Outputs
import HEDB.Udf.Picks

/-!
# The order of encrypted floats

The operators of the btree class of `enc_float4` all send one comparison and test its sign, and the
aggregates `min` and `max` keep one of two values by it. `plain_float_cmp` returns 1 when the
operands are neither equal nor in order, so also for every pair with a NaN.

`TotallyOrdered` collects what an index and a parallel plan rely on, for the values of a column: the
laws of a total order, the declared negators and commutators, and aggregates that do not depend on
how the column is cut and ordered. A column has it exactly when none of its values is a NaN
(`totallyOrdered_iff`).
-/

namespace HEDB

/-! ## The comparison of floats -/

/-- The values other than NaN are in a linear order, and a comparison with a NaN is false. -/
structure FloatOps.Ordered (F : FloatOps) where
  NaN : UInt32 → Prop
  Val : Type
  order : LinearOrder Val
  val : UInt32 → Val
  eq_iff : ∀ x y, F.eq x y = true ↔ ¬ NaN x ∧ ¬ NaN y ∧ val x = val y
  lt_iff : ∀ x y, F.lt x y = true ↔ ¬ NaN x ∧ ¬ NaN y ∧ val x < val y

attribute [instance] FloatOps.Ordered.order

/-- The three outcomes of a comparison. -/
theorem plainFloatCmp_cases (F : FloatOps) (x y : UInt32) :
    plainFloatCmp F x y = -1 ∨ plainFloatCmp F x y = 0 ∨ plainFloatCmp F x y = 1 := by
  unfold plainFloatCmp
  split_ifs <;> simp

namespace FloatOps.Ordered

variable {F : FloatOps} (O : F.Ordered) {x y : UInt32}

theorem plainFloatCmp_eq_zero_iff :
    plainFloatCmp F x y = 0 ↔ ¬ O.NaN x ∧ ¬ O.NaN y ∧ O.val x = O.val y := by
  rw [← O.eq_iff, plainFloatCmp]
  split_ifs <;> simp_all

theorem plainFloatCmp_of_lt (hx : ¬ O.NaN x) (hy : ¬ O.NaN y) (h : O.val x < O.val y) :
    plainFloatCmp F x y = -1 := by
  have heq : ¬ F.eq x y = true := fun heq => h.ne ((O.eq_iff x y).1 heq).2.2
  rw [plainFloatCmp, if_neg heq, if_pos ((O.lt_iff x y).2 ⟨hx, hy, h⟩)]

theorem plainFloatCmp_of_gt (h : O.val y < O.val x) : plainFloatCmp F x y = 1 := by
  have heq : ¬ F.eq x y = true := fun heq => h.ne' ((O.eq_iff x y).1 heq).2.2
  have hlt : ¬ F.lt x y = true := fun hlt => h.asymm ((O.lt_iff x y).1 hlt).2.2
  rw [plainFloatCmp, if_neg heq, if_neg hlt]

theorem plainFloatCmp_nonpos_iff (hx : ¬ O.NaN x) (hy : ¬ O.NaN y) :
    plainFloatCmp F x y ≤ 0 ↔ O.val x ≤ O.val y := by
  rcases lt_trichotomy (O.val x) (O.val y) with h | h | h
  · simp [O.plainFloatCmp_of_lt hx hy h, h.le]
  · simp [O.plainFloatCmp_eq_zero_iff.2 ⟨hx, hy, h⟩, h.le]
  · simp [O.plainFloatCmp_of_gt h, h]

/-- Numbers compare the other way round with the other sign. -/
theorem plainFloatCmp_swap (hx : ¬ O.NaN x) (hy : ¬ O.NaN y) :
    plainFloatCmp F y x = -plainFloatCmp F x y := by
  rcases lt_trichotomy (O.val x) (O.val y) with h | h | h
  · rw [O.plainFloatCmp_of_lt hx hy h, O.plainFloatCmp_of_gt h, neg_neg]
  · rw [O.plainFloatCmp_eq_zero_iff.2 ⟨hx, hy, h⟩, O.plainFloatCmp_eq_zero_iff.2 ⟨hy, hx, h.symm⟩,
      neg_zero]
  · rw [O.plainFloatCmp_of_lt hy hx h, O.plainFloatCmp_of_gt h]

end FloatOps.Ordered

/-- The order of binary32. -/
def FloatOps.ieeeOrdered : FloatOps.ieee.Ordered where
  NaN := Binary32.IsNaN
  Val := ℤ
  order := inferInstance
  val := Binary32.key
  eq_iff _ _ := decide_eq_true_iff
  lt_iff _ _ := decide_eq_true_iff

namespace Udf

/-! ## The functions -/

/-- The `EncFloat` of a value. -/
abbrev EncFloat : Type := Bytes encFloat4Length

section Functions

variable (g : Gcm) (F : FloatOps)

/-- A comparison of two ciphertexts. -/
def callCmp (f : Fam) (left right : Bytes f.size) : Sends ℤ := ExceptT.mk fun c => do
  let reply ← sendRequest g F (.cmp f left right) c.process
  some (if reply.resp ≠ 0 then .error reply.resp else .ok (bytesInt reply.result),
    ⟨reply.process, c.sent ++ [.cmp f left right]⟩)

/-- `enc_float_cmp`. -/
def encFloatCmp (f1 f2 : EncFloat) : Sends ℤ := callCmp g F .float f1 f2

/-- An operator: a test of the comparison. -/
def encFloat4Test (test : ℤ → Bool) (f1 f2 : EncFloat) : Sends Bool := do
  let cmp ← encFloatCmp g F f1 f2
  return test cmp

/-- `enc_float4_eq`. -/
def encFloat4Eq := encFloat4Test g F fun cmp => cmp = 0

/-- `enc_float4_ne`. -/
def encFloat4Ne := encFloat4Test g F fun cmp => cmp ≠ 0

/-- `enc_float4_lt`. -/
def encFloat4Lt := encFloat4Test g F fun cmp => cmp = -1

/-- `enc_float4_le`. -/
def encFloat4Le := encFloat4Test g F fun cmp => cmp ≤ 0

/-- `enc_float4_gt`. -/
def encFloat4Gt := encFloat4Test g F fun cmp => cmp = 1

/-- `enc_float4_ge`. -/
def encFloat4Ge := encFloat4Test g F fun cmp => cmp ≥ 0

/-- `enc_float4_cmp`. -/
def encFloat4Cmp := encFloatCmp g F

/-- `enc_float4_max`. -/
def encFloat4Max (f1 f2 : EncFloat) : Sends EncFloat := do
  let cmp ← encFloatCmp g F f1 f2
  return if cmp = 1 then f1 else f2

/-- `enc_float4_min`. -/
def encFloat4Min (f1 f2 : EncFloat) : Sends EncFloat := do
  let cmp ← encFloatCmp g F f1 f2
  return if cmp = 1 then f2 else f1

end Functions

/-! ## Columns -/

section Columns

variable (g : Gcm) (F : FloatOps)

/-- Two results of an aggregate compare as equal. -/
def SameResult : Option EncFloat → Option EncFloat → Prop
  | none, none => True
  | some a, some b => Returns (encFloat4Cmp g F a b) 0
  | _, _ => False

/-- The aggregate gives an equal result for every order and every partition of a multiset of
values of the column. -/
def Independent (cs : List EncFloat) (sfunc : EncFloat → EncFloat → Sends EncFloat) : Prop :=
  ∀ parts parts' : List (List EncFloat), (∀ c ∈ parts.flatten, c ∈ cs) →
    parts.flatten.Perm parts'.flatten →
    ∃ r r', Returns (aggregateParallel sfunc parts) r ∧
      Returns (aggregateParallel sfunc parts') r' ∧
      SameResult g F r r'

/-- **The values of a column are totally ordered.** -/
structure TotallyOrdered (cs : List EncFloat) : Prop where
  refl : ∀ a ∈ cs, Returns (encFloat4Cmp g F a a) 0
  antisymm : ∀ a ∈ cs, ∀ b ∈ cs, ∃ k l, Returns (encFloat4Cmp g F a b) k ∧
    Returns (encFloat4Cmp g F b a) l ∧ k.sign = -l.sign
  trans : ∀ a ∈ cs, ∀ b ∈ cs, ∀ c ∈ cs, ∃ k l m, Returns (encFloat4Cmp g F a b) k ∧
    Returns (encFloat4Cmp g F b c) l ∧ Returns (encFloat4Cmp g F a c) m ∧ (k ≤ 0 → l ≤ 0 → m ≤ 0)
  operators : ∀ a ∈ cs, ∀ b ∈ cs, ∃ k, Returns (encFloat4Cmp g F a b) k ∧
    Returns (encFloat4Eq g F a b) (k = 0) ∧ Returns (encFloat4Ne g F a b) (k ≠ 0) ∧
    Returns (encFloat4Lt g F a b) (k < 0) ∧ Returns (encFloat4Le g F a b) (k ≤ 0) ∧
    Returns (encFloat4Gt g F a b) (0 < k) ∧ Returns (encFloat4Ge g F a b) (0 ≤ k)
  negators : ∀ a ∈ cs, ∀ b ∈ cs, ∃ eq lt le,
    Returns (encFloat4Eq g F a b) eq ∧ Returns (encFloat4Ne g F a b) (!eq) ∧
    Returns (encFloat4Lt g F a b) lt ∧ Returns (encFloat4Ge g F a b) (!lt) ∧
    Returns (encFloat4Le g F a b) le ∧ Returns (encFloat4Gt g F a b) (!le)
  commutators : ∀ a ∈ cs, ∀ b ∈ cs, ∃ eq ne lt le,
    Returns (encFloat4Eq g F a b) eq ∧ Returns (encFloat4Eq g F b a) eq ∧
    Returns (encFloat4Ne g F a b) ne ∧ Returns (encFloat4Ne g F b a) ne ∧
    Returns (encFloat4Lt g F a b) lt ∧ Returns (encFloat4Gt g F b a) lt ∧
    Returns (encFloat4Le g F a b) le ∧ Returns (encFloat4Ge g F b a) le
  max : Independent g F cs (encFloat4Max g F)
  min : Independent g F cs (encFloat4Min g F)

end Columns

variable {g : Gcm} {F : FloatOps} {a b : EncFloat} {x y : UInt32}

theorem isInt_plainCmp (F : FloatOps) (f : Fam) (x y : List UInt8) : IsInt (plainCmp F f x y) := by
  cases f <;>
  · simp only [plainCmp, plainInt32Cmp, plainFloatCmp, plainTimestampCmp]
    split_ifs <;> decide

/-- The comparison of two ciphertexts returns that of the plaintexts. -/
theorem returns_callCmp {f : Fam} {left right : Bytes f.size} {p q : List UInt8}
    (hp : g.Decrypts left.bytes p) (hq : g.Decrypts right.bytes q) :
    Returns (callCmp g F f left right) (plainCmp F f p q) := by
  intro c
  obtain ⟨served, hcmd, hdel⟩ := answers_cmp (F := F) (in_sent (.cmp f left right) c.process) hp hq
  obtain ⟨reply, hsend, hresp, hresult⟩ := sendRequest_eq (by decide) hcmd
  refine ⟨⟨reply.process, c.sent ++ [.cmp f left right]⟩, ?_⟩
  have hbytes : reply.result = intBytes (plainCmp F f p q) := hresult.trans hdel
  rw [callCmp, ExceptT.mk, hsend, Option.bind_eq_bind, Option.bind_some,
    if_neg (not_not.2 hresp), hbytes, bytesInt_intBytes (isInt_plainCmp F f p q)]

theorem returns_encFloatCmp (ha : g.Decrypts a.bytes (floatBytes x))
    (hb : g.Decrypts b.bytes (floatBytes y)) :
    Returns (encFloatCmp g F a b) (plainFloatCmp F x y) := by
  have h := returns_callCmp (F := F) (f := .float) ha hb
  rwa [plainCmp, bytesFloat_floatBytes, bytesFloat_floatBytes] at h

theorem returns_encFloat4Test {test : ℤ → Bool} {k : ℤ} {v : Bool}
    (h : Returns (encFloatCmp g F a b) k) (hv : test k = v) :
    Returns (encFloat4Test g F test a b) v :=
  hv ▸ h.bind (returns_pure _)

/-! ## Numbers -/

/-- The float in a ciphertext. -/
def plainFloat (g : Gcm) (c : EncFloat) : UInt32 := bytesFloat (g.gcmDecrypt c.bytes).2

theorem plainFloat_eq (h : g.Decrypts a.bytes (floatBytes x)) : plainFloat g a = x := by
  rw [plainFloat, show g.gcmDecrypt a.bytes = (0, floatBytes x) from h, bytesFloat_floatBytes]

/-- A ciphertext of a float other than NaN. -/
structure Number (g : Gcm) (O : F.Ordered) (c : EncFloat) : Prop where
  decrypts : g.Decrypts c.bytes (floatBytes (plainFloat g c))
  not_nan : ¬ O.NaN (plainFloat g c)

variable {O : F.Ordered}

/-- The comparison of two ciphertexts, on the floats in them. -/
def cmpOf (g : Gcm) (F : FloatOps) (a b : EncFloat) : ℤ :=
  plainFloatCmp F (plainFloat g a) (plainFloat g b)

theorem cmpOf_cases (g : Gcm) (F : FloatOps) (a b : EncFloat) :
    cmpOf g F a b = -1 ∨ cmpOf g F a b = 0 ∨ cmpOf g F a b = 1 :=
  plainFloatCmp_cases ..

/-- The value of the float in a ciphertext. -/
def valOf (g : Gcm) (O : F.Ordered) (c : EncFloat) : O.Val := O.val (plainFloat g c)

namespace Number

theorem returns (ha : Number g O a) (hb : Number g O b) :
    Returns (encFloatCmp g F a b) (cmpOf g F a b) :=
  returns_encFloatCmp ha.decrypts hb.decrypts

theorem cmpOf_eq_zero_iff (ha : Number g O a) (hb : Number g O b) :
    cmpOf g F a b = 0 ↔ valOf g O a = valOf g O b := by
  rw [cmpOf, O.plainFloatCmp_eq_zero_iff, and_iff_right ha.not_nan, and_iff_right hb.not_nan]
  rfl

theorem cmpOf_eq_one_iff (ha : Number g O a) (hb : Number g O b) :
    cmpOf g F a b = 1 ↔ valOf g O b < valOf g O a := by
  have hle := O.plainFloatCmp_nonpos_iff ha.not_nan hb.not_nan
  rw [← not_le, valOf, valOf, ← hle, cmpOf]
  have := cmpOf_cases g F a b
  rw [cmpOf] at this
  omega

theorem cmpOf_swap (ha : Number g O a) (hb : Number g O b) : cmpOf g F b a = -cmpOf g F a b :=
  O.plainFloatCmp_swap ha.not_nan hb.not_nan

end Number

/-- `enc_float4_max` picks by the order of the values. -/
theorem picks_encFloat4Max : Picks (Number g O) (valOf g O) (encFloat4Max g F) := by
  intro a b ha hb
  refine ⟨_, (ha.returns hb).bind (returns_pure _), ?_⟩
  split_ifs with h
  · have hlt := (ha.cmpOf_eq_one_iff hb).1 h
    exact ⟨.inl rfl, le_rfl, hlt.le⟩
  · have hle := not_lt.1 (mt (ha.cmpOf_eq_one_iff hb).2 h)
    exact ⟨.inr rfl, hle, le_rfl⟩

/-- `enc_float4_min` picks by the opposite order. -/
theorem picks_encFloat4Min :
    Picks (Number g O) (fun c => OrderDual.toDual (valOf g O c)) (encFloat4Min g F) := by
  intro a b ha hb
  refine ⟨_, (ha.returns hb).bind (returns_pure _), ?_⟩
  split_ifs with h
  · have hlt := (ha.cmpOf_eq_one_iff hb).1 h
    exact ⟨.inr rfl, OrderDual.toDual_le_toDual.2 hlt.le, le_rfl⟩
  · have hle := not_lt.1 (mt (ha.cmpOf_eq_one_iff hb).2 h)
    exact ⟨.inl rfl, le_rfl, OrderDual.toDual_le_toDual.2 hle⟩

section Independent

variable {V : Type} [PartialOrder V] {key : EncFloat → V}
  {sfunc : EncFloat → EncFloat → Sends EncFloat} {cs : List EncFloat}

/-- Aggregates that pick by the value do not depend on the plan. -/
theorem Picks.independent (h : Picks (Number g O) key sfunc)
    (hkey : ∀ a b, key a = key b → valOf g O a = valOf g O b) (hcs : ∀ c ∈ cs, Number g O c) :
    Independent g F cs sfunc := by
  intro parts parts' hparts hperm
  obtain ⟨r, hr, hbest⟩ := h.aggregateParallel fun c hc => hcs c (hparts c hc)
  have hparts' : ∀ c ∈ parts'.flatten, Number g O c := fun c hc =>
    hcs c (hparts c (hperm.mem_iff.2 hc))
  obtain ⟨r', hr', hbest'⟩ := h.aggregateParallel hparts'
  refine ⟨r, r', hr, hr', ?_⟩
  have hkeys := hbest.map_key_eq hbest' hperm
  match r, r' with
  | none, none => trivial
  | none, some _ => simp at hkeys
  | some _, none => simp at hkeys
  | some a, some b =>
    have ha := hcs a (hparts a hbest.1)
    have hb := hcs b (hparts b (hperm.mem_iff.2 hbest'.1))
    have hval := hkey a b (Option.some.inj hkeys)
    show Returns (encFloatCmp g F a b) 0
    rw [← (ha.cmpOf_eq_zero_iff hb).2 hval]
    exact ha.returns hb

end Independent

/-! ## Total orders -/

variable {cs : List EncFloat}

/-- A column of numbers is totally ordered. -/
theorem totallyOrdered_of_numbers (hcs : ∀ c ∈ cs, Number g O c) : TotallyOrdered g F cs where
  refl a ha := by
    have h := hcs a ha
    rw [← (h.cmpOf_eq_zero_iff h).2 rfl]
    exact h.returns h
  antisymm a ha b hb := by
    refine ⟨_, _, (hcs a ha).returns (hcs b hb), (hcs b hb).returns (hcs a ha), ?_⟩
    rw [(hcs a ha).cmpOf_swap (hcs b hb), Int.sign_neg, neg_neg]
  trans a ha b hb c hc := by
    refine ⟨_, _, _, (hcs a ha).returns (hcs b hb), (hcs b hb).returns (hcs c hc),
      (hcs a ha).returns (hcs c hc), ?_⟩
    simp only [cmpOf, O.plainFloatCmp_nonpos_iff, (hcs a ha).not_nan, (hcs b hb).not_nan,
      (hcs c hc).not_nan, not_false_eq_true]
    exact le_trans
  operators a ha b hb := by
    have h := (hcs a ha).returns (hcs b hb)
    have hcases := cmpOf_cases g F a b
    refine ⟨_, h, returns_encFloat4Test h rfl, returns_encFloat4Test h rfl,
      returns_encFloat4Test h ?_, returns_encFloat4Test h rfl, returns_encFloat4Test h ?_,
      returns_encFloat4Test h rfl⟩ <;>
    · rw [decide_eq_decide]
      omega
  negators a ha b hb := by
    have h := (hcs a ha).returns (hcs b hb)
    have hcases := cmpOf_cases g F a b
    refine ⟨_, _, _, returns_encFloat4Test h rfl, returns_encFloat4Test h ?_,
      returns_encFloat4Test h rfl, returns_encFloat4Test h ?_, returns_encFloat4Test h rfl,
      returns_encFloat4Test h ?_⟩ <;>
    rw [← decide_not, decide_eq_decide] <;>
    omega
  commutators a ha b hb := by
    have h := (hcs a ha).returns (hcs b hb)
    have h' := (hcs b hb).returns (hcs a ha)
    rw [(hcs a ha).cmpOf_swap (hcs b hb)] at h'
    refine ⟨_, _, _, _, returns_encFloat4Test h rfl, returns_encFloat4Test h' ?_,
      returns_encFloat4Test h rfl, returns_encFloat4Test h' ?_, returns_encFloat4Test h rfl,
      returns_encFloat4Test h' ?_, returns_encFloat4Test h rfl, returns_encFloat4Test h' ?_⟩ <;>
    · rw [decide_eq_decide]
      omega
  max := picks_encFloat4Max.independent (fun _ _ h => h) hcs
  min := picks_encFloat4Min.independent (fun _ _ h => OrderDual.toDual.injective h) hcs

/-- **A column is totally ordered exactly when none of its values is a NaN.** -/
theorem totallyOrdered_iff (g : Gcm) (F : FloatOps) (O : F.Ordered) (cs : List EncFloat)
    (hcs : ∀ c ∈ cs, ∃ x, g.Decrypts c.bytes (floatBytes x)) :
    TotallyOrdered g F cs ↔
      ∀ c ∈ cs, ∀ x, g.Decrypts c.bytes (floatBytes x) → ¬ O.NaN x := by
  constructor
  · intro h c hc x hx
    have hzero := (returns_encFloatCmp hx hx).eq (h.refl c hc)
    exact (O.plainFloatCmp_eq_zero_iff.1 hzero).1
  · intro h
    refine totallyOrdered_of_numbers (O := O) fun c hc => ?_
    obtain ⟨x, hx⟩ := hcs c hc
    have hplain := plainFloat_eq hx
    exact ⟨hplain ▸ hx, hplain ▸ h c hc x hx⟩

/-- A column of an infinity and a zero. -/
theorem totallyOrdered_infinity : ∃ a b : EncFloat,
    Gcm.identity.Decrypts a.bytes (floatBytes 0xff800000) ∧
    Gcm.identity.Decrypts b.bytes (floatBytes 0x80000000) ∧
    TotallyOrdered Gcm.identity FloatOps.ieee [a, b] := by
  obtain ⟨a, ha⟩ := exists_cipher_float Gcm.identity 0xff800000
  obtain ⟨b, hb⟩ := exists_cipher_float Gcm.identity 0x80000000
  refine ⟨a, b, ha, hb, (totallyOrdered_iff _ _ FloatOps.ieeeOrdered _ ?_).2 ?_⟩
  · simp only [List.forall_mem_cons]
    exact ⟨⟨_, ha⟩, ⟨_, hb⟩, nofun⟩
  · simp only [List.forall_mem_cons]
    refine ⟨fun x hx => ?_, fun x hx => ?_, nofun⟩
    · rw [← plainFloat_eq hx, plainFloat_eq ha]
      exact (by decide : ¬ Binary32.IsNaN 0xff800000)
    · rw [← plainFloat_eq hx, plainFloat_eq hb]
      exact (by decide : ¬ Binary32.IsNaN 0x80000000)

/-- **A NaN is not equal to itself, and the maximum depends on where it stands.** -/
theorem nan_unordered : ∃ a b : EncFloat,
    Gcm.identity.Decrypts a.bytes (floatBytes 0x7fc00000) ∧
    Gcm.identity.Decrypts b.bytes (floatBytes 0x3f800000) ∧
    Returns (encFloat4Cmp Gcm.identity FloatOps.ieee a a) 1 ∧
    Returns (encFloat4Cmp Gcm.identity FloatOps.ieee a b) 1 ∧
    Returns (encFloat4Cmp Gcm.identity FloatOps.ieee b a) 1 ∧
    Returns (aggregate (encFloat4Max Gcm.identity FloatOps.ieee) [a, b]) (some a) ∧
    Returns (aggregate (encFloat4Max Gcm.identity FloatOps.ieee) [b, a]) (some b) ∧
    ¬ TotallyOrdered Gcm.identity FloatOps.ieee [a, b] := by
  obtain ⟨a, ha⟩ := exists_cipher_float Gcm.identity 0x7fc00000
  obtain ⟨b, hb⟩ := exists_cipher_float Gcm.identity 0x3f800000
  have haa : Returns (encFloatCmp Gcm.identity FloatOps.ieee a a) 1 := returns_encFloatCmp ha ha
  have hab : Returns (encFloatCmp Gcm.identity FloatOps.ieee a b) 1 := returns_encFloatCmp ha hb
  have hba : Returns (encFloatCmp Gcm.identity FloatOps.ieee b a) 1 := returns_encFloatCmp hb ha
  refine ⟨a, b, ha, hb, haa, hab, hba, ?_, ?_, fun h => ?_⟩
  · exact Returns.bind (Returns.bind (hab.bind (returns_pure _)) (returns_pure _)) (returns_pure _)
  · exact Returns.bind (Returns.bind (hba.bind (returns_pure _)) (returns_pure _)) (returns_pure _)
  · exact absurd (haa.eq (h.refl a List.mem_cons_self)) one_ne_zero

end Udf

end HEDB
