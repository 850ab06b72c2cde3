import HEDB.Udf.Operators

/-!
# Scripts over encrypted columns

A client of the database works on the encrypted columns with the functions of their types alone. It
names the values that it has, gets a new value from each call, and may go on as the answer of a
comparison says. `Script` is such a client, `run` executes it with the functions of the extension on
ciphertexts, and `eval` is its meaning on plaintexts.

Every script does on ciphertexts what it means on plaintexts (`script_simulates`). It takes the same
branches, returns the same result and leaves ciphertexts of the same values; and it has no defined
run exactly when one of its operations is undefined.
-/

namespace HEDB

namespace Udf

/-! ## Scripts -/

/-- The comparison operators. -/
inductive CmpOp
  | eq | ne | lt | le | gt | ge
  deriving DecidableEq, Repr

/-- The functions that return one of their arguments. -/
inductive PickOp
  | max | min
  deriving DecidableEq, Repr

/-- A script that returns a `ρ`. The values of a type are numbered. -/
inductive Script (ρ : Type)
  | ret (result : ρ)
  | encrypt (f : Fam) (plaintext : Bytes f.plainSize) (next : ℕ → Script ρ)
  | decrypt (f : Fam) (value : ℕ) (next : List UInt8 → Script ρ)
  | arith (n : Num) (op : CalcOp) (left right : ℕ) (next : ℕ → Script ρ)
  | compare (f : Fam) (op : CmpOp) (left right : ℕ) (next : Bool → Script ρ)
  | pick (n : Num) (op : PickOp) (left right : ℕ) (next : ℕ → Script ρ)
  | sum (n : Num) (values : List ℕ) (next : ℕ → Script ρ)
  | year (timestamp : ℕ) (next : ℕ → Script ρ)

/-- The values of each type. -/
abbrev Store (α : Fam → Type) : Type := (f : Fam) → List (α f)

def Store.push {α : Fam → Type} (s : Store α) (f : Fam) (v : α f) : Store α :=
  Function.update s f (s f ++ [v])

abbrev Cells : Type := Store fun f => Bytes f.size

abbrev Plains : Type := Store fun _ => List UInt8

/-! ## On ciphertexts -/

section Functions

variable (g : Gcm) (F : FloatOps)

/-- The function of an arithmetic operator. -/
def calcFun : (n : Num) → CalcOp → Bytes n.fam.size → Bytes n.fam.size → Sends (Bytes n.fam.size)
  | .int, .plus => encInt4Add g F
  | .int, .minus => encInt4Sub g F
  | .int, .mult => encInt4Mult g F
  | .int, .div => encInt4Div g F
  | .int, .pow => encInt4Pow g F
  | .int, .mod => encInt4Mod g F
  | .float, .plus => encFloat4Add g F
  | .float, .minus => encFloat4Subs g F
  | .float, .mult => encFloat4Mult g F
  | .float, .div => encFloat4Div g F
  | .float, .pow => encFloat4Exp g F
  | .float, .mod => encFloat4Mod g F

/-- The function of a comparison operator. -/
def compareFun : (f : Fam) → CmpOp → Bytes f.size → Bytes f.size → Sends Bool
  | .int, .eq => encInt4Eq g F
  | .int, .ne => encInt4Ne g F
  | .int, .lt => encInt4Lt g F
  | .int, .le => encInt4Le g F
  | .int, .gt => encInt4Gt g F
  | .int, .ge => encInt4Ge g F
  | .float, .eq => encFloat4Eq g F
  | .float, .ne => encFloat4Ne g F
  | .float, .lt => encFloat4Lt g F
  | .float, .le => encFloat4Le g F
  | .float, .gt => encFloat4Gt g F
  | .float, .ge => encFloat4Ge g F
  | .timestamp, .eq => encTimestampEq g F
  | .timestamp, .ne => encTimestampNe g F
  | .timestamp, .lt => encTimestampLt g F
  | .timestamp, .le => encTimestampLe g F
  | .timestamp, .gt => encTimestampGt g F
  | .timestamp, .ge => encTimestampGe g F

/-- The transition function of `max` and `min`. -/
def pickFun : (n : Num) → PickOp → Bytes n.fam.size → Bytes n.fam.size → Sends (Bytes n.fam.size)
  | .int, .max => encInt4Max g F
  | .int, .min => encInt4Min g F
  | .float, .max => encFloat4Max g F
  | .float, .min => encFloat4Min g F

/-- The final function of `sum`, with the bytes of its window. -/
def sumFun (stack : (n : Num) → ℕ → Bytes n.size) :
    (n : Num) → List (Bytes n.fam.size) → Sends (Bytes n.fam.size)
  | .int => encInt4SumBulk g F (stack .int)
  | .float => encFloat4SumBulk g F (stack .float)

/-- A script on the encrypted columns. -/
def Script.run {ρ : Type} (stack : (n : Num) → ℕ → Bytes n.size) :
    Script ρ → Cells → Sends (ρ × Cells)
  | .ret result, cells => return (result, cells)
  | .encrypt f plaintext next, cells => do
    let res ← encEncrypt g F f plaintext
    (next (cells f).length).run stack (cells.push f res)
  | .decrypt f value next, cells => do
    let v ← orWrong (cells f)[value]?
    (next (← encDecrypt g F f v)).run stack cells
  | .arith n op left right next, cells => do
    let l ← orWrong (cells n.fam)[left]?
    let r ← orWrong (cells n.fam)[right]?
    let res ← calcFun g F n op l r
    (next (cells n.fam).length).run stack (cells.push n.fam res)
  | .compare f op left right next, cells => do
    let l ← orWrong (cells f)[left]?
    let r ← orWrong (cells f)[right]?
    (next (← compareFun g F f op l r)).run stack cells
  | .pick n op left right next, cells => do
    let l ← orWrong (cells n.fam)[left]?
    let r ← orWrong (cells n.fam)[right]?
    let res ← pickFun g F n op l r
    (next (cells n.fam).length).run stack (cells.push n.fam res)
  | .sum n values next, cells => do
    let array ← orWrong (values.mapM fun i => (cells n.fam)[i]?)
    let res ← sumFun g F stack n array
    (next (cells n.fam).length).run stack (cells.push n.fam res)
  | .year timestamp next, cells => do
    let t ← orWrong (cells .timestamp)[timestamp]?
    let res ← datePart g F "year".toUTF8.toList t
    (next (cells .int).length).run stack (cells.push .int res)

end Functions

/-! ## On plaintexts -/

/-- What a comparison operator asks of a comparison. -/
def CmpOp.test : CmpOp → ℤ → Bool
  | .eq, cmp => cmp = 0
  | .ne, cmp => cmp ≠ 0
  | .lt, cmp => cmp < 0
  | .le, cmp => cmp ≤ 0
  | .gt, cmp => 0 < cmp
  | .ge, cmp => 0 ≤ cmp

/-- Whether the left argument is returned. The types differ on arguments that compare as equal. -/
def PickOp.keep : Num → PickOp → ℤ → Bool
  | _, .max, cmp => 0 < cmp
  | .int, .min, cmp => cmp < 0
  | .float, .min, cmp => cmp ≤ 0

/-- The meaning of a script. -/
def Script.eval {ρ : Type} (F : FloatOps) : Script ρ → Plains → Option (ρ × Plains)
  | .ret result, plains => some (result, plains)
  | .encrypt f plaintext next, plains =>
    (next (plains f).length).eval F (plains.push f plaintext.bytes)
  | .decrypt f value next, plains => do
    let v ← (plains f)[value]?
    (next v).eval F plains
  | .arith n op left right next, plains => do
    let l ← (plains n.fam)[left]?
    let r ← (plains n.fam)[right]?
    let res ← plainCalc F n op l r
    (next (plains n.fam).length).eval F (plains.push n.fam res)
  | .compare f op left right next, plains => do
    let l ← (plains f)[left]?
    let r ← (plains f)[right]?
    (next (op.test (plainCmp F f l r))).eval F plains
  | .pick n op left right next, plains => do
    let l ← (plains n.fam)[left]?
    let r ← (plains n.fam)[right]?
    (next (plains n.fam).length).eval F
      (plains.push n.fam (if op.keep n (plainCmp F n.fam l r) then l else r))
  | .sum n values next, plains => do
    let array ← values.mapM fun i => (plains n.fam)[i]?
    let res ← windowedSum HEDB.bulkSize (plainSumBulk F n) array
    (next (plains n.fam).length).eval F (plains.push n.fam res)
  | .year timestamp next, plains => do
    let t ← (plains .timestamp)[timestamp]?
    (next (plains .int).length).eval F
      (plains.push .int (intBytes (plainTimestampExtractYear (bytesInt64 t))))

/-! ## The simulation -/

variable {g : Gcm} {F : FloatOps} {p q : List UInt8}

theorem plainCmp_cases (F : FloatOps) (f : Fam) (x y : List UInt8) :
    plainCmp F f x y = -1 ∨ plainCmp F f x y = 0 ∨ plainCmp F f x y = 1 := by
  cases f <;> simp only [plainCmp, plainInt32Cmp, plainFloatCmp, plainTimestampCmp] <;>
    split_ifs <;> simp

section Functions

variable {n : Num} {f : Fam}

theorem simulates_calcFun (op : CalcOp) {left right : Bytes n.fam.size} (hp : Carries g left p)
    (hq : Carries g right q) :
    Simulates (Carries g) (calcFun g F n op left right) (plainCalc F n op p q) := by
  cases n with
  | int => cases op <;> exact simulates_encCalc (n := .int) hp hq _
  | float => cases op <;> exact simulates_encCalc (n := .float) hp hq _

theorem simulates_compareFun (op : CmpOp) {left right : Bytes f.size} (hp : Carries g left p)
    (hq : Carries g right q) :
    Simulates (· = ·) (compareFun g F f op left right) (some (op.test (plainCmp F f p q))) := by
  have hcases := plainCmp_cases F f p q
  -- Every function tests the comparison, and its test agrees with the operator on -1, 0 and 1.
  obtain ⟨test, hfun, htest⟩ : ∃ test : ℤ → Bool,
      compareFun g F f op left right = encTest g F f test left right ∧
      ∀ cmp, cmp = -1 ∨ cmp = 0 ∨ cmp = 1 → test cmp = op.test cmp := by
    cases f <;> cases op <;> refine ⟨_, rfl, fun cmp hcmp => ?_⟩ <;>
      rcases hcmp with rfl | rfl | rfl <;> rfl
  rw [hfun, ← htest _ hcases]
  exact simulates_encTest hp hq test

theorem simulates_pickFun (op : PickOp) {left right : Bytes n.fam.size} (hp : Carries g left p)
    (hq : Carries g right q) :
    Simulates (Carries g) (pickFun g F n op left right)
      (some (if op.keep n (plainCmp F n.fam p q) then p else q)) := by
  obtain ⟨keep, hfun, hkeep⟩ : ∃ keep : ℤ → Bool,
      pickFun g F n op left right = encPick g F n.fam keep left right ∧
      ∀ cmp, cmp = -1 ∨ cmp = 0 ∨ cmp = 1 → keep cmp = op.keep n cmp := by
    cases n with
    | int =>
      cases op <;> refine ⟨_, rfl, fun cmp hcmp => ?_⟩ <;> rcases hcmp with rfl | rfl | rfl <;> rfl
    | float =>
      cases op with
      | max =>
        refine ⟨fun cmp => cmp = 1, encFloat4Max_eq left right, fun cmp hcmp => ?_⟩
        rcases hcmp with rfl | rfl | rfl <;> rfl
      | min =>
        refine ⟨fun cmp => cmp ≠ 1, encFloat4Min_eq left right, fun cmp hcmp => ?_⟩
        rcases hcmp with rfl | rfl | rfl <;> rfl
  rw [hfun, ← hkeep _ (plainCmp_cases F n.fam p q)]
  exact simulates_encPick hp hq keep

theorem simulates_sumFun (stack : (n : Num) → ℕ → Bytes n.size) {array : List (Bytes n.fam.size)}
    {ps : List (List UInt8)} (h : List.Forall₂ (Carries g) array ps) :
    Simulates (Carries g) (sumFun g F stack n array)
      (windowedSum HEDB.bulkSize (plainSumBulk F n) ps) := by
  cases n with
  | int => exact simulates_sumBulk (n := .int) h _
  | float => exact simulates_sumBulk (n := .float) h _

end Functions

/-- The cells are ciphertexts of the plaintexts. -/
def Cells.Encrypts (g : Gcm) (cells : Cells) (plains : Plains) : Prop :=
  ∀ f, List.Forall₂ (Carries g) (cells f) (plains f)

variable {cells : Cells} {plains : Plains}

theorem Cells.Encrypts.length_eq (h : cells.Encrypts g plains) (f : Fam) :
    (cells f).length = (plains f).length :=
  (h f).length_eq

theorem Cells.Encrypts.push (h : cells.Encrypts g plains) {f : Fam} {v : Bytes f.size}
    (hv : Carries g v p) : Cells.Encrypts g (cells.push f v) (plains.push f p) := by
  intro f'
  by_cases hf : f' = f
  · subst hf
    rw [Store.push, Store.push, Function.update_self, Function.update_self]
    exact List.rel_append (h f') (.cons hv .nil)
  · rw [Store.push, Store.push, Function.update_of_ne hf, Function.update_of_ne hf]
    exact h f'

/-- The result of a script on ciphertexts and on plaintexts. -/
def SameOutcome {ρ : Type} (g : Gcm) (out : ρ × Cells) (out' : ρ × Plains) : Prop :=
  out.1 = out'.1 ∧ out.2.Encrypts g out'.2

theorem simulates_run {ρ : Type} (stack : (n : Num) → ℕ → Bytes n.size) (s : Script ρ)
    (h : cells.Encrypts g plains) :
    Simulates (SameOutcome g) (s.run g F stack cells) (s.eval F plains) := by
  induction s generalizing cells plains with
  | ret result => exact simulates_pure ⟨rfl, h⟩
  | encrypt f plaintext next ih =>
    refine (simulates_encEncrypt plaintext).bind (k := fun p => (next _).eval F (plains.push f p))
      fun v p hv => ?_
    rw [h.length_eq]
    exact ih _ (h.push hv)
  | decrypt f value next ih =>
    refine (simulates_orWrong (rel_getElem? (h f) value)).bind fun v p hv => ?_
    refine (simulates_encDecrypt hv).bind (k := fun p => (next p).eval F plains) ?_
    rintro _ p rfl
    exact ih _ h
  | arith n op left right next ih =>
    refine (simulates_orWrong (rel_getElem? (h n.fam) left)).bind fun l p hp => ?_
    refine (simulates_orWrong (rel_getElem? (h n.fam) right)).bind fun r q hq => ?_
    refine (simulates_calcFun op hp hq).bind fun res t hres => ?_
    rw [h.length_eq]
    exact ih _ (h.push hres)
  | compare f op left right next ih =>
    refine (simulates_orWrong (rel_getElem? (h f) left)).bind fun l p hp => ?_
    refine (simulates_orWrong (rel_getElem? (h f) right)).bind fun r q hq => ?_
    refine (simulates_compareFun op hp hq).bind (k := fun b => (next b).eval F plains) ?_
    rintro _ b rfl
    exact ih _ h
  | pick n op left right next ih =>
    refine (simulates_orWrong (rel_getElem? (h n.fam) left)).bind fun l p hp => ?_
    refine (simulates_orWrong (rel_getElem? (h n.fam) right)).bind fun r q hq => ?_
    refine (simulates_pickFun op hp hq).bind
      (k := fun t => (next _).eval F (plains.push n.fam t)) fun res t hres => ?_
    rw [h.length_eq]
    exact ih _ (h.push hres)
  | sum n values next ih =>
    refine (simulates_orWrong (rel_mapM_getElem? (h n.fam) values)).bind fun array ps hps => ?_
    refine (simulates_sumFun stack hps).bind fun res t hres => ?_
    rw [h.length_eq]
    exact ih _ (h.push hres)
  | year timestamp next ih =>
    refine (simulates_orWrong (rel_getElem? (h .timestamp) timestamp)).bind fun v p hp => ?_
    refine (simulates_datePart hp).bind (k := fun t => (next _).eval F (plains.push .int t))
      fun res t hres => ?_
    rw [h.length_eq]
    exact ih _ (h.push hres)

/-- **Scripts do on ciphertexts what they mean on plaintexts.** -/
theorem script_simulates {ρ : Type} (g : Gcm) (F : FloatOps) (s : Script ρ)
    (stack : (n : Num) → ℕ → Bytes n.size) (cells : Cells) (plains : Plains)
    (h : cells.Encrypts g plains) (c : Client) :
    (∀ result plains', s.eval F plains = some (result, plains') → ∃ cells' c',
      s.run g F stack cells c = some (.ok (result, cells'), c') ∧ cells'.Encrypts g plains') ∧
    (s.eval F plains = none → s.run g F stack cells c = none) := by
  have hrun := simulates_run (F := F) stack s h c
  refine ⟨fun result plains' heval => ?_, fun heval => ?_⟩
  · rw [heval] at hrun
    obtain ⟨⟨_, cells'⟩, c', hrun, rfl, hcells'⟩ := hrun
    exact ⟨cells', c', hrun, hcells'⟩
  · rw [heval] at hrun
    exact hrun

/-- The column `{7, 5}`, of which the greater value is doubled. -/
theorem script_simulates_fourteen : ∃ (s : Script ℕ) (cells : Cells) (plains : Plains),
    cells.Encrypts .identity plains ∧ plains .int = [intBytes 7, intBytes 5] ∧
    ∃ cells' c' plains', s.run .identity .null staleStack cells .zero = some (.ok (2, cells'), c') ∧
      cells'.Encrypts .identity plains' ∧ (plains' .int)[2]? = some (intBytes 14) := by
  obtain ⟨a, ha⟩ := exists_cipher_int .identity 7
  obtain ⟨b, hb⟩ := exists_cipher_int .identity 5
  let s : Script ℕ := .compare .int .lt 1 0 fun less =>
    if less then .arith .int .plus 0 0 .ret else .arith .int .plus 1 1 .ret
  let cells : Cells := Function.update (fun _ => []) .int [a, b]
  let plains : Plains := Function.update (fun _ => []) .int [intBytes 7, intBytes 5]
  have h : cells.Encrypts .identity plains := by
    rintro (_ | _ | _)
    · exact .cons ha (.cons hb .nil)
    · exact .nil
    · exact .nil
  have heval : s.eval .null plains = some (2, plains.push .int (intBytes 14)) := by
    rfl
  obtain ⟨cells', c', hrun, hcells'⟩ :=
    (script_simulates .identity .null s staleStack cells plains h .zero).1 _ _ heval
  exact ⟨s, cells, plains, h, rfl, cells', c', _, hrun, hcells', rfl⟩

end Udf

end HEDB
