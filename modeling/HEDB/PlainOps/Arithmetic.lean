import HEDB.EvalExpr.Model

/-!
# The plain operations on numbers

`plain_int_ops.c`, `plain_float_ops.c` and `plain_timestamp_ops.c`. An operation that C leaves
undefined (a signed overflow, a division by zero, a conversion to `int` out of range) is `none`.

A `float` is a 4-byte value, and the operations on `float` and `double` are uninterpreted: they are
the fields of `FloatOps`, with the other thing that C leaves to the machine, the bytes of a local
array that nothing has been written to.
-/

namespace HEDB

/-! ## Values and their bytes -/

/-- The bytes of a `float`. -/
def floatBytes (x : UInt32) : List UInt8 := leBytes 4 x.toNat

/-- The `float` that four bytes store. -/
def bytesFloat (bs : List UInt8) : UInt32 := UInt32.ofNat (leNat bs)

@[simp] theorem length_floatBytes (x : UInt32) : (floatBytes x).length = 4 := length_leBytes ..

/-- The `int64_t` that eight bytes store. -/
def bytesInt64 (bs : List UInt8) : ℤ := (BitVec.ofNat 64 (leNat bs)).toInt

/-- A result of `int` arithmetic, undefined when it overflows. -/
def checkedInt (v : ℤ) : Option ℤ := if IsInt v then some v else none

/-- The arithmetic on `float` and `double`, and the stack. -/
structure FloatOps where
  /-- The type `double`. -/
  Double : Type
  eq : UInt32 → UInt32 → Bool
  lt : UInt32 → UInt32 → Bool
  neg : UInt32 → UInt32
  add : UInt32 → UInt32 → UInt32
  sub : UInt32 → UInt32 → UInt32
  mul : UInt32 → UInt32 → UInt32
  div : UInt32 → UInt32 → UInt32
  /-- The conversion to `int`, undefined when the value does not fit. -/
  toInt : UInt32 → Option ℤ
  /-- The conversion of an `int` to `float`. -/
  ofInt : ℤ → UInt32
  /-- The conversion to `double`. -/
  widen : UInt32 → Double
  /-- The conversion of a `double` to `float`. -/
  narrow : Double → UInt32
  addDouble : Double → Double → Double
  powDouble : Double → Double → Double
  doubleOfInt : ℤ → Double
  doubleToInt : Double → Option ℤ
  /-- What a local array holds behind the bytes written to it, in a process with this region and
  this IV. The IV is another one after every encryption. -/
  residue : Mem → List UInt8 → ℕ → UInt8

/-- An arithmetic for evaluation, in which every result is zero. -/
def FloatOps.null : FloatOps :=
  ⟨Unit, fun _ _ => true, fun _ _ => false, fun _ => 0, fun _ _ => 0, fun _ _ => 0, fun _ _ => 0,
    fun _ _ => 0, fun _ => some 0, fun _ => 0, fun _ => (), fun _ => 0, fun _ _ => (),
    fun _ _ => (), fun _ => (), fun _ => some 0, fun _ _ _ => 0⟩

variable (F : FloatOps)

/-! ## `int` -/

/-- The operator `%` on `int`. -/
def modInt (left right : ℤ) : Option ℤ :=
  if right = 0 ∨ (left = -2 ^ 31 ∧ right = -1) then none else some (left.tmod right)

/-- `plain_int32_calc`. -/
def plainInt32Calc (reqType left right : ℤ) : Option ℤ :=
  match Cmd.ofCode reqType with
  | some .intPlus => checkedInt (left + right)
  | some .intMinus => checkedInt (left - right)
  | some .intMult => checkedInt (left * right)
  | some .intDiv => if right = 0 then none else checkedInt (left.tdiv right)
  | some .intPow => F.doubleToInt (F.powDouble (F.doubleOfInt left) (F.doubleOfInt right))
  | some .intMod => modInt left right
  | _ => some 0

/-- `plain_int32_cmp`. -/
def plainInt32Cmp (left right : ℤ) : ℤ := if left = right then 0 else if left < right then -1 else 1

/-- `plain_int32_sum_bulk`. -/
def plainInt32SumBulk (array : List ℤ) : Option ℤ :=
  array.foldlM (fun res x => checkedInt (res + x)) 0

/-! ## `float` -/

/-- `plain_float_calc`. The result goes through a `double`. -/
def plainFloatCalc (reqType : ℤ) (left right : UInt32) : Option UInt32 :=
  match Cmd.ofCode reqType with
  | some .floatPlus => some (F.narrow (F.widen (F.add left right)))
  | some .floatMinus => some (F.narrow (F.widen (F.sub left right)))
  | some .floatMult => some (F.narrow (F.widen (F.mul left right)))
  | some .floatDiv => some (F.narrow (F.widen (F.div left right)))
  | some .floatPow => some (F.narrow (F.powDouble (F.widen left) (F.widen right)))
  | some .floatMod => do
    let res ← modInt (← F.toInt left) (← F.toInt right)
    some (F.narrow (F.doubleOfInt res))
  | _ => some (F.narrow (F.doubleOfInt 0))

/-- `plain_float_cmp`, converted to `int` as its caller does. -/
def plainFloatCmp (left right : UInt32) : ℤ :=
  if F.eq left right then 0 else if F.lt left right then -1 else 1

/-- `plain_float_sum_bulk`. -/
def plainFloatSumBulk (array : List UInt32) : F.Double :=
  array.foldl (fun res x => F.addDouble res (F.widen x)) (F.doubleOfInt 0)

/-- The arithmetic of `plain_float_eval_expr`. A value that is undefined, or that has not been
initialised, stays so. -/
def floatArith : EvalExpr.Arith (Option UInt32) where
  neg x := x.map F.neg
  add x y := do some (F.add (← x) (← y))
  sub x y := do some (F.sub (← x) (← y))
  mul x y := do some (F.mul (← x) (← y))
  div x y := do some (F.div (← x) (← y))
  mod x y := do some (F.ofInt (← modInt (← F.toInt (← x)) (← F.toInt (← y))))
  pow x y := do some (F.narrow (F.powDouble (F.widen (← x)) (F.widen (← y))))

/-- One byte of an expression over `float`. A remainder that is undefined is so for the whole
program, whatever becomes of its result. -/
def floatEvalByte (arr : Fin exprMaxSize → Option UInt32) (c : ℤ) (stack : List (Option UInt32)) :
    Option (List (Option UInt32)) := do
  let stack ← EvalExpr.evalByte (floatArith F) arr c stack
  if c = EvalExpr.code '%' ∧ stack.head? = some none then none else some stack

/-- The main loop of `plain_float_eval_expr`. -/
def floatEvalBytes (arr : Fin exprMaxSize → Option UInt32) :
    List ℤ → List (Option UInt32) → Option (List (Option UInt32))
  | [], stack => some stack
  | c :: cs, stack => (floatEvalByte F arr c stack).bind (floatEvalBytes arr cs)

/-- `plain_float_eval_expr` on `float`. -/
def plainFloatEvalExpr (expr : List ℤ) (arr : Fin exprMaxSize → Option UInt32) : Option UInt32 :=
  ((floatEvalBytes F arr expr []).bind List.head?).join

/-! ## Timestamps -/

/-- `plain_timestamp_cmp`. -/
def plainTimestampCmp (left right : ℤ) : ℤ :=
  if left = right then 0 else if left < right then -1 else 1

def usecsPerDay : ℤ := 86400000000
def postgresEpochJdate : ℤ := 2451545

/-- A value as an `unsigned int`. -/
def toUnsigned (v : ℤ) : ℤ := v % 2 ^ 32

/-- A value as an `int`. -/
def toSigned (v : ℤ) : ℤ := (BitVec.ofInt 32 v).toInt

/-- `plain_timestamp_extract_year`. `TMODULO` leaves the remainder in `timestamp` and the quotient
in `date`. -/
def plainTimestampExtractYear (timestamp : ℤ) : ℤ :=
  let date := timestamp.tdiv usecsPerDay
  let date := if timestamp.tmod usecsPerDay < 0 then date - 1 else date
  let date := date + postgresEpochJdate
  if date < 0 ∨ 2 ^ 31 - 1 < date then -1
  else
    let date := date + 32044
    let quad := toUnsigned (date / 146097)
    let extra := toUnsigned ((date - toUnsigned (quad * 146097)) * 4 + 3)
    let date := date + toUnsigned (60 + quad * 3 + extra / 146097)
    let quad := toUnsigned (date / 1461)
    let date := date - toUnsigned (quad * 1461)
    let year := toSigned (date * 4 / 1461)
    toSigned (year + quad * 4) - 4800

-- Noon of the first day of 2000, of the last of 1999 and of the first of 1970.
example : plainTimestampExtractYear 43200000000 = 2000 := by decide +kernel
example : plainTimestampExtractYear (-43200000000) = 1999 := by decide +kernel
example : plainTimestampExtractYear (-10957 * usecsPerDay) = 1970 := by decide +kernel

end HEDB
