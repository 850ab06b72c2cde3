import HEDB.Foundations.Printf
import HEDB.PlainOps.Arithmetic

/-!
# Reading floats

`pg_float4_in` reads a text with `strtod` and falls back to the words for NaN and the infinities.
The library functions are a parameter (`FloatReader`). On the decimal text of an integer it returns
the float of the integer (`pgFloat4In_printD`), and the floats of integers that have one compare as
the integers do (`plainFloatCmp_reading`), as far as the library reads such texts in the documented
way (`FloatReader.ReadsIntegers`).
-/

namespace HEDB

namespace Udf

open Binary32 Printf

/-! ## Reading a float -/

/-- An error of `pg_float4_in`, with the text that it names. -/
inductive InputError
  | invalid (text : List UInt8)
  | outOfRange (text : List UInt8)

/-- What `strtod` leaves: the value, the number of characters read and `errno`. -/
structure Parsed (D : Type) where
  val : D
  length : ℕ
  errno : ℕ

/-- The library functions and constants of `pg_float4_in`. -/
structure FloatReader (F : FloatOps) where
  strtod : List UInt8 → Parsed F.Double
  /-- Zero, `HUGE_VAL` or more, `-HUGE_VAL` or less. -/
  zeroOrHuge : F.Double → Bool
  nan : UInt32
  infinity : UInt32

def erange : ℕ := 34

def isspace (b : UInt8) : Bool := b = 0x20 ∨ 0x09 ≤ b ∧ b ≤ 0x0d

def toLower (b : UInt8) : UInt8 := if 0x41 ≤ b ∧ b ≤ 0x5a then b + 0x20 else b

/-- The text starts with the word, in upper or lower case: `pg_strncasecmp`. -/
def startsWith (word : String) (text : List UInt8) : Bool :=
  (text.take word.length).map toLower = word.toUTF8.data.toList.map toLower

section Functions

variable {F : FloatOps} (R : FloatReader F)

/-- The words that are read when `strtod` does not. -/
def words : List (String × UInt32) :=
  [("NaN", R.nan), ("Infinity", R.infinity), ("+Infinity", R.infinity),
    ("-Infinity", F.neg R.infinity), ("inf", R.infinity), ("+inf", R.infinity),
    ("-inf", F.neg R.infinity)]

/-- The value at the start of a text, and the rest of the text. -/
def readNumber (origNum num : List UInt8) : Except InputError (F.Double × List UInt8) :=
  let parsed := R.strtod num
  if parsed.length = 0 ∨ parsed.errno ≠ 0 then
    match (words R).find? fun w => startsWith w.1 num with
    | some w => .ok (F.widen w.2, num.drop w.1.length)
    | none =>
      if parsed.errno = erange then
        if R.zeroOrHuge parsed.val then .error (.outOfRange origNum)
        else .ok (parsed.val, num.drop parsed.length)
      else .error (.invalid origNum)
  else .ok (parsed.val, num.drop parsed.length)

/-- `pg_float4_in`. -/
def pgFloat4In (origNum : List UInt8) : Except InputError UInt32 := do
  let num := origNum.dropWhile isspace
  if num = [] then
    throw (.invalid origNum)
  let (val, endptr) ← readNumber R origNum num
  if endptr.dropWhile isspace ≠ [] then
    throw (.invalid origNum)
  return F.narrow val

end Functions

/-! ## Texts of integers -/

/-- The range of `int8` in SQL. -/
def IsInt64 (n : ℤ) : Prop := -2 ^ 63 ≤ n ∧ n < 2 ^ 63

/-- The order of two integers. -/
def compareOf (n k : ℤ) : ℤ := if n = k then 0 else if n < k then -1 else 1

/-- The number has a float. -/
def Representable (n : ℤ) : Prop := ∃ x, IsFinite x ∧ value x = n

/-- **Decimal texts of integers are read**: `strtod` takes all of the text, the result is rounded to
`float` exactly where it can be and in the order of the numbers otherwise, and finite floats compare
by their values. -/
structure FloatReader.ReadsIntegers {F : FloatOps} (R : FloatReader F) : Prop where
  length_eq : ∀ n, IsInt64 n → (R.strtod (printD n)).length = (printD n).length
  errno_eq : ∀ n, IsInt64 n → (R.strtod (printD n)).errno = 0
  finite : ∀ n, IsInt64 n → IsFinite (F.narrow (R.strtod (printD n)).val)
  value_eq : ∀ n, IsInt64 n → Representable n → value (F.narrow (R.strtod (printD n)).val) = n
  mono : ∀ n k, IsInt64 n → IsInt64 k → n ≤ k →
    value (F.narrow (R.strtod (printD n)).val) ≤ value (F.narrow (R.strtod (printD k)).val)
  eq_iff : ∀ x y, IsFinite x → IsFinite y → (F.eq x y = true ↔ value x = value y)
  lt_iff : ∀ x y, IsFinite x → IsFinite y → (F.lt x y = true ↔ value x < value y)

section Integers

variable {F : FloatOps} {R : FloatReader F} {n : ℤ}

theorem isspace_printD {b : UInt8} (hb : b ∈ printD n) : isspace b = false := by
  rcases mem_printD hb with rfl | ⟨d, hd, rfl⟩
  · decide
  · interval_cases d <;> decide

/-- The float that `pg_float4_in` reads in the text of a number. -/
def reading (R : FloatReader F) (n : ℤ) : UInt32 := F.narrow (R.strtod (printD n)).val

theorem pgFloat4In_printD (hR : R.ReadsIntegers) (hn : IsInt64 n) :
    pgFloat4In R (printD n) = .ok (reading R n) := by
  have hspace : (printD n).dropWhile isspace = printD n := by
    cases h : printD n with
    | nil => rfl
    | cons b bs =>
      refine List.dropWhile_cons_of_neg ?_
      rw [isspace_printD (h ▸ List.mem_cons_self : b ∈ printD n)]
      decide
  have hlen := hR.length_eq n hn
  have hread : readNumber R (printD n) (printD n) = .ok ((R.strtod (printD n)).val, []) := by
    have hok : ¬ ((R.strtod (printD n)).length = 0 ∨ (R.strtod (printD n)).errno ≠ 0) := by
      rw [hlen, hR.errno_eq n hn, List.length_eq_zero_iff]
      simp [printD_ne_nil]
    simp only [readNumber, if_neg hok]
    rw [hlen, List.drop_length]
  simp only [pgFloat4In, hspace, if_neg (printD_ne_nil n), hread]
  rfl

/-- The floats of numbers that have one compare as the numbers do. -/
theorem plainFloatCmp_reading {k : ℤ} (hR : R.ReadsIntegers) (hn : IsInt64 n) (hk : IsInt64 k)
    (hrn : Representable n) (hrk : Representable k) :
    plainFloatCmp F (reading R n) (reading R k) = compareOf n k := by
  have heq := hR.eq_iff _ _ (hR.finite n hn) (hR.finite k hk)
  have hlt := hR.lt_iff _ _ (hR.finite n hn) (hR.finite k hk)
  rw [hR.value_eq n hn hrn, hR.value_eq k hk hrk, Int.cast_inj] at heq
  rw [hR.value_eq n hn hrn, hR.value_eq k hk hrk, Int.cast_lt] at hlt
  simp only [plainFloatCmp, compareOf, reading, heq, hlt]

theorem isInt64_of_small (h : n.natAbs < 2 ^ 24) : IsInt64 n := by
  constructor <;> omega

theorem value_reading (hR : R.ReadsIntegers) (h : n.natAbs < 2 ^ 24) :
    value (reading R n) = n :=
  hR.value_eq n (isInt64_of_small h) (exists_value_eq h)

end Integers

/-! ## Reading towards minus infinity -/

theorem value_least : value 0xdf000000 = -2 ^ 63 := by
  have hneg : Negative 0xdf000000 := by decide
  have hmag : magnitude 0xdf000000 = 2 ^ 212 := by decide
  rw [value, if_pos hneg, hmag]
  norm_num

/-- The greatest float that is not above an integer. -/
theorem exists_floor (n : ℤ) : ∃ x, IsInt64 n → IsFinite x ∧ value x ≤ n ∧
    ∀ y, IsFinite y → value y ≤ n → value y ≤ value x := by
  by_cases hn : IsInt64 n
  · have hfinite : Finite UInt32 := Finite.of_injective UInt32.toFin fun _ _ => UInt32.toFin_inj.1
    have hlow : value 0xdf000000 ≤ n := by
      rw [value_least]
      exact_mod_cast hn.1
    obtain ⟨x, hx, hmax⟩ := Set.exists_max_image {x : UInt32 | IsFinite x ∧ value x ≤ n} value
      (Set.toFinite _) ⟨0xdf000000, by decide, hlow⟩
    exact ⟨x, fun _ => ⟨hx.1, hx.2, fun y hy hle => hmax y ⟨hy, hle⟩⟩⟩
  · exact ⟨0, fun h => absurd h hn⟩

/-- Floats that are read in the texts of integers, and rounded towards minus infinity. -/
noncomputable def floorOps : FloatOps where
  Double := ℤ
  eq x y := value x = value y
  lt x y := value x < value y
  neg _ := 0
  add _ _ := 0
  sub _ _ := 0
  mul _ _ := 0
  div _ _ := 0
  toInt _ := some 0
  ofInt _ := 0
  widen _ := 0
  narrow n := (exists_floor n).choose
  addDouble := (· + ·)
  powDouble _ _ := 0
  doubleOfInt := id
  doubleToInt := some
  residue _ _ _ := 0

noncomputable def floorReader : FloatReader floorOps where
  strtod text := ⟨parse text, text.length, 0⟩
  zeroOrHuge _ := false
  nan := 0x7fc00000
  infinity := 0x7f800000

theorem narrow_floorReader (n : ℤ) :
    floorOps.narrow (floorReader.strtod (printD n)).val = (exists_floor n).choose := by
  show (exists_floor (parse (printD n))).choose = _
  rw [parse_printD]

theorem readsIntegers_floorReader : floorReader.ReadsIntegers where
  length_eq _ _ := rfl
  errno_eq _ _ := rfl
  finite n hn := by
    rw [narrow_floorReader]
    exact ((exists_floor n).choose_spec hn).1
  value_eq n hn := by
    rintro ⟨x, hx, hval⟩
    rw [narrow_floorReader]
    obtain ⟨-, hle, hmax⟩ := (exists_floor n).choose_spec hn
    exact le_antisymm hle (hval.ge.trans (hmax x hx hval.le))
  mono n k hn hk hnk := by
    rw [narrow_floorReader, narrow_floorReader]
    obtain ⟨hfin, hle, -⟩ := (exists_floor n).choose_spec hn
    obtain ⟨-, -, hmax⟩ := (exists_floor k).choose_spec hk
    exact hmax _ hfin (hle.trans (by exact_mod_cast hnk))
  eq_iff _ _ _ _ := decide_eq_true_iff
  lt_iff _ _ _ _ := decide_eq_true_iff

end Udf

end HEDB
