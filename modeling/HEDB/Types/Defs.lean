import HEDB.Foundations.Bytes

/-!
# Constants, commands and request layouts

The constants of `defs.h`, the commands `CMD_*`, and the layouts that `enc_types.h` and
`request_types.h` give to the request buffer. A request buffer starts with the `BaseRequest`
header (`status`, `reqType`, `resp`); what follows depends on the request type, and the same bytes
are read as a different struct for each. Offsets are those of the C compiler: all ciphertext types
are byte arrays, `EncStr` and `Str` start with 4-byte words, and only `int64_t` is 8-aligned.
-/

namespace HEDB

/-! ## Sizes -/

def ivSize : ℕ := 12
def tagSize : ℕ := 16
def encInt32Length : ℕ := 4 + ivSize + tagSize
def encFloat4Length : ℕ := 4 + ivSize + tagSize
def timestampLength : ℕ := 8
def encTimestampLength : ℕ := timestampLength + ivSize + tagSize
def stringLength : ℕ := 256
def encStringLength : ℕ := stringLength + ivSize + tagSize
def bulkSize : ℕ := 256
def exprMaxSize : ℕ := 8
def exprStackMaxSize : ℕ := 16

/-- `sizeof(EncStr)`: the order tag, the length and the ciphertext array. -/
def sizeofEncStr : ℕ := 4 + 4 + encStringLength

/-- `sizeof(Str)`. -/
def sizeofStr : ℕ := 4 + stringLength

/-- `sizeof(int)`. -/
def sizeofInt : ℕ := 4

/-- `sizeof(uint64_t)`. -/
def sizeofUint64 : ℕ := 8

attribute [simp] ivSize tagSize encInt32Length encFloat4Length timestampLength encTimestampLength
  stringLength encStringLength bulkSize exprMaxSize exprStackMaxSize sizeofEncStr sizeofStr
  sizeofInt sizeofUint64

/-! ## Commands -/

/-- The commands of `defs.h`. -/
inductive Cmd
  | intPlus | intMinus | intMult | intDiv | intCmp | intEnc | intDec | intPow | intMod | intSumBulk
  | floatPlus | floatMinus | floatMult | floatDiv | floatCmp | floatEnc | floatDec | floatPow
  | floatMod | floatSumBulk | floatEvalExpr
  | stringCmp | stringEnc | stringDec | stringSubstring | stringConcat | stringLike
  | timestampCmp | timestampEnc | timestampDec | timestampExtractYear
  deriving DecidableEq, Repr

/-- The number of a command, the value of its `CMD_*` constant. -/
def Cmd.code : Cmd → ℤ
  | .intPlus => 1 | .intMinus => 2 | .intMult => 3 | .intDiv => 4 | .intCmp => 5
  | .intEnc => 6 | .intDec => 7 | .intPow => 8 | .intMod => 9 | .intSumBulk => 10
  | .floatPlus => 21 | .floatMinus => 22 | .floatMult => 23 | .floatDiv => 24 | .floatCmp => 25
  | .floatEnc => 26 | .floatDec => 27 | .floatPow => 28 | .floatMod => 29 | .floatSumBulk => 30
  | .floatEvalExpr => 31
  | .stringCmp => 41 | .stringEnc => 42 | .stringDec => 43 | .stringSubstring => 44
  | .stringConcat => 45 | .stringLike => 46
  | .timestampCmp => 50 | .timestampEnc => 51 | .timestampDec => 52 | .timestampExtractYear => 53

/-- The command of a number. -/
def Cmd.ofCode : ℤ → Option Cmd
  | 1 => some .intPlus | 2 => some .intMinus | 3 => some .intMult | 4 => some .intDiv
  | 5 => some .intCmp | 6 => some .intEnc | 7 => some .intDec | 8 => some .intPow
  | 9 => some .intMod | 10 => some .intSumBulk
  | 21 => some .floatPlus | 22 => some .floatMinus | 23 => some .floatMult | 24 => some .floatDiv
  | 25 => some .floatCmp | 26 => some .floatEnc | 27 => some .floatDec | 28 => some .floatPow
  | 29 => some .floatMod | 30 => some .floatSumBulk | 31 => some .floatEvalExpr
  | 41 => some .stringCmp | 42 => some .stringEnc | 43 => some .stringDec
  | 44 => some .stringSubstring | 45 => some .stringConcat | 46 => some .stringLike
  | 50 => some .timestampCmp | 51 => some .timestampEnc | 52 => some .timestampDec
  | 53 => some .timestampExtractYear
  | _ => none

@[simp] theorem Cmd.ofCode_code (c : Cmd) : Cmd.ofCode c.code = some c := by
  cases c <;> rfl

theorem Cmd.code_of_ofCode {v : ℤ} {k : Cmd} (h : Cmd.ofCode v = some k) : v = k.code := by
  unfold Cmd.ofCode at h
  split at h <;> cases h <;> rfl

theorem Cmd.code_injective : Function.Injective Cmd.code := fun a b h => by
  have := congrArg Cmd.ofCode h
  simpa using this

theorem Cmd.code_pos (c : Cmd) : 0 < c.code := by
  cases c <;> simp [Cmd.code]

theorem Cmd.isInt_code (c : Cmd) : IsInt c.code := by
  cases c <;> decide

/-! ## Layouts -/

namespace Layout

/-! `BaseRequest` -/

def status : ℕ := 0
def reqType : ℕ := 4
def resp : ℕ := 8

/-! `DEFINE_ENCTYPE_CMP_ReqData`, for a ciphertext type of `w` bytes -/

def cmpLeft : ℕ := 12
def cmpRight (w : ℕ) : ℕ := 12 + w
def cmpCmp (w : ℕ) : ℕ := 12 + 2 * w

/-! `DEFINE_ENCTYPE_CALC_ReqData` -/

def calcOp : ℕ := 12
def calcLeft : ℕ := 16
def calcRight (w : ℕ) : ℕ := 16 + w
def calcRes (w : ℕ) : ℕ := 16 + 2 * w

/-! `DEFINE_ENCTYPE_BULK_ReqData` -/

def bulkSize : ℕ := 12
def bulkItems : ℕ := 16
def bulkRes (w : ℕ) : ℕ := 16 + HEDB.bulkSize * w

/-! `EncTimestampExtractYearRequestData` -/

def yearIn : ℕ := 12
def yearRes : ℕ := 12 + encTimestampLength

/-! `SubstringRequestData` -/

def subStr : ℕ := 12
def subStart : ℕ := 12 + sizeofEncStr
def subLength : ℕ := subStart + encInt32Length
def subRes : ℕ := subLength + encInt32Length

/-! `EncStr`, relative to its start -/

def strOrder : ℕ := 0
def strLen : ℕ := 4
def strCstr : ℕ := 8

attribute [simp] status reqType resp cmpLeft cmpRight cmpCmp calcOp calcLeft calcRight calcRes
  Layout.bulkSize bulkItems bulkRes yearIn yearRes subStr subStart subLength subRes strOrder strLen
  strCstr

end Layout

/-- `encstr_size`: the bytes of an `EncStr` in use, as an `int`, from its `len` field. The sum is
computed in `size_t` and converted to `int`. -/
def encstrSize (len : ℕ) : ℤ := (BitVec.ofNat 32 (4 + 4 + len)).toInt

theorem encstrSize_of_le {len : ℕ} (h : len ≤ 2 ^ 31 - 9) : encstrSize len = 8 + len := by
  rw [encstrSize, BitVec.toInt_ofNat', Int.bmod_eq_of_le] <;> push_cast <;> omega

end HEDB
