import HEDB.Types.Defs

/-!
# The requests of the client library

The request objects of `request.hpp`. `Request.writes` lists the fields that `serializeTo` copies
into the request buffer, in its order, and `Request.copyResultFrom` reads the result back.

`COPY` copies a fixed-width ciphertext or plaintext as it is. For an `EncStr` it is `COPY_ENC`,
which copies the length and the ciphertext and leaves the order tag of the destination as it was;
for a `Str` it is `COPY_PLAIN`.

The fields of a request never overlap (`Request.pairwise_writes`), so a serialized request can be
read back from the buffer (`Request.in_serializeTo`), whatever the buffer held before.
-/

namespace HEDB

/-! ## Operands -/

/-- A byte array of `w` bytes: a ciphertext of a fixed-width type, or its plaintext. -/
structure Bytes (w : ℕ) where
  bytes : List UInt8
  size : bytes.length = w
  deriving DecidableEq

/-- An `EncStr`: the order tag and the `len` bytes of `enc_cstr` in use. -/
structure EncStr where
  order : UInt32
  cstr : List UInt8
  len_le : cstr.length ≤ encStringLength
  deriving DecidableEq

/-- The `len` field. -/
def EncStr.len (s : EncStr) : ℕ := s.cstr.length

/-- A `Str`: the `len` bytes of `data` in use. -/
structure Str where
  data : List UInt8
  len_le : data.length ≤ stringLength
  deriving DecidableEq

/-- The `len` field. -/
def Str.len (s : Str) : ℕ := s.data.length

/-- The fixed-width types `EncInt`, `EncFloat` and `EncTimestamp`. -/
inductive Fam
  | int | float | timestamp
  deriving DecidableEq, Repr

namespace Fam

/-- `sizeof` of the ciphertext type. -/
def size : Fam → ℕ
  | int => encInt32Length
  | float => encFloat4Length
  | timestamp => encTimestampLength

/-- `sizeof` of the plaintext type. -/
def plainSize : Fam → ℕ
  | int => 4
  | float => 4
  | timestamp => timestampLength

def cmpCmd : Fam → Cmd
  | int => .intCmp
  | float => .floatCmp
  | timestamp => .timestampCmp

def encCmd : Fam → Cmd
  | int => .intEnc
  | float => .floatEnc
  | timestamp => .timestampEnc

def decCmd : Fam → Cmd
  | int => .intDec
  | float => .floatDec
  | timestamp => .timestampDec

@[simp] theorem size_int : size int = 32 := rfl
@[simp] theorem size_float : size float = 32 := rfl
@[simp] theorem size_timestamp : size timestamp = 36 := rfl
@[simp] theorem plainSize_int : plainSize int = 4 := rfl
@[simp] theorem plainSize_float : plainSize float = 4 := rfl
@[simp] theorem plainSize_timestamp : plainSize timestamp = 8 := rfl

end Fam

/-- The types with arithmetic, `EncInt` and `EncFloat`. -/
inductive Num
  | int | float
  deriving DecidableEq, Repr

/-- The arithmetic operations. -/
inductive CalcOp
  | plus | minus | mult | div | pow | mod
  deriving DecidableEq, Repr

namespace Num

def size : Num → ℕ
  | int => encInt32Length
  | float => encFloat4Length

def calcCmd : Num → CalcOp → Cmd
  | int, .plus => .intPlus
  | int, .minus => .intMinus
  | int, .mult => .intMult
  | int, .div => .intDiv
  | int, .pow => .intPow
  | int, .mod => .intMod
  | float, .plus => .floatPlus
  | float, .minus => .floatMinus
  | float, .mult => .floatMult
  | float, .div => .floatDiv
  | float, .pow => .floatPow
  | float, .mod => .floatMod

def bulkCmd : Num → Cmd
  | int => .intSumBulk
  | float => .floatSumBulk

@[simp] theorem size_eq (n : Num) : n.size = 32 := by cases n <;> rfl

end Num

namespace Layout

/-! `DEFINE_ENCTYPE_ENC_ReqData`: the plaintext comes first, an `int64_t` 8-aligned -/

def encPlain : Fam → ℕ
  | .timestamp => 16
  | _ => 12

def encCipher (f : Fam) : ℕ := encPlain f + f.plainSize

/-! `DEFINE_ENCTYPE_DEC_ReqData`: the ciphertext comes first -/

def decCipher : ℕ := 12
def decPlain (f : Fam) : ℕ := 12 + f.size

/-! `EncStrEncRequestData` and `EncStrDecRequestData` -/

def strEncPlain : ℕ := 12
def strEncCipher : ℕ := 12 + sizeofStr
def strDecCipher : ℕ := 12
def strDecPlain : ℕ := 12 + sizeofEncStr

/-! `EncFloatEvalExprRequestData` -/

def exprArgCnt : ℕ := 12
def exprExpr : ℕ := 16
def exprItem (i : ℕ) : ℕ := 16 + sizeofStr + encFloat4Length * i
def exprRes : ℕ := exprItem exprMaxSize

attribute [simp] encPlain encCipher decCipher decPlain strEncPlain strEncCipher strDecCipher
  strDecPlain exprArgCnt exprExpr exprItem exprRes

end Layout

/-! ## Requests -/

/-- The requests that the client library sends. -/
inductive Request
  /-- `CmpRequest` on a fixed-width type. -/
  | cmp (f : Fam) (left right : Bytes f.size)
  /-- `CalcRequest` on a fixed-width type. -/
  | calcNum (n : Num) (op : CalcOp) (left right : Bytes n.size)
  /-- `BulkRequest`. -/
  | bulk (n : Num) (items : List (Bytes n.size)) (h : items.length ≤ bulkSize)
  /-- `OneArgRequest` for `CMD_TIMESTAMP_EXTRACT_YEAR`. -/
  | extractYear (input : Bytes encTimestampLength)
  /-- `CmpRequest<EncStr, CMD_STRING_CMP>`. -/
  | strCmp (left right : EncStr)
  /-- `CmpRequest<EncStr, CMD_STRING_LIKE>`. -/
  | strLike (left right : EncStr)
  /-- `ThreeArgRequest` for `CMD_STRING_SUBSTRING`. -/
  | substring (str : EncStr) (start length : Bytes encInt32Length)
  /-- `CalcRequest<EncStr>` for `CMD_STRING_CONCAT`. -/
  | concat (left right : EncStr)
  /-- `EncRequest` on a fixed-width type. -/
  | enc (f : Fam) (plaintext : Bytes f.plainSize)
  /-- `DecRequest` on a fixed-width type. -/
  | dec (f : Fam) (ciphertext : Bytes f.size)
  /-- `EncRequest<Str, EncStr, CMD_STRING_ENC>`. -/
  | strEnc (plaintext : Str)
  /-- `DecRequest<EncStr, Str, CMD_STRING_DEC>`. -/
  | strDec (ciphertext : EncStr)
  /-- `EvalExprRequest`. The expression array is zero beyond its length. -/
  | evalExpr (items : List (Bytes encFloat4Length)) (expr : Str) (h : items.length ≤ exprMaxSize)

/-- `COPY_ENC`: the length and the ciphertext, not the order tag. -/
def copyEnc (o : ℕ) (s : EncStr) : List (ℕ × List UInt8) :=
  [(o + Layout.strLen, leBytes 4 s.len), (o + Layout.strCstr, s.cstr)]

/-- `COPY_PLAIN`. -/
def copyPlain (o : ℕ) (s : Str) : List (ℕ × List UInt8) :=
  [(o, leBytes 4 s.len), (o + 4, s.data)]

namespace Request

open Layout

/-- The command of a request. -/
def cmd : Request → Cmd
  | .cmp f _ _ => f.cmpCmd
  | .calcNum n op _ _ => n.calcCmd op
  | .bulk n _ _ => n.bulkCmd
  | .extractYear _ => .timestampExtractYear
  | .strCmp _ _ => .stringCmp
  | .strLike _ _ => .stringLike
  | .substring _ _ _ => .stringSubstring
  | .concat _ _ => .stringConcat
  | .enc f _ => f.encCmd
  | .dec f _ => f.decCmd
  | .strEnc _ => .stringEnc
  | .strDec _ => .stringDec
  | .evalExpr _ _ _ => .floatEvalExpr

/-- The operand fields that `serializeTo` copies into the buffer after `reqType`. -/
def body : Request → List (ℕ × List UInt8)
  | .cmp f left right => [(cmpLeft, left.bytes), (cmpRight f.size, right.bytes)]
  | .calcNum n op left right => [(calcOp, intBytes (n.calcCmd op).code), (calcLeft, left.bytes),
      (calcRight n.size, right.bytes)]
  | .bulk _ items _ => [(Layout.bulkSize, intBytes items.length),
      (bulkItems, items.flatMap Bytes.bytes)]
  | .extractYear input => [(yearIn, input.bytes)]
  | .strCmp left right => copyEnc cmpLeft left ++ copyEnc (cmpRight sizeofEncStr) right
  | .strLike left right => copyEnc cmpLeft left ++ copyEnc (cmpRight sizeofEncStr) right
  | .substring str start length => copyEnc subStr str ++
      [(subStart, start.bytes), (subLength, length.bytes)]
  | .concat left right => (calcOp, intBytes Cmd.stringConcat.code) ::
      (copyEnc calcLeft left ++ copyEnc (calcRight sizeofEncStr) right)
  | .enc f plaintext => [(encPlain f, plaintext.bytes)]
  | .dec _ ciphertext => [(decCipher, ciphertext.bytes)]
  | .strEnc plaintext => copyPlain strEncPlain plaintext
  | .strDec ciphertext => copyEnc strDecCipher ciphertext
  | .evalExpr items expr _ => [(exprArgCnt, intBytes items.length),
      (exprItem 0, items.flatMap Bytes.bytes),
      (exprExpr, leBytes 4 expr.len ++ (expr.data ++ List.replicate (stringLength - expr.len) 0))]

/-- All the fields that `serializeTo` copies into the buffer. -/
def writes (q : Request) : List (ℕ × List UInt8) := (reqType, intBytes q.cmd.code) :: q.body

/-- `serializeTo`. -/
def serializeTo (q : Request) (m : Mem) : Mem := m.writeAll q.writes

/-- The buffer holds the request: its type and all its operand fields. -/
def In (q : Request) (m : Mem) : Prop := m.Holds q.writes

/-- `copyResultFrom`: the bytes that it delivers to the caller. -/
def copyResultFrom (q : Request) (m : Mem) : List UInt8 :=
  match q with
  | .cmp f _ _ => m.read (cmpCmp f.size) 4
  | .calcNum n _ _ _ => m.read (calcRes n.size) n.size
  | .bulk n _ _ => m.read (bulkRes n.size) n.size
  | .extractYear _ => m.read yearRes encInt32Length
  | .strCmp _ _ => m.read (cmpCmp sizeofEncStr) 4
  | .strLike _ _ => m.read (cmpCmp sizeofEncStr) 4
  | .substring _ _ _ => m.read (subRes + strCstr) (m.uint (subRes + strLen))
  | .concat _ _ => m.read (calcRes sizeofEncStr + strCstr) (m.uint (calcRes sizeofEncStr + strLen))
  | .enc f _ => m.read (encCipher f) f.size
  | .dec f _ => m.read (decPlain f) f.plainSize
  | .strEnc _ => m.read (strEncCipher + strCstr) (m.uint (strEncCipher + strLen))
  | .strDec _ => m.read (strDecPlain + 4) (m.uint strDecPlain)
  | .evalExpr _ _ _ => m.read exprRes encFloat4Length

/-! ## Reading a request back -/

theorem length_flatMap_bytes {w : ℕ} (items : List (Bytes w)) :
    (items.flatMap Bytes.bytes).length = w * items.length := by
  induction items with
  | nil => rfl
  | cons x items ih => simp [ih, x.size, Nat.mul_succ, Nat.add_comm]

/-- **The fields of a request do not overlap.** -/
theorem pairwise_writes (q : Request) : q.writes.Pairwise Mem.Apart := by
  cases q with
  | cmp f left right =>
    simp [writes, body, Mem.Apart, left.size]
    omega
  | calcNum n op left right => simp [writes, body, Mem.Apart, left.size]
  | bulk n items h => simp [writes, body, Mem.Apart]
  | extractYear input => simp [writes, body, Mem.Apart]
  | strCmp left right | strLike left right | concat left right =>
    have := left.len_le
    simp [writes, body, copyEnc, Mem.Apart] at this ⊢
    omega
  | substring str start length =>
    have := str.len_le
    simp [writes, body, copyEnc, Mem.Apart, start.size] at this ⊢
    omega
  | enc f plaintext => cases f <;> simp [writes, body, Mem.Apart]
  | dec f ciphertext => simp [writes, body, Mem.Apart]
  | strEnc plaintext => simp [writes, body, copyPlain, Mem.Apart]
  | strDec ciphertext => simp [writes, body, copyEnc, Mem.Apart]
  | evalExpr items expr h =>
    have := expr.len_le
    simp [writes, body, Mem.Apart, Str.len] at this ⊢
    omega

/-- **A serialized request can be read back**, whatever the buffer held before. -/
theorem in_serializeTo (q : Request) (m : Mem) : q.In (q.serializeTo m) :=
  m.holds_writeAll q.pairwise_writes

theorem In.reqType {q : Request} {m : Mem} (h : q.In m) : m.int Layout.reqType = q.cmd.code := by
  have hr := h (Layout.reqType, intBytes q.cmd.code) List.mem_cons_self
  rw [length_intBytes] at hr
  rw [Mem.int, hr, bytesInt_intBytes q.cmd.isInt_code]

theorem In.field {q : Request} {m : Mem} (h : q.In m) {o n : ℕ} {bs : List UInt8}
    (hw : (o, bs) ∈ q.body) (hn : bs.length = n) : m.read o n = bs := by
  subst hn
  exact h (o, bs) (List.mem_cons_of_mem _ hw)

section Operands

variable {m : Mem}

theorem In.cmp {f : Fam} {left right : Bytes f.size} (h : (cmp f left right).In m) :
    m.read cmpLeft f.size = left.bytes ∧ m.read (cmpRight f.size) f.size = right.bytes :=
  ⟨h.field (by simp [body]) left.size, h.field (by simp [body]) right.size⟩

theorem In.calcNum {n : Num} {op : CalcOp} {left right : Bytes n.size}
    (h : (calcNum n op left right).In m) :
    m.read calcLeft n.size = left.bytes ∧ m.read (calcRight n.size) n.size = right.bytes :=
  ⟨h.field (by simp [body]) left.size, h.field (by simp [body]) right.size⟩

theorem In.extractYear {input : Bytes encTimestampLength} (h : (extractYear input).In m) :
    m.read yearIn encTimestampLength = input.bytes :=
  h.field (by simp [body]) input.size

theorem In.substring {str : EncStr} {start length : Bytes encInt32Length}
    (h : (substring str start length).In m) : m.read subStart encInt32Length = start.bytes ∧
      m.read subLength encInt32Length = length.bytes :=
  ⟨h.field (by simp [body]) start.size, h.field (by simp [body]) length.size⟩

end Operands

end Request

end HEDB
