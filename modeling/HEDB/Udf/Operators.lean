import HEDB.Foundations.Simulation
import HEDB.Udf.FloatOrder

/-!
# The functions of the encrypted numbers and timestamps

Every function of `enc_int4`, `enc_float4` and `enc_timestamp` sends one request and raises an error
unless it is answered with zero. On ciphertexts each of them simulates its operation on the
plaintexts: it returns a ciphertext of the result, or the answer of the comparison, and goes wrong
where the operation is undefined.
-/

namespace HEDB

/-- The family of a type with arithmetic. -/
def Num.fam : Num → Fam
  | int => .int
  | float => .float

namespace Udf

/-! ## The functions -/

section Functions

variable (g : Gcm) (F : FloatOps)

/-- An arithmetic operator. -/
def encCalc (n : Num) (op : CalcOp) (left right : Bytes n.size) : Sends (Bytes n.size) :=
  callNum g F n (.calcNum n op left right)

/-- `enc_int4_add`. -/
def encInt4Add := encCalc g F .int .plus

/-- `enc_int4_sub`. -/
def encInt4Sub := encCalc g F .int .minus

/-- `enc_int4_mult`. -/
def encInt4Mult := encCalc g F .int .mult

/-- `enc_int4_div`. -/
def encInt4Div := encCalc g F .int .div

/-- `enc_int4_pow`. -/
def encInt4Pow := encCalc g F .int .pow

/-- `enc_int4_mod`. -/
def encInt4Mod := encCalc g F .int .mod

/-- `enc_float4_add`. -/
def encFloat4Add := encCalc g F .float .plus

/-- `enc_float4_subs`. -/
def encFloat4Subs := encCalc g F .float .minus

/-- `enc_float4_mult`. -/
def encFloat4Mult := encCalc g F .float .mult

/-- `enc_float4_div`. -/
def encFloat4Div := encCalc g F .float .div

/-- `enc_float4_exp`. -/
def encFloat4Exp := encCalc g F .float .pow

/-- `enc_float4_mod`. -/
def encFloat4Mod := encCalc g F .float .mod

/-- A comparison operator: a test of the comparison. -/
def encTest (f : Fam) (test : ℤ → Bool) (left right : Bytes f.size) : Sends Bool := do
  let cmp ← callCmp g F f left right
  return test cmp

/-- `enc_int4_cmp`. -/
def encInt4Cmp := callCmp g F .int

/-- `enc_int4_eq`. -/
def encInt4Eq := encTest g F .int fun cmp => cmp = 0

/-- `enc_int4_ne`. -/
def encInt4Ne := encTest g F .int fun cmp => cmp ≠ 0

/-- `enc_int4_lt`. -/
def encInt4Lt := encTest g F .int fun cmp => cmp = -1

/-- `enc_int4_le`. -/
def encInt4Le := encTest g F .int fun cmp => cmp ≤ 0

/-- `enc_int4_gt`. -/
def encInt4Gt := encTest g F .int fun cmp => cmp = 1

/-- `enc_int4_ge`. -/
def encInt4Ge := encTest g F .int fun cmp => cmp ≥ 0

/-- `enc_timestamp_cmp`. -/
def encTimestampCmp := callCmp g F .timestamp

/-- `enc_timestamp_eq`. -/
def encTimestampEq := encTest g F .timestamp fun ans => ans = 0

/-- `enc_timestamp_ne`. -/
def encTimestampNe := encTest g F .timestamp fun ans => ans ≠ 0

/-- `enc_timestamp_lt`. -/
def encTimestampLt := encTest g F .timestamp fun ans => ans = -1

/-- `enc_timestamp_le`. -/
def encTimestampLe := encTest g F .timestamp fun ans => ans ≤ 0

/-- `enc_timestamp_gt`. -/
def encTimestampGt := encTest g F .timestamp fun ans => ans > 0

/-- `enc_timestamp_ge`. -/
def encTimestampGe := encTest g F .timestamp fun ans => ans ≥ 0

/-- A function that returns one of its arguments. -/
def encPick (f : Fam) (keep : ℤ → Bool) (left right : Bytes f.size) : Sends (Bytes f.size) := do
  let res ← callCmp g F f left right
  return if keep res then left else right

/-- `enc_int4_max`. -/
def encInt4Max := encPick g F .int fun res => res > 0

/-- `enc_int4_min`. -/
def encInt4Min := encPick g F .int fun res => res < 0

/-- `enc_int4_encrypt` and `enc_float4_encrypt`, and `enc_timestamp_encrypt` behind the parser. -/
def encEncrypt (f : Fam) (plaintext : Bytes f.plainSize) : Sends (Bytes f.size) :=
  ExceptT.mk fun c => do
    let reply ← sendRequest g F (.enc f plaintext) c.process
    if h : reply.result.length = f.size then
      some (if reply.resp ≠ 0 then .error reply.resp else .ok ⟨reply.result, h⟩,
        ⟨reply.process, c.sent ++ [.enc f plaintext]⟩)
    else none

/-- `enc_int4_decrypt` and `enc_float4_decrypt`, and `enc_timestamp_decrypt` before the printer. -/
def encDecrypt (f : Fam) (ciphertext : Bytes f.size) : Sends (List UInt8) := ExceptT.mk fun c => do
  let reply ← sendRequest g F (.dec f ciphertext) c.process
  some (if reply.resp ≠ 0 then .error reply.resp else .ok reply.result,
    ⟨reply.process, c.sent ++ [.dec f ciphertext]⟩)

/-- `ERRCODE_INTERNAL_ERROR`, the code of an error that names none. -/
def errcodeInternalError : ℤ := 2600

/-- `date_part`. -/
def datePart (get : List UInt8) (timestamp : Bytes encTimestampLength) :
    Sends (Bytes Num.int.size) :=
  if get ≠ "year".toUTF8.toList then throw errcodeInternalError
  else callNum g F .int (.extractYear timestamp)

end Functions

/-! ## What they simulate -/

variable {g : Gcm} {F : FloatOps}

/-- A ciphertext and its plaintext. -/
def Carries (g : Gcm) {w : ℕ} (c : Bytes w) (p : List UInt8) : Prop := g.Decrypts c.bytes p

section Simulations

variable {n : Num} {f : Fam} {p q : List UInt8}

theorem simulates_encCalc {left right : Bytes n.size} (hp : Carries g left p)
    (hq : Carries g right q) (op : CalcOp) :
    Simulates (Carries g) (encCalc g F n op left right) (plainCalc F n op p q) := by
  intro c
  cases hres : plainCalc F n op p q with
  | none =>
    refine callNum_none ?_
    rw [handleCmd_calc (in_sent _ _) hp hq, hres]
    rfl
  | some res =>
    obtain ⟨v, c', hcall, hv, -⟩ := callNum_ok (n := n) (c := c)
      (answers_calc (in_sent _ _) hp hq hres) fun _ => Mem.length_read ..
    exact ⟨v, c', hcall, hv⟩

theorem simulates_callCmp {left right : Bytes f.size} (hp : Carries g left p)
    (hq : Carries g right q) :
    Simulates (· = ·) (callCmp g F f left right) (some (plainCmp F f p q)) := by
  intro c
  obtain ⟨c', hc'⟩ := returns_callCmp (F := F) hp hq c
  exact ⟨_, c', hc', rfl⟩

theorem simulates_encTest {left right : Bytes f.size} (hp : Carries g left p)
    (hq : Carries g right q) (test : ℤ → Bool) :
    Simulates (· = ·) (encTest g F f test left right) (some (test (plainCmp F f p q))) := by
  refine (simulates_callCmp hp hq).bind (k := fun cmp => some (test cmp)) ?_
  rintro _ cmp rfl
  exact simulates_pure rfl

theorem simulates_encPick {left right : Bytes f.size} (hp : Carries g left p)
    (hq : Carries g right q) (keep : ℤ → Bool) :
    Simulates (Carries g) (encPick g F f keep left right)
      (some (if keep (plainCmp F f p q) then p else q)) := by
  refine (simulates_callCmp hp hq).bind (k := fun cmp => some (if keep cmp then p else q)) ?_
  rintro _ cmp rfl
  refine simulates_pure ?_
  split_ifs
  · exact hp
  · exact hq

/-- `enc_float4_max` keeps its first argument when it is the greater one. -/
theorem encFloat4Max_eq (f1 f2 : EncFloat) :
    encFloat4Max g F f1 f2 = encPick g F .float (fun cmp => cmp = 1) f1 f2 := by
  simp only [encFloat4Max, encPick, decide_eq_true_eq]
  rfl

/-- `enc_float4_min` keeps its first argument unless it is the greater one. -/
theorem encFloat4Min_eq (f1 f2 : EncFloat) :
    encFloat4Min g F f1 f2 = encPick g F .float (fun cmp => cmp ≠ 1) f1 f2 := by
  refine congrArg (callCmp g F .float f1 f2 >>= ·) (funext fun cmp => congrArg pure ?_)
  by_cases h : cmp = 1 <;> simp [h]

theorem simulates_sumBulk {array : List (Bytes n.size)} {ps : List (List UInt8)}
    (h : List.Forall₂ (Carries g) array ps) (stack : ℕ → Bytes n.size) :
    Simulates (Carries g) (sumBulk g F n stack array)
      (windowedSum HEDB.bulkSize (plainSumBulk F n) ps) := by
  intro c
  have hsum := sumBulk_eq (F := F) h stack c
  cases hp : windowedSum HEDB.bulkSize (plainSumBulk F n) ps with
  | none =>
    rw [hp] at hsum
    exact hsum
  | some p =>
    rw [hp] at hsum
    obtain ⟨sum, c', hrun, hdec, -⟩ := hsum
    exact ⟨sum, c', hrun, hdec⟩

theorem simulates_encEncrypt (plaintext : Bytes f.plainSize) :
    Simulates (Carries g) (encEncrypt g F f plaintext) (some plaintext.bytes) := by
  intro c
  obtain ⟨reply, hsend, hresp, hdel⟩ := sendRequest_simulates (F := F)
    (q := .enc f plaintext) (a := .cipher plaintext.bytes) rfl c.process
  have hlen : reply.result.length = f.size := by
    obtain ⟨served, -, hserved⟩ := Option.bind_eq_some_iff.1 hsend
    cases hserved
    exact Mem.length_read ..
  refine ⟨⟨reply.result, hlen⟩, ⟨reply.process, c.sent ++ [.enc f plaintext]⟩, ?_, hdel⟩
  rw [encEncrypt, ExceptT.mk, hsend, Option.bind_eq_bind, Option.bind_some, dif_pos hlen,
    if_neg (not_not.2 hresp)]

theorem simulates_encDecrypt {ciphertext : Bytes f.size} (hp : Carries g ciphertext p) :
    Simulates (· = ·) (encDecrypt g F f ciphertext) (some p) := by
  intro c
  have ha : plainCall g F (.dec f ciphertext) = some (.value p) := by
    rw [plainCall, Gcm.plainOf_eq_some.2 hp]
    rfl
  obtain ⟨reply, hsend, hresp, hdel⟩ := sendRequest_simulates ha c.process
  refine ⟨reply.result, ⟨reply.process, c.sent ++ [.dec f ciphertext]⟩, ?_, hdel⟩
  rw [encDecrypt, ExceptT.mk, hsend, Option.bind_eq_bind, Option.bind_some,
    if_neg (not_not.2 hresp)]

theorem simulates_datePart {timestamp : Bytes encTimestampLength} (hp : Carries g timestamp p) :
    Simulates (Carries g) (datePart g F "year".toUTF8.toList timestamp)
      (some (intBytes (plainTimestampExtractYear (bytesInt64 p)))) := by
  intro c
  rw [datePart, if_neg (fun h => h rfl)]
  have ha : plainCall g F (.extractYear timestamp) =
      some (.cipher (intBytes (plainTimestampExtractYear (bytesInt64 p)))) := by
    rw [plainCall, Gcm.plainOf_eq_some.2 hp]
    rfl
  obtain ⟨v, c', hcall, hv, -⟩ := callNum_ok (n := .int) (c := c)
    (answers_of_plainCall (in_sent _ _) ha) fun _ => Mem.length_read ..
  exact ⟨v, c', hcall, hv⟩

end Simulations

end Udf

end HEDB
