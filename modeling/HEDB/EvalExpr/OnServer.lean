import HEDB.EvalExpr.Compile
import HEDB.Pipeline.Nonces
import HEDB.Udf.Operators

/-!
# Expressions on the server

The request of `enc_float4_eval_expr` carries the postfix string of an expression and the
ciphertexts of its arguments. The child evaluates the string on a stack of `float`, and the
ciphertext that it delivers is one of the value of the expression.
-/

namespace HEDB

namespace EvalExpr

open Layout Udf

/-! ## Values -/

section Values

variable (F : FloatOps)

/-- An operator on the stack of the child. A sum is computed twice, and the second time the other
way round. -/
def Op.onStack : Op → UInt32 → UInt32 → Option UInt32
  | .add, x, y => some (F.add y x)
  | .sub, x, y => some (F.sub x y)
  | .mul, x, y => some (F.mul x y)
  | .div, x, y => some (F.div x y)
  | .mod, x, y => do some (F.ofInt (← modInt (← F.toInt x) (← F.toInt y)))
  | .pow, x, y => some (F.narrow (F.powDouble (F.widen x) (F.widen y)))

/-- The value of an expression over its arguments. -/
def Expr.value (apply : Op → UInt32 → UInt32 → Option UInt32) (xs : List UInt32) :
    Expr → Option UInt32
  | index i => xs[i.val]?
  | paren e => e.value apply xs
  | neg e => (e.value apply xs).map F.neg
  | bin op l r => do apply op (← l.value apply xs) (← r.value apply xs)

end Values

/-- All arguments are among the first `n`. -/
def Expr.Below (n : ℕ) : Expr → Prop
  | index i => i.val < n
  | paren e => e.Below n
  | neg e => e.Below n
  | bin _ l r => l.Below n ∧ r.Below n

theorem Expr.Below.pos {e : Expr} {n : ℕ} (h : e.Below n) : 0 < n := by
  induction e with
  | index i => exact (Nat.zero_le _).trans_lt h
  | paren e ih => exact ih h
  | neg e ih => exact ih h
  | bin op l r ihl _ => exact ihl h.1

variable {F : FloatOps}

/-! ## On the stack of the child -/

section Stack

variable {arr : Fin exprMaxSize → Option UInt32} {xs : List UInt32}

theorem floatEvalBytes_append (cs ds : List ℤ) (stack : List (Option UInt32)) :
    floatEvalBytes F arr (cs ++ ds) stack =
      (floatEvalBytes F arr cs stack).bind (floatEvalBytes F arr ds) := by
  induction cs generalizing stack with
  | nil => rfl
  | cons c cs ih =>
    rw [List.cons_append, floatEvalBytes, floatEvalBytes, Option.bind_assoc]
    exact congrArg _ (funext ih)

theorem floatEvalByte_op (op : Op) (x y : UInt32) (stack : List (Option UInt32)) :
    floatEvalByte F arr (code op.char) (some y :: some x :: stack) =
      (op.onStack F x y).map fun z => some z :: stack := by
  have hbyte : evalByte (floatArith F) arr (code op.char) (some y :: some x :: stack) =
      some (op.onStack F x y :: stack) := by
    cases op <;> rfl
  rw [floatEvalByte, hbyte, Option.bind_eq_bind, Option.bind_some]
  -- Only a remainder can be undefined.
  cases hval : op.onStack F x y with
  | some z => simp
  | none =>
    have hmod : op = .mod := by
      cases op <;> first | rfl | cases hval
    subst hmod
    exact if_pos ⟨rfl, rfl⟩

/-- **The child computes the value of an expression.** -/
theorem floatEvalBytes_bytes
    (harr : ∀ i : Fin exprMaxSize, i.val < xs.length → arr i = xs[i.val]?) (e : Expr)
    (hidx : e.Below xs.length) {stack : List (Option UInt32)}
    (hl : stack.length + e.bytes.length ≤ exprStackMaxSize) :
    floatEvalBytes F arr e.bytes stack =
      (e.value F (Op.onStack F) xs).map fun x => some x :: stack := by
  induction e generalizing stack with
  | index i =>
    have hi : i.val < xs.length := hidx
    simp only [Expr.bytes, List.length_singleton] at hl
    have hbyte : evalByte (floatArith F) arr (i + 1) stack = some (arr i :: stack) :=
      Expr.evalByte_index i (by omega)
    have hcode : (i : ℤ) + 1 ≠ code '%' := by
      have : code '%' = -37 := by decide
      omega
    simp only [Expr.bytes, floatEvalBytes, floatEvalByte, hbyte, Option.bind_eq_bind,
      Option.bind_some, hcode, false_and, if_false, Expr.value, harr i hi,
      List.getElem?_eq_getElem hi, Option.map_some]
  | paren e ih => exact ih hidx hl
  | neg e ih =>
    simp only [Expr.bytes, List.length_append, List.length_singleton] at hl
    rw [Expr.bytes, floatEvalBytes_append, ih hidx (by omega), Expr.value]
    cases e.value F (Op.onStack F) xs with
    | none => rfl
    | some x => rfl
  | bin op l r ihl ihr =>
    simp only [Expr.bytes, List.length_append, List.length_singleton] at hl
    rw [Expr.bytes, floatEvalBytes_append, floatEvalBytes_append, ihl hidx.1 (by omega), Expr.value]
    cases l.value F (Op.onStack F) xs with
    | none => rfl
    | some x =>
      rw [Option.map_some, Option.bind_some, ihr hidx.2 (by simp only [List.length_cons]; omega)]
      cases r.value F (Op.onStack F) xs with
      | none => rfl
      | some y =>
        simp only [Option.map_some, Option.bind_some, Option.bind_eq_bind, floatEvalBytes,
          floatEvalByte_op, Option.bind_fun_some]

end Stack

/-! ## The postfix string -/

/-- The bytes of a string of `int8_t`. -/
def postfixBytes (bs : List ℤ) : List UInt8 := bs.map fun b => UInt8.ofBitVec (BitVec.ofInt 8 b)

theorem bytes_range (e : Expr) : ∀ b ∈ e.bytes, -128 ≤ b ∧ b < 128 ∧ b ≠ 0 := by
  intro b hb
  induction e with
  | index i =>
    rw [List.mem_singleton.1 hb]
    have := i.isLt
    simp only [exprMaxSize] at this
    omega
  | paren e ih => exact ih hb
  | neg e ih =>
    rcases List.mem_append.1 hb with hb | hb
    · exact ih hb
    · rw [List.mem_singleton.1 hb]
      decide
  | bin op l r ihl ihr =>
    rcases List.mem_append.1 hb with hb | hb
    · rcases List.mem_append.1 hb with hb | hb
      · exact ihl hb
      · exact ihr hb
    · rw [List.mem_singleton.1 hb]
      cases op <;> decide

/-- The child reads the string back. -/
theorem signedString_postfixBytes {bs : List ℤ} (hbs : ∀ b ∈ bs, -128 ≤ b ∧ b < 128 ∧ b ≠ 0) {k : ℕ}
    (hk : 0 < k) : signedString (postfixBytes bs ++ List.replicate k 0) = some bs := by
  have hint : ∀ b ∈ bs, (BitVec.ofInt 8 b).toInt = b := by
    intro b hb
    obtain ⟨h₁, h₂, -⟩ := hbs b hb
    rw [BitVec.toInt_ofInt]
    exact Int.bmod_eq_of_le (by omega) (by omega)
  have hne : ∀ c ∈ postfixBytes bs, c ≠ 0 := by
    intro c hc
    obtain ⟨b, hb, rfl⟩ := List.mem_map.1 hc
    intro hzero
    have hvec : BitVec.ofInt 8 b = 0 := congrArg UInt8.toBitVec hzero
    have := hint b hb
    rw [hvec] at this
    exact (hbs b hb).2.2 this.symm
  have htake : (postfixBytes bs ++ List.replicate k 0).takeWhile (· ≠ 0) = postfixBytes bs := by
    rw [List.takeWhile_append_of_pos (fun c hc => decide_eq_true (hne c hc))]
    cases k with
    | zero => exact absurd hk (lt_irrefl 0)
    | succ k => simp [List.replicate_succ]
  have hmem : (0 : UInt8) ∈ postfixBytes bs ++ List.replicate k 0 :=
    List.mem_append_right _ (List.mem_replicate.2 ⟨hk.ne', rfl⟩)
  rw [signedString, if_pos hmem, htake, postfixBytes, List.map_map]
  congr 1
  refine (List.map_congr_left fun b hb => ?_).trans (List.map_id bs)
  show (BitVec.ofNat 8 (BitVec.ofInt 8 b).toNat).toInt = b
  rw [BitVec.ofNat_toNat, BitVec.setWidth_eq, hint b hb]

/-! ## The request -/

variable {g : Gcm}

section Child

variable {items : List EncFloat} {expr : Str} {hle : items.length ≤ exprMaxSize} {e : Expr}
  {xs : List UInt32} {r : OpsProcess}

/-- The string in the region. -/
theorem read_expr (hin : (Request.evalExpr items expr hle).In r.mem) :
    r.mem.read (exprExpr + 4) stringLength =
      expr.data ++ List.replicate (stringLength - expr.len) 0 := by
  have hfield := hin.field (n := 4 + stringLength)
    (List.mem_cons_of_mem _ (List.mem_cons_of_mem _ List.mem_cons_self)) (by
      have := expr.len_le
      simp only [List.length_append, length_leBytes, List.length_replicate, Str.len]
      omega)
  rw [Mem.read_add] at hfield
  exact (List.append_inj hfield (by rw [Mem.length_read, length_leBytes])).2

/-- **The child evaluates the expression.** -/
theorem encFloat32EvalExpr_eq (hin : (Request.evalExpr items expr hle).In r.mem)
    (hargs : List.Forall₂ (Carries g) items (xs.map floatBytes)) (hidx : e.Below xs.length)
    (hdata : expr.data = postfixBytes e.bytes) (hsize : e.bytes.length < exprStackMaxSize) :
    encFloat32EvalExpr g F r = (e.value F (Op.onStack F) xs).bind fun x =>
      encryptInto g r (floatBytes x) exprRes encFloat4Length := by
  have hlen : items.length = xs.length := by rw [hargs.length_eq, List.length_map]
  have hpos : 0 < xs.length := hidx.pos
  -- every argument decrypts
  have hitem : ∀ i (hi : i < xs.length),
      g.decryptBytes (r.mem.read (exprItem i) encFloat4Length) = (0, some (floatBytes xs[i])) := by
    intro i hi
    have hrel := rel_getElem? hargs i
    rw [List.getElem?_map, List.getElem?_eq_getElem hi, Option.map_some,
      List.getElem?_eq_getElem (hlen ▸ hi)] at hrel
    cases hrel with
    | some hheld =>
      rw [read_item hin (List.getElem?_eq_getElem (hlen ▸ hi))]
      exact decryptBytes_bytes hheld (by decide)
  have hlast : (r.mem.int exprArgCnt - 1).toNat = xs.length - 1 := by
    rw [int_exprArgCnt hin, hlen]
    omega
  have hstring : signedString (r.mem.read (exprExpr + 4) stringLength) = some e.bytes := by
    have hk : 0 < stringLength - expr.len := by
      rw [Str.len, hdata, postfixBytes, List.length_map]
      simp only [exprStackMaxSize, stringLength] at hsize ⊢
      omega
    rw [read_expr hin, hdata]
    exact signedString_postfixBytes (bytes_range e) hk
  have hbound : ¬ exprMaxSize ≤ xs.length - 1 := by omega
  have hcode : (g.decryptBytes (r.mem.read (exprItem (xs.length - 1)) encFloat4Length)).1 = 0 := by
    rw [hitem (xs.length - 1) (by omega)]
  have heval : ∀ arr : Fin exprMaxSize → Option UInt32,
      (∀ i : Fin exprMaxSize, i.val < xs.length → arr i = xs[i.val]?) →
      HEDB.plainFloatEvalExpr F e.bytes arr = e.value F (Op.onStack F) xs := by
    intro arr harr
    rw [HEDB.plainFloatEvalExpr, floatEvalBytes_bytes harr e hidx
      (by simp only [List.length_nil]; omega)]
    cases e.value F (Op.onStack F) xs <;> rfl
  rw [encFloat32EvalExpr]
  simp only [hlast, hbound, hcode, hstring, ne_eq, not_true_eq_false, if_false, Option.bind_eq_bind,
    Option.bind_some]
  rw [heval]
  intro i hi
  rw [if_pos (by omega), hitem i hi, Option.map_some, bytesFloat_floatBytes,
    List.getElem?_eq_getElem hi]

/-- The ciphertext of the value is delivered. The branch of the expression runs on into an
encryption, which is written elsewhere. -/
theorem answers_evalExpr (hin : (Request.evalExpr items expr hle).In r.mem)
    (hargs : List.Forall₂ (Carries g) items (xs.map floatBytes)) (hidx : e.Below xs.length)
    (hdata : expr.data = postfixBytes e.bytes) (hsize : e.bytes.length < exprStackMaxSize)
    {x : UInt32} (hx : e.value F (Op.onStack F) xs = some x) :
    Answers g F (.evalExpr items expr hle) r (.cipher (floatBytes x)) := by
  have hexpr := encFloat32EvalExpr_eq (F := F) hin hargs hidx hdata hsize
  have h32 : (floatBytes x).length + ivSize + tagSize = encFloat4Length := by
    rw [length_floatBytes]
    decide
  rw [hx, Option.bind_some, encryptInto_eq h32] at hexpr
  have hop : operation g F (.evalExpr items expr hle) r =
      (setResp (encFloat32EvalExpr g F r)).bind (HEDB.encEncrypt g .float) := rfl
  rw [hexpr, setResp_some, Option.bind_some, HEDB.encEncrypt,
    encryptInto_eq (by rw [Mem.length_read]; rfl)] at hop
  refine ⟨_, (handleCmd_eq _ r).trans (congrArg setResp hop), ?_⟩
  have hcipher := Gcm.decrypts_gcmEncrypt (g := g) (increment r.iv) (floatBytes x)
  have hlen := (Gcm.length_gcmEncrypt (g := g) (increment r.iv) (floatBytes x)).trans h32
  rw [← Mem.read_write_of_length r.mem exprRes _ _ hlen] at hcipher
  refine Eq.mp (congrArg (g.Decrypts · (floatBytes x)) (Eq.symm ?_)) hcipher
  refine (Mem.read_write_of_disjoint _ (.inr ?_)).trans (Mem.read_write_of_disjoint _ (.inr ?_))
  · rw [Gcm.length_gcmEncrypt, Mem.length_read]
    decide
  · rw [length_intBytes]
    decide

end Child

end EvalExpr

end HEDB
