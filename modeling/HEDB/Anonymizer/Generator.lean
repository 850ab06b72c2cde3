import HEDB.Anonymizer.KTest
import HEDB.Pipeline.Failures
import HEDB.PrivacyZone.Context
import HEDB.RecordReplay.Desenitizer

/-!
# The ktest generator

`gen_ktest_file` of the anonymizer turns a request into a ktest file: it decrypts the operands into
local buffers and pushes them as named objects, a text as `STR_SYMBOL_SIZE` bytes and an array as
`BULK_SIZE` numbers. The return codes of `decrypt_bytes` are dropped, and neither the locals nor the
array are initialized. What they and the memory behind them hold when the call starts is the
parameter `Locals`.

`seed` has the objects that an opcode and operands determine, up to what follows a text or an array.
The generator always writes a seed of what `decrypt_bytes` has left in its buffers
(`genKtestFile_eq`), and it depends only on the opcode and the operands in the request buffer
(`genKtestFile_congr`).
-/

namespace HEDB

namespace Anonymizer

open Layout KTest

/-- `STR_SYMBOL_SIZE`. -/
def strSymbolSize : ℕ := 500

/-- The memory from the start of each operand buffer of `gen_ktest_file` on, in the order in which
the buffers are filled. -/
structure Locals where
  fst : Mem
  snd : Mem
  trd : Mem

/-- Buffers with zeros in them and behind them. -/
def Locals.zero : Locals := ⟨Mem.zero, Mem.zero, Mem.zero⟩

/-! ## The generator -/

section Generator

variable (x : Mbedtls) (F : FloatOps) (ctx : Context)

/-- `decrypt_bytes` to offset `o` of a buffer. -/
def decryptAt (src : List UInt8) (o : ℕ) (dst : Mem) : Mem :=
  dst.write o (x.decryptBytesIn ctx src (dst.read o (src.length - (ivSize + tagSize)))).2

/-- The number in a local variable, converted to `int`. -/
def intValue (local_ : Mem) : Num → Option ℤ
  | .int => some (local_.int 0)
  | .float => F.toInt (bytesFloat (local_.read 0 4))

/-- The loop that decrypts the items of a bulk request into the array, from item `i` on. -/
def decryptArray : List (List UInt8) → ℕ → Mem → Mem
  | [], _, array => array
  | item :: items, i, array => decryptArray items (i + 1) (decryptAt x ctx item (4 * i) array)

/-- The same loop on `EncFloat`, which goes through the local `tmp`. -/
def convertArray : List (List UInt8) → ℕ → Mem → Mem → Option Mem
  | [], _, _, array => some array
  | item :: items, i, tmp, array => do
    let tmp := decryptAt x ctx item 0 tmp
    let v ← F.toInt (bytesFloat (tmp.read 0 4))
    convertArray items (i + 1) tmp (array.write (4 * i) (intBytes v))

variable (m : Mem) (l : Locals)

/-- Arithmetic. Numbers of type `float` are replaced by `int`. -/
def genCalc (n : Num) (type : ℤ) : Option (List KTestObject) := do
  let left ← intValue F (decryptAt x ctx (m.read calcLeft n.size) 0 l.fst) n
  let right ← intValue F (decryptAt x ctx (m.read (calcRight n.size) n.size) 0 l.snd) n
  return [pushInt "int_calc_type" type, pushInt "int_calc_left" left,
    pushInt "int_calc_right" right]

/-- Comparison of numbers. -/
def genCmp (n : Num) : Option (List KTestObject) := do
  let left ← intValue F (decryptAt x ctx (m.read cmpLeft n.size) 0 l.fst) n
  let right ← intValue F (decryptAt x ctx (m.read (cmpRight n.size) n.size) 0 l.snd) n
  return [pushInt "int_cmp_left" left, pushInt "int_cmp_right" right]

/-- Bulk sums. There is no array of negative size. -/
def genBulk (n : Num) : Option (List KTestObject) := do
  let size := m.int Layout.bulkSize
  if size < 0 then none
  let items := bulkArray m n.size size.toNat
  let array ← match n with
    | .int => some (decryptArray x ctx items 0 l.fst)
    | .float => convertArray x F ctx items 0 l.snd l.fst
  return [pushInt "int_bulk_type" Cmd.intSumBulk.code, pushInt "int_bulk_size" size,
    ⟨"int_bulk_array", array.read 0 (HEDB.bulkSize * 4)⟩]

/-- Year extraction. -/
def genYear : List KTestObject :=
  [⟨"timestamp_extract_year_t",
    (decryptAt x ctx (m.read yearIn encTimestampLength) 0 l.fst).read 0 timestampLength⟩]

/-- Comparison of timestamps. -/
def genTimestampCmp : List KTestObject :=
  [⟨"timestamp_cmp_left",
      (decryptAt x ctx (m.read cmpLeft encTimestampLength) 0 l.fst).read 0 timestampLength⟩,
    ⟨"timestamp_cmp_right", (decryptAt x ctx (m.read (cmpRight encTimestampLength)
      encTimestampLength) 0 l.snd).read 0 timestampLength⟩]

/-- A text operand: the `EncStr` at offset `o` is decrypted into the array of a `Str`, ended with a
zero and pushed together with what follows. The zero must be in the array. -/
def genText (name : String) (o : ℕ) (data : Mem) : Option KTestObject := do
  let len := plainLen (m.uint (o + strLen))
  terminate m o
  let data := (decryptAt x ctx (encCstr m o) 0 data).write len [0]
  return ⟨name, data.read 0 strSymbolSize⟩

/-- Substrings. -/
def genSubstring : Option (List KTestObject) := do
  let str ← genText x ctx m "text_substring_str" subStr l.fst
  let start := decryptAt x ctx (m.read subStart encInt32Length) 0 l.snd
  let length := decryptAt x ctx (m.read subLength encInt32Length) 0 l.trd
  return [str, pushInt "text_substring_start" (start.int 0),
    pushInt "text_substring_length" (length.int 0)]

/-- Concatenation. -/
def genConcat : Option (List KTestObject) := do
  let left ← genText x ctx m "text_concat_left" calcLeft l.fst
  let right ← genText x ctx m "text_concat_right" (calcRight sizeofEncStr) l.snd
  return [left, right]

/-- Text comparison and `LIKE`. -/
def genTextCmp : Option (List KTestObject) := do
  let left ← genText x ctx m "text_cmp_left" cmpLeft l.fst
  let right ← genText x ctx m "text_cmp_right" (cmpRight sizeofEncStr) l.snd
  return [left, right]

/-- The switch on the opcode. -/
def genOperands : Option Cmd → Option (List KTestObject)
  | some .intPlus | some .intMinus | some .intMult | some .intDiv | some .intPow | some .intMod =>
    genCalc x F ctx m l .int (m.int reqType)
  | some .intCmp => genCmp x F ctx m l .int
  | some .intSumBulk => genBulk x F ctx m l .int
  | some .floatPlus | some .floatMinus | some .floatMult | some .floatDiv | some .floatPow
  | some .floatMod => genCalc x F ctx m l .float (m.int reqType - 100)
  | some .floatCmp => genCmp x F ctx m l .float
  | some .floatSumBulk => genBulk x F ctx m l .float
  | some .timestampExtractYear => some (genYear x ctx m l)
  | some .timestampCmp => some (genTimestampCmp x ctx m l)
  | some .stringSubstring => genSubstring x ctx m l
  | some .stringConcat => genConcat x ctx m l
  | some .stringLike | some .stringCmp => genTextCmp x ctx m l
  | _ => some []

/-- `gen_ktest_file`: the objects that it writes, or nothing when its behaviour is undefined. -/
def genKtestFile : Option (List KTestObject) :=
  (genOperands x F ctx m l (Cmd.ofCode (m.int reqType))).map fun objects =>
    pushInt "model_version" 1 :: pushInt "op" (m.int reqType) :: objects

end Generator

/-! ## Seeds -/

/-- A text, its zero and what follows them. -/
def seedText (p : List UInt8) (data : Mem) : List UInt8 :=
  p ++ 0 :: data.read (p.length + 1) (strSymbolSize - (p.length + 1))

/-- The numbers of an array and what follows them. -/
def seedArray (ps : List (List UInt8)) (array : Mem) : List UInt8 :=
  ps.flatten ++ array.read (4 * ps.length) (HEDB.bulkSize * 4 - 4 * ps.length)

/-- The objects for the operands `ps` of an operation. -/
def seedOperands (l : Locals) : Cmd → List (List UInt8) → List KTestObject
  | .intSumBulk, ps => [pushInt "int_bulk_type" Cmd.intSumBulk.code,
      pushInt "int_bulk_size" ps.length, ⟨"int_bulk_array", seedArray ps l.fst⟩]
  | .intCmp, [p, q] => [⟨"int_cmp_left", p⟩, ⟨"int_cmp_right", q⟩]
  | .timestampExtractYear, [p] => [⟨"timestamp_extract_year_t", p⟩]
  | .timestampCmp, [p, q] => [⟨"timestamp_cmp_left", p⟩, ⟨"timestamp_cmp_right", q⟩]
  | .stringSubstring, [p, start, length] => [⟨"text_substring_str", seedText p l.fst⟩,
      ⟨"text_substring_start", start⟩, ⟨"text_substring_length", length⟩]
  | .stringConcat, [p, q] =>
    [⟨"text_concat_left", seedText p l.fst⟩, ⟨"text_concat_right", seedText q l.snd⟩]
  | .stringCmp, [p, q] | .stringLike, [p, q] =>
    [⟨"text_cmp_left", seedText p l.fst⟩, ⟨"text_cmp_right", seedText q l.snd⟩]
  | cmd, [p, q] => [pushInt "int_calc_type" cmd.code, ⟨"int_calc_left", p⟩, ⟨"int_calc_right", q⟩]
  | _, _ => []

/-- The objects for an opcode and operands. -/
def seed (l : Locals) (cmd : Cmd) (ps : List (List UInt8)) : List KTestObject :=
  pushInt "model_version" 1 :: pushInt "op" cmd.code :: seedOperands l cmd ps

end Anonymizer

namespace Request

/-- The logged operations on `EncInt`, `EncText` and `EncTimestamp`. -/
def Seedable : Request → Prop
  | .cmp .int _ _ | .cmp .timestamp _ _ | .calcNum .int _ _ _ | .bulk .int _ _ | .extractYear _
  | .strCmp _ _ | .strLike _ _ | .substring _ _ _ | .concat _ _ => True
  | _ => False

theorem Seedable.logged {q : Request} (hq : q.Seedable) : q.Logged := by
  cases q with
  | cmp | calcNum | bulk | extractYear | strCmp | strLike | substring | concat => trivial
  | enc | dec | strEnc | strDec | evalExpr => exact hq.elim

end Request

namespace Anonymizer

open Layout KTest

section Buffers

variable (x : Mbedtls) (ctx : Context)

/-- What `decrypt_bytes` leaves of a ciphertext in a buffer. -/
def opened (c : List UInt8) (buf : Mem) : List UInt8 :=
  (x.decryptBytesIn ctx c (buf.read 0 (c.length - (ivSize + tagSize)))).2

/-- What it leaves of the items in the array, from item `i` on. -/
def openedItems (array : Mem) : List (List UInt8) → ℕ → List (List UInt8)
  | [], _ => []
  | c :: cs, i => (x.decryptBytesIn ctx c (array.read (4 * i) 4)).2 :: openedItems array cs (i + 1)

/-- What `gen_ktest_file` finds in its buffers for the ciphertexts of a request. -/
def openedAll (q : Request) (l : Locals) : List (List UInt8) :=
  match q with
  | .bulk _ items _ => openedItems x ctx l.fst (items.map Bytes.bytes) 0
  | q => List.zipWith (opened x ctx) q.ciphertexts [l.fst, l.snd, l.trd]

variable {x ctx}

@[simp] theorem length_opened (c : List UInt8) (buf : Mem) :
    (opened x ctx c buf).length = c.length - (ivSize + tagSize) := by
  rw [opened, Mbedtls.length_decryptBytesIn ctx (Mem.length_read ..), Mem.length_read]

theorem decryptAt_zero (c : List UInt8) (buf : Mem) :
    decryptAt x ctx c 0 buf = buf.write 0 (opened x ctx c buf) := rfl

/-- A buffer of the size of the data holds what `decrypt_bytes` has left. -/
theorem read_decryptAt {c : List UInt8} {n : ℕ} (hc : c.length = n + (ivSize + tagSize))
    (buf : Mem) :
    (decryptAt x ctx c 0 buf).read 0 n = opened x ctx c buf := by
  rw [decryptAt_zero, Mem.read_write_of_length]
  rw [length_opened, hc, Nat.add_sub_cancel]

/-- Pushing an `int` pushes the bytes of the variable. -/
theorem pushInt_decryptAt {c : List UInt8} (name : String) (hc : c.length = encInt32Length)
    (buf : Mem) :
    pushInt name ((decryptAt x ctx c 0 buf).int 0) = ⟨name, opened x ctx c buf⟩ := by
  have hread : (decryptAt x ctx c 0 buf).read 0 4 = opened x ctx c buf := read_decryptAt hc buf
  have hlen : (opened x ctx c buf).length = 4 := by rw [length_opened, hc]; rfl
  rw [pushInt, Mem.int, hread, intBytes_bytesInt hlen]

/-! ### Texts -/

/-- A text operand whose zero is in the array. -/
theorem genText_eq {m : Mem} {o : ℕ} {a : EncStr} (name : String) (data : Mem)
    (huint : m.uint (o + strLen) = a.len) (hcstr : encCstr m o = a.cstr) :
    genText x ctx m name o data =
      if ivSize + tagSize ≤ a.len ∧ a.len < encStringLength then
        some ⟨name, seedText (opened x ctx a.cstr data) data⟩
      else none := by
  unfold genText
  rw [terminate_of_uint huint]
  split_ifs with h
  · have hlen : plainLen a.len = (opened x ctx a.cstr data).length := by
      have hle : a.len ≤ 284 := a.len_le
      obtain ⟨n, hn⟩ := Nat.exists_eq_add_of_le' h.1
      rw [length_opened, ← EncStr.len, hn, ← Nat.add_assoc, plainLen_add]
      · omega
      · simp only [ivSize, tagSize, stringLength] at hn ⊢
        omega
    have hsize : strSymbolSize = (opened x ctx a.cstr data ++ [0]).length +
        (strSymbolSize - ((opened x ctx a.cstr data).length + 1)) := by
      have hle : a.cstr.length ≤ 284 := a.len_le
      simp only [List.length_append, List.length_singleton, length_opened, strSymbolSize]
      omega
    have hwrite : (decryptAt x ctx a.cstr 0 data).write (opened x ctx a.cstr data).length [0] =
        data.write 0 (opened x ctx a.cstr data ++ [0]) := by
      rw [decryptAt_zero, ← Mem.write_write, Nat.zero_add]
    rw [huint, hcstr, hlen]
    show some (KTestObject.mk name (((decryptAt x ctx a.cstr 0 data).write _ [0]).read 0 _)) = _
    rw [hwrite, hsize, Mem.read_add, Mem.read_write, Nat.zero_add,
      Mem.read_write_of_disjoint _ (.inr (by simp)), List.append_assoc, seedText]
    simp
  · rfl

/-! ### Arrays -/

theorem length_openedItems (array : Mem) (cs : List (List UInt8)) (i : ℕ) :
    (openedItems x ctx array cs i).length = cs.length := by
  induction cs generalizing i with
  | nil => rfl
  | cons c cs ih => simp [openedItems, ih]

/-- The items do not overlap, so each finds the array as it was. -/
theorem openedItems_congr {array array' : Mem} {cs : List (List UInt8)} {i : ℕ}
    (h : ∀ o, 4 * i ≤ o → array o = array' o) :
    openedItems x ctx array cs i = openedItems x ctx array' cs i := by
  induction cs generalizing i with
  | nil => rfl
  | cons c cs ih =>
    rw [openedItems, openedItems, Mem.read_congr fun j _ => h (4 * i + j) (by omega),
      ih fun o ho => h o (by omega)]

section Items

variable {cs : List (List UInt8)} (hcs : ∀ c ∈ cs, c.length = encInt32Length)

include hcs

/-- The loop leaves the array as it was, before its first item and behind its last. -/
theorem decryptArray_apply_of_not {i o : ℕ} (array : Mem)
    (h : o < 4 * i ∨ 4 * (i + cs.length) ≤ o) : decryptArray x ctx cs i array o = array o := by
  induction cs generalizing i array with
  | nil => rfl
  | cons c cs ih =>
    have hlen : c.length = 32 := hcs c List.mem_cons_self
    rw [decryptArray, ih (fun c hc => hcs c (List.mem_cons_of_mem _ hc)) _ (by simp at h; omega),
      decryptAt, Mem.write_apply_of_not]
    rw [Mbedtls.length_decryptBytesIn _ (Mem.length_read ..), Mem.length_read, hlen]
    simp at h ⊢
    omega

/-- The loop fills the array with what `decrypt_bytes` leaves of each item. -/
theorem read_decryptArray (i : ℕ) (array : Mem) :
    (decryptArray x ctx cs i array).read (4 * i) (4 * cs.length) =
      (openedItems x ctx array cs i).flatten := by
  induction cs generalizing i array with
  | nil => rfl
  | cons c cs ih =>
    have hlen : c.length = 32 := hcs c List.mem_cons_self
    have htail : ∀ c ∈ cs, c.length = encInt32Length :=
      fun c hc => hcs c (List.mem_cons_of_mem _ hc)
    set bs := (x.decryptBytesIn ctx c (array.read (4 * i) 4)).2 with hbs
    have hbslen : bs.length = 4 := by
      rw [hbs, Mbedtls.length_decryptBytesIn _ (by rw [Mem.length_read, hlen]; rfl),
        Mem.length_read]
    have hwrite : decryptAt x ctx c (4 * i) array = array.write (4 * i) bs := by
      rw [decryptAt, hlen]
      rfl
    have hsame : ∀ o, 4 * (i + 1) ≤ o → array.write (4 * i) bs o = array o := fun o ho =>
      Mem.write_apply_of_not (by omega)
    have hfirst : (decryptArray x ctx cs (i + 1) (array.write (4 * i) bs)).read (4 * i) 4 = bs := by
      rw [Mem.read_congr fun j hj => decryptArray_apply_of_not htail _ (.inl (by omega)),
        Mem.read_write_of_length _ _ _ _ hbslen]
    rw [decryptArray, hwrite, List.length_cons, Nat.mul_succ, Nat.add_comm (4 * cs.length),
      Mem.read_add, hfirst, ← Nat.mul_succ, ih htail, openedItems_congr hsame, openedItems,
      List.flatten_cons]

end Items

end Buffers

/-! ## The objects of a request -/

section Objects

variable {x : Mbedtls} {F : FloatOps} {ctx : Context} {m m' : Mem} {l : Locals} {q : Request}

theorem genOperands_calcCmd (op : CalcOp) : genOperands x F ctx m l (some (Num.int.calcCmd op)) =
    genCalc x F ctx m l .int (m.int reqType) := by
  cases op <;> rfl

theorem genOperands_calcCmd_float (op : CalcOp) :
    genOperands x F ctx m l (some (Num.float.calcCmd op)) =
      genCalc x F ctx m l .float (m.int reqType - 100) := by
  cases op <;> rfl

theorem seedOperands_calcCmd (op : CalcOp) (p p' : List UInt8) :
    seedOperands l (Num.int.calcCmd op) [p, p'] =
      [pushInt "int_calc_type" (Num.int.calcCmd op).code, ⟨"int_calc_left", p⟩,
        ⟨"int_calc_right", p'⟩] := by
  cases op <;> rfl

/-- The objects of two text operands. -/
theorem genText_pair {o o' : ℕ} {a b : EncStr} {name name' : String} {data data' : Mem}
    {objects : List KTestObject} (h : q.In m) (ha : copyEnc o a ⊆ q.body)
    (hb : copyEnc o' b ⊆ q.body)
    (hgen : (do
      let left ← genText x ctx m name o data
      let right ← genText x ctx m name' o' data'
      return [left, right]) = some objects) :
    objects = [⟨name, seedText (opened x ctx a.cstr data) data⟩,
      ⟨name', seedText (opened x ctx b.cstr data') data'⟩] := by
  rw [genText_eq name data (h.encStr ha).1 (h.encStr ha).2,
    genText_eq name' data' (h.encStr hb).1 (h.encStr hb).2] at hgen
  split_ifs at hgen <;> cases hgen
  rfl

theorem genBulk_eq {items : List (Bytes Num.int.size)} {hn : items.length ≤ HEDB.bulkSize}
    (h : (Request.bulk .int items hn).In m) :
    genBulk x F ctx m l .int =
      some (seedOperands l .intSumBulk (openedAll x ctx (.bulk .int items hn) l)) := by
  have hlen : ∀ c ∈ items.map Bytes.bytes, c.length = encInt32Length := by
    intro c hc
    obtain ⟨b, -, rfl⟩ := List.mem_map.1 hc
    exact b.size
  have hcount : (items.map Bytes.bytes).length = items.length := List.length_map ..
  have hread : (decryptArray x ctx (items.map Bytes.bytes) 0 l.fst).read (4 * 0)
      (4 * (items.map Bytes.bytes).length) = _ := read_decryptArray hlen 0 l.fst
  have hle : items.length ≤ 256 := hn
  have hsplit : HEDB.bulkSize * 4 = 4 * items.length + (HEDB.bulkSize * 4 - 4 * items.length) := by
    simp only [HEDB.bulkSize]
    omega
  have hrest : (decryptArray x ctx (items.map Bytes.bytes) 0 l.fst).read (4 * items.length)
      (HEDB.bulkSize * 4 - 4 * items.length) =
        l.fst.read (4 * items.length) (HEDB.bulkSize * 4 - 4 * items.length) :=
    Mem.read_congr fun i _ => decryptArray_apply_of_not hlen _ (.inr (by rw [hcount]; omega))
  rw [hcount, Nat.mul_zero] at hread
  unfold genBulk
  rw [int_bulkSize h, if_neg (by omega), Int.toNat_natCast, bulkArray_eq h]
  show some [_, _, KTestObject.mk _ (Mem.read _ 0 _)] = _
  rw [hsplit, Mem.read_add, hread, Nat.zero_add, hrest, seedOperands, seedArray, openedAll,
    length_openedItems, hcount]

/-- **The objects are a seed of what `decrypt_bytes` has left in the buffers.** -/
theorem genKtestFile_eq {objects : List KTestObject} (h : q.In m) (hq : q.Seedable)
    (hgen : genKtestFile x F ctx m l = some objects) :
    objects = seed l q.cmd (openedAll x ctx q l) := by
  rw [genKtestFile, h.reqType, Cmd.ofCode_code] at hgen
  obtain ⟨operands, hoperands, rfl⟩ := Option.map_eq_some_iff.1 hgen
  suffices operands = seedOperands l q.cmd (openedAll x ctx q l) by rw [this, seed]
  cases q with
  | cmp f left right =>
    obtain ⟨hl, hr⟩ := h.cmp
    cases f with
    | int =>
      have hgen : genCmp x F ctx m l .int = some operands := hoperands
      rw [genCmp, show Num.int.size = Fam.int.size from rfl, hl, hr] at hgen
      cases hgen
      rw [pushInt_decryptAt _ left.size, pushInt_decryptAt _ right.size]
      rfl
    | float => exact hq.elim
    | timestamp =>
      have hgen : some (genTimestampCmp x ctx m l) = some operands := hoperands
      rw [genTimestampCmp, show encTimestampLength = Fam.timestamp.size from rfl, hl, hr] at hgen
      cases hgen
      rw [read_decryptAt left.size, read_decryptAt right.size]
      rfl
  | calcNum n op left right =>
    obtain ⟨hl, hr⟩ := h.calcNum
    cases n with
    | int =>
      rw [Request.cmd, genOperands_calcCmd, genCalc, hl, hr, h.reqType] at hoperands
      cases hoperands
      rw [pushInt_decryptAt _ left.size, pushInt_decryptAt _ right.size]
      exact (seedOperands_calcCmd op _ _).symm
    | float => exact hq.elim
  | bulk n items hn =>
    cases n with
    | int =>
      have hgen : genBulk x F ctx m l .int = some operands := hoperands
      exact (Option.some.inj ((genBulk_eq h).symm.trans hgen)).symm
    | float => exact hq.elim
  | extractYear input =>
    have hi := h.extractYear
    have hgen : some (genYear x ctx m l) = some operands := hoperands
    rw [genYear, hi] at hgen
    cases hgen
    rw [read_decryptAt input.size]
    rfl
  | strCmp left right | strLike left right | concat left right =>
    exact genText_pair h (by simp [Request.body]) (by simp [Request.body]) hoperands
  | substring str start length =>
    have hs := h.encStr (o := subStr) (c := str) (by simp [Request.body])
    obtain ⟨hst, hle⟩ := h.substring
    have hgen : genSubstring x ctx m l = some operands := hoperands
    rw [genSubstring, genText_eq _ _ hs.1 hs.2, hst, hle] at hgen
    split_ifs at hgen <;> cases hgen
    rw [pushInt_decryptAt _ start.size, pushInt_decryptAt _ length.size]
    rfl
  | enc | dec | strEnc | strDec | evalExpr => exact hq.elim

/-- A text operand depends on the bytes of the `EncStr` in use. -/
theorem genText_congr {o : ℕ} {a : EncStr} (h : q.In m) (ha : copyEnc o a ⊆ q.body)
    (ho : encStrAt m' o = encStrAt m o) (name : String) (data : Mem) :
    genText x ctx m' name o data = genText x ctx m name o data := by
  have hread := (Replayer.sizeAt_of_encStrAt (h.sizeAt ha) ho).2
  have huint : m'.uint (o + strLen) = m.uint (o + strLen) :=
    congrArg leNat (Mem.read_part hread (by simp) (by simp; omega))
  have hcstr : encCstr m' o = encCstr m o := by
    rw [encCstr, encCstr, huint, h.uint_len ha]
    exact Mem.read_part hread (by simp) (by simp; omega)
  rw [genText, genText, terminate, terminate, huint, hcstr]

/-- The file depends on the opcode and on the operands in the buffer. -/
theorem genKtestFile_congr (h : q.In m) (hq : q.Logged)
    (ht : m'.int reqType = q.cmd.code) (ho : operandsAt m' q.cmd = operandsAt m q.cmd) :
    genKtestFile x F ctx m' l = genKtestFile x F ctx m l := by
  rw [genKtestFile, genKtestFile, ht, h.reqType, Cmd.ofCode_code]
  suffices genOperands x F ctx m' l (some q.cmd) = genOperands x F ctx m l (some q.cmd) by rw [this]
  cases q with
  | cmp f left right =>
    rw [Request.cmd, operandsAt_cmpCmd, operandsAt_cmpCmd] at ho
    obtain ⟨hl, hr⟩ : _ ∧ _ := by simpa only [cmpOperands, List.cons.injEq, and_true] using ho
    cases f with
    | int =>
      show genCmp x F ctx m' l .int = genCmp x F ctx m l .int
      rw [genCmp, genCmp, show Num.int.size = Fam.int.size from rfl, hl, hr]
    | float =>
      show genCmp x F ctx m' l .float = genCmp x F ctx m l .float
      rw [genCmp, genCmp, show Num.float.size = Fam.float.size from rfl, hl, hr]
    | timestamp =>
      show some (genTimestampCmp x ctx m' l) = some (genTimestampCmp x ctx m l)
      rw [genTimestampCmp, genTimestampCmp, show encTimestampLength = Fam.timestamp.size from rfl,
        hl, hr]
  | calcNum n op left right =>
    rw [Request.cmd, operandsAt_calcCmd, operandsAt_calcCmd] at ho
    obtain ⟨hl, hr⟩ : _ ∧ _ := by simpa only [calcOperands, List.cons.injEq, and_true] using ho
    cases n with
    | int =>
      rw [Request.cmd, genOperands_calcCmd, genOperands_calcCmd, genCalc, genCalc, hl, hr, ht,
        h.reqType]
    | float =>
      rw [Request.cmd, genOperands_calcCmd_float, genOperands_calcCmd_float, genCalc, genCalc, hl,
        hr, ht, h.reqType]
  | bulk n items hn =>
    rw [Request.cmd, operandsAt_bulkCmd, operandsAt_bulkCmd] at ho
    obtain ⟨hs, hi⟩ := List.cons.inj ho
    have hint : m'.int Layout.bulkSize = m.int Layout.bulkSize := congrArg bytesInt hs
    have hgen : ∀ m, genOperands x F ctx m l (some n.bulkCmd) = genBulk x F ctx m l n := by
      cases n <;> exact fun _ => rfl
    rw [hint] at hi
    rw [Request.cmd, hgen, hgen, genBulk, genBulk, hint,
      show bulkArray m' _ _ = bulkArray m _ _ from hi]
  | extractYear input =>
    have hi := (List.cons.inj ho).1
    show some (genYear x ctx m' l) = some (genYear x ctx m l)
    rw [genYear, genYear, hi]
  | strCmp left right | strLike left right =>
    obtain ⟨hl, hr⟩ : _ ∧ _ := by
      simpa only [operandsAt, Request.cmd, List.cons.injEq, and_true] using ho
    show genTextCmp x ctx m' l = genTextCmp x ctx m l
    rw [genTextCmp, genTextCmp, genText_congr h (a := left) (by simp [Request.body]) hl,
      genText_congr h (a := right) (by simp [Request.body]) hr]
  | substring str start length =>
    obtain ⟨hs, hst, hle⟩ : _ ∧ _ ∧ _ := by
      simpa only [operandsAt, Request.cmd, List.cons.injEq, and_true] using ho
    show genSubstring x ctx m' l = genSubstring x ctx m l
    rw [genSubstring, genSubstring, genText_congr h (a := str) (by simp [Request.body]) hs, hst,
      hle]
  | concat left right =>
    obtain ⟨hl, hr⟩ : _ ∧ _ := by
      simpa only [operandsAt, Request.cmd, List.cons.injEq, and_true] using ho
    show genConcat x ctx m' l = genConcat x ctx m l
    rw [genConcat, genConcat, genText_congr h (a := left) (by simp [Request.body]) hl,
      genText_congr h (a := right) (by simp [Request.body]) hr]
  | enc | dec | strEnc | strDec | evalExpr => exact hq.elim

end Objects

end Anonymizer

end HEDB
