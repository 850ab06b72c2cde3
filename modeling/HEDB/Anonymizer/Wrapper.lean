import HEDB.Anonymizer.Generator
import HEDB.Pipeline.PlainCalls

/-!
# The replay wrapper

KLEE replays a ktest file by running `ops_wrapper` on it. The wrapper reads the opcode and the
operands from the named objects of the file and calls a function of `plain_ops`. It is meant to call
the one that the handler called when the request was served.

`reproduces_iff` says when it does: for the comparisons and for the arithmetic other than powers.
The others differ from the handler in four ways. The label for powers is the undefined
`CMD_INT_EXP`; bulk sums call `plain_int32_bulk`, which does not exist; texts go into arrays that
are smaller than their objects; and substrings pass the length for the start and the start for the
length.
-/

namespace HEDB

namespace Anonymizer

open Layout KTest

/-! ## The wrapper -/

/-- `MAX_TEXT_LENGTH`. -/
def maxTextLength : ℕ := 100

/-- The labels of the switch of `ops_wrapper` that lead to a call and are defined. -/
def switchLabels : List ℤ :=
  [Cmd.intPlus, .intMinus, .intMult, .intDiv, .intMod, .intCmp, .intSumBulk, .timestampExtractYear,
    .timestampCmp, .stringSubstring, .stringConcat, .stringLike, .stringCmp].map Cmd.code

/-- A value for `CMD_INT_EXP`, which `defs.h` does not define. The labels of a switch are
distinct. -/
structure ExpLabel where
  value : ℤ
  fresh : value ∉ switchLabels

section Wrapper

variable (truncation : Bool) (objects : List KTestObject)

/-- `klee_make_symbolic` on a variable of `size` bytes, while KLEE replays a seed: the variable
takes the value of the object of that name. A shorter object ends the run, and so does a longer one
unless KLEE is started with `--allow-seed-truncation`. -/
def makeSymbolic (name : String) (size : ℕ) : Option (List UInt8) :=
  (objects.find? fun o => o.name = name).bind fun o =>
    if o.bytes.length < size ∨ size < o.bytes.length ∧ truncation = false then none
    else some (o.bytes.take size)

/-- The text in an array, with the size that `strlen` finds. -/
def textArg (array : List UInt8) : Option (List UInt8) :=
  if 0 ∈ array then some (cString array) else none

/-- A wrapper that passes two texts on. -/
def textWrapper (left right : String) (call : List UInt8 → List UInt8 → PlainCall) :
    Option PlainCall := do
  let left ← makeSymbolic truncation objects left maxTextLength
  let right ← makeSymbolic truncation objects right maxTextLength
  return call (← textArg left) (← textArg right)

/-- `text_cmp_wrapper`. -/
def textCmpWrapper : Option PlainCall :=
  textWrapper truncation objects "text_cmp_left" "text_cmp_right" .textCmp

/-- `text_like_wrapper`. -/
def textLikeWrapper : Option PlainCall :=
  textWrapper truncation objects "text_cmp_left" "text_cmp_right" .textLike

/-- `text_concat_wrapper`. -/
def textConcatWrapper : Option PlainCall :=
  textWrapper truncation objects "text_concat_left" "text_concat_right" .textConcat

/-- `text_substring_wrapper`. The length comes before the start. -/
def textSubstringWrapper : Option PlainCall := do
  let str ← makeSymbolic truncation objects "text_substring_str" maxTextLength
  let start ← makeSymbolic truncation objects "text_substring_start" 4
  let length ← makeSymbolic truncation objects "text_substring_length" 4
  return .textSubstring str (bytesInt length) (bytesInt start)

/-- `int_calc_wrapper`. -/
def intCalcWrapper : Option PlainCall := do
  let reqType ← makeSymbolic truncation objects "int_calc_type" 4
  let left ← makeSymbolic truncation objects "int_calc_left" 4
  let right ← makeSymbolic truncation objects "int_calc_right" 4
  return .int32Calc (bytesInt reqType) (bytesInt left) (bytesInt right)

/-- `int_cmp_wrapper`. -/
def intCmpWrapper : Option PlainCall := do
  let left ← makeSymbolic truncation objects "int_cmp_left" 4
  let right ← makeSymbolic truncation objects "int_cmp_right" 4
  return .int32Cmp (bytesInt left) (bytesInt right)

/-- `int_bulk_wrapper`. -/
def intBulkWrapper : Option PlainCall := do
  let reqType ← makeSymbolic truncation objects "int_bulk_type" 4
  let size ← makeSymbolic truncation objects "int_bulk_size" 4
  let array ← makeSymbolic truncation objects "int_bulk_array" (4 * HEDB.bulkSize)
  return .int32Bulk (bytesInt reqType) (bytesInt size)
    ((List.range HEDB.bulkSize).map fun i => bytesInt ((array.drop (4 * i)).take 4))

/-- `timestamp_cmp_wrapper`. -/
def timestampCmpWrapper : Option PlainCall := do
  let left ← makeSymbolic truncation objects "timestamp_cmp_left" 8
  let right ← makeSymbolic truncation objects "timestamp_cmp_right" 8
  return .timestampCmp (bytesInt64 left) (bytesInt64 right)

/-- `timestamp_extract_year_wrapper`. -/
def timestampExtractYearWrapper : Option PlainCall := do
  let t ← makeSymbolic truncation objects "timestamp_extract_year_t" 8
  return .timestampExtractYear (bytesInt64 t)

/-- The switch of `ops_wrapper`, on the labels that are defined. The operations on `float` are not
supported, and the case of `CMD_PREFIX_OVERLAP` does not call a function of `plain_ops`. -/
def opsSwitch : Option Cmd → Option PlainCall
  | some .intPlus | some .intMinus | some .intMult | some .intDiv | some .intMod =>
    intCalcWrapper truncation objects
  | some .intCmp => intCmpWrapper truncation objects
  | some .intSumBulk => intBulkWrapper truncation objects
  | some .timestampExtractYear => timestampExtractYearWrapper truncation objects
  | some .timestampCmp => timestampCmpWrapper truncation objects
  | some .stringSubstring => textSubstringWrapper truncation objects
  | some .stringConcat => textConcatWrapper truncation objects
  | some .stringLike => textLikeWrapper truncation objects
  | some .stringCmp => textCmpWrapper truncation objects
  | _ => none

/-- `ops_wrapper`: the call of a function of `plain_ops` that it reaches, if any. -/
def opsWrapper (e : ExpLabel) : Option PlainCall :=
  (makeSymbolic truncation objects "op" 4).bind fun op =>
    if bytesInt op = e.value then intCalcWrapper truncation objects
    else opsSwitch truncation objects (Cmd.ofCode (bytesInt op))

end Wrapper

/-! ## Statement -/

/-- The second call passes the same arguments in the same positions. A string that is passed without
its size is the same when the text and the zero after it are. -/
def SameCall : PlainCall → PlainCall → Prop
  | .textSubstring str start length, .textSubstring array start' length' =>
    str ++ [0] <+: array ∧ start = start' ∧ length = length'
  | call, call' => call = call'

/-- The wrapper, on the objects that the generator emits for a request in a process that has the
key, makes the call that the handler reaches for this request. -/
def Reproduces (x : Mbedtls) (F : FloatOps) (truncation : Bool) (e : ExpLabel) (q : Request)
    (m m' : Mem) (l : Locals) : Prop :=
  ∀ call, handlerCall x.toGcm m (some q.cmd) = some call →
    ∃ objects, genKtestFile x F .keyed m' l = some objects ∧
      ∃ call', opsWrapper truncation objects e = some call' ∧ SameCall call call'

/-- A text that `strlen` measures in an array of `MAX_TEXT_LENGTH` bytes. -/
def ShortText (p : List UInt8) : Prop := 0 ∉ p ∧ p.length < maxTextLength

/-- The plaintexts for which the wrapper agrees with the handler. -/
def Reproducible (truncation : Bool) (e : ExpLabel) : Request → List (List UInt8) → Prop
  | .calcNum _ op _ _, _ => op = .pow → e.value = Cmd.intPow.code
  | .bulk _ _ _, _ => False
  | .strCmp _ _, [p, p'] | .strLike _ _, [p, p'] | .concat _ _, [p, p'] =>
    truncation = true ∧ ShortText p ∧ ShortText p'
  | .substring _ _ _, [p, start, length] =>
    truncation = true ∧ p.length < maxTextLength ∧ start = length
  | _, _ => True

/-! ## Objects with the key -/

section Keyed

variable {x : Mbedtls} {F : FloatOps} {q : Request} {m : Mem} {l : Locals} {ps : List (List UInt8)}

theorem opened_keyed {c p : List UInt8} (h : x.Authentic c p) (buf : Mem) :
    opened x .keyed c buf = p :=
  Mbedtls.decryptBytesIn_keyed h.1 (by rw [Mem.length_read, h.1.length_eq])

theorem openedItems_keyed {cs : List (List UInt8)} (hcs : ∀ c ∈ cs, c.length = encInt32Length)
    (h : List.Forall₂ x.Authentic cs ps) (array : Mem) (i : ℕ) :
    openedItems x .keyed array cs i = ps := by
  induction h generalizing i with
  | nil => rfl
  | cons hp _ ih =>
    have hlen := hcs _ List.mem_cons_self
    rw [openedItems, ih fun c hc => hcs c (List.mem_cons_of_mem _ hc),
      Mbedtls.decryptBytesIn_keyed hp.1 (by rw [Mem.length_read, hp.1.length_eq, hlen]; rfl)]

theorem openedAll_keyed (hq : q.Seedable) (h : List.Forall₂ x.Authentic q.ciphertexts ps) :
    openedAll x .keyed q l = ps := by
  cases q with
  | bulk n items hn =>
    refine openedItems_keyed (fun c hc => ?_) h l.fst 0
    obtain ⟨b, -, rfl⟩ := List.mem_map.1 hc
    rw [b.size, n.size_eq]
    rfl
  | cmp | calcNum | strCmp | strLike | concat =>
    rcases h with _ | ⟨hp, _ | ⟨hp', _ | _⟩⟩
    rw [← opened_keyed hp l.fst, ← opened_keyed hp' l.snd]
    rfl
  | extractYear =>
    rcases h with _ | ⟨hp, _ | _⟩
    rw [← opened_keyed hp l.fst]
    rfl
  | substring =>
    rcases h with _ | ⟨hp, _ | ⟨hp', _ | ⟨hp'', _ | _⟩⟩⟩
    rw [← opened_keyed hp l.fst, ← opened_keyed hp' l.snd, ← opened_keyed hp'' l.trd]
    rfl
  | enc | dec | strEnc | strDec | evalExpr => exact hq.elim

/-- A text operand with room for its zero has an object. -/
theorem genText_isSome {ctx : Context} {o : ℕ} {a : EncStr} {p : List UInt8} (h : q.In m)
    (ha : copyEnc o a ⊆ q.body) (hp : x.Authentic a.cstr p) (hfit : p.length < stringLength)
    (name : String) (data : Mem) : ∃ object, genText x ctx m name o data = some object := by
  have hlen : a.len = p.length + ivSize + tagSize := hp.2
  rw [genText_eq name data (h.encStr ha).1 (h.encStr ha).2, if_pos]
  · exact ⟨_, rfl⟩
  · rw [encStringLength]
    omega

/-- Two text operands with room for their zeros have objects. -/
theorem genText_pair_isSome {o o' : ℕ} {a b : EncStr} {p p' : List UInt8} (h : q.In m)
    (ha : copyEnc o a ⊆ q.body) (hb : copyEnc o' b ⊆ q.body) (hp : x.Authentic a.cstr p)
    (hp' : x.Authentic b.cstr p') (hfit : p.length < stringLength)
    (hfit' : p'.length < stringLength)
    (name name' : String) (data data' : Mem) :
    ∃ objects, (do
      let left ← genText x .keyed m name o data
      let right ← genText x .keyed m name' o' data'
      return [left, right]) = some objects := by
  obtain ⟨left, hleft⟩ := genText_isSome h ha hp hfit name data
  obtain ⟨right, hright⟩ := genText_isSome h hb hp' hfit' name' data'
  exact ⟨[left, right], by rw [hleft, hright]; rfl⟩

/-- A request that is served has objects. -/
theorem genOperands_isSome (h : q.In m) (hq : q.Seedable)
    (hps : List.Forall₂ x.Authentic q.ciphertexts ps) (hserved : Served q ps) :
    ∃ operands, genOperands x F .keyed m l (some q.cmd) = some operands := by
  cases q with
  | cmp f left right =>
    cases f with
    | int | timestamp => exact ⟨_, rfl⟩
    | float => exact hq.elim
  | calcNum n op left right =>
    cases n with
    | int =>
      rw [Request.cmd, genOperands_calcCmd]
      exact ⟨_, rfl⟩
    | float => exact hq.elim
  | bulk n items hn =>
    cases n with
    | int => exact ⟨_, genBulk_eq (F := F) h⟩
    | float => exact hq.elim
  | extractYear input => exact ⟨_, rfl⟩
  | strCmp left right | strLike left right =>
    rcases hps with _ | ⟨hp, _ | ⟨hp', _ | _⟩⟩
    exact genText_pair_isSome h (by simp [Request.body]) (by simp [Request.body]) hp hp' hserved.1
      hserved.2.2 ..
  | substring str start length =>
    rcases hps with _ | ⟨hp, _⟩
    obtain ⟨object, hobject⟩ : ∃ object, genText x .keyed m "text_substring_str" subStr l.fst =
        some object := genText_isSome h (by simp [Request.body]) hp hserved.2 ..
    show ∃ operands, genSubstring x .keyed m l = some operands
    rw [genSubstring, hobject]
    exact ⟨_, rfl⟩
  | concat left right =>
    rcases hps with _ | ⟨hp, _ | ⟨hp', _ | _⟩⟩
    exact genText_pair_isSome h (by simp [Request.body]) (by simp [Request.body]) hp hp' hserved.1.2
      hserved.2.2 ..
  | enc | dec | strEnc | strDec | evalExpr => exact hq.elim

/-- **With the key, the objects are the seed of the plaintexts.** -/
theorem genKtestFile_keyed (h : q.In m) (hq : q.Seedable)
    (hps : List.Forall₂ x.Authentic q.ciphertexts ps) (hserved : Served q ps) :
    genKtestFile x F .keyed m l = some (seed l q.cmd ps) := by
  obtain ⟨operands, hoperands⟩ := genOperands_isSome (F := F) (l := l) h hq hps hserved
  have hgen : genKtestFile x F .keyed m l =
      some (pushInt "model_version" 1 :: pushInt "op" q.cmd.code :: operands) := by
    rw [genKtestFile, h.reqType, Cmd.ofCode_code, hoperands]
    rfl
  rw [hgen, genKtestFile_eq h hq hgen, openedAll_keyed hq hps]

end Keyed

/-! ## The wrapper on seeds -/

section Seeds

variable {truncation : Bool} {e : ExpLabel} {l : Locals} {cmd : Cmd} {ps : List (List UInt8)}
  {p : List UInt8}

/-- An object of the size of the variable is its value. -/
theorem makeSymbolic_cons_self {name : String} {bs : List UInt8} {objects : List KTestObject}
    {size : ℕ} (h : bs.length = size) :
    makeSymbolic truncation (⟨name, bs⟩ :: objects) name size = some bs := by
  subst h
  simp [makeSymbolic]

theorem makeSymbolic_cons_of_ne {name name' : String} {bs : List UInt8} {objects : List KTestObject}
    {size : ℕ} (h : name ≠ name') :
    makeSymbolic truncation (⟨name, bs⟩ :: objects) name' size =
      makeSymbolic truncation objects name' size := by
  simp [makeSymbolic, h]

/-- The operands are read from behind the version and the opcode. -/
theorem makeSymbolic_seed {name : String} {size : ℕ} (hversion : "model_version" ≠ name)
    (hop : "op" ≠ name) : makeSymbolic truncation (seed l cmd ps) name size =
      makeSymbolic truncation (seedOperands l cmd ps) name size := by
  rw [seed, pushInt, pushInt, makeSymbolic_cons_of_ne hversion, makeSymbolic_cons_of_ne hop]

theorem makeSymbolic_op : makeSymbolic truncation (seed l cmd ps) "op" 4 = some
    (intBytes cmd.code) := by
  rw [seed, pushInt, pushInt, makeSymbolic_cons_of_ne (by decide)]
  exact makeSymbolic_cons_self (length_intBytes _)

/-- A text is cut to the size of the array, if KLEE allows it. -/
theorem makeSymbolic_seedText (name : String) (data : Mem) (objects : List KTestObject)
    (hp : p.length < stringLength) :
    makeSymbolic truncation (⟨name, seedText p data⟩ :: objects) name maxTextLength =
      if truncation = true then some ((seedText p data).take maxTextLength) else none := by
  have hlen : (seedText p data).length = 500 := by
    simp [seedText, strSymbolSize] at hp ⊢
    omega
  cases truncation <;> simp [makeSymbolic, hlen, maxTextLength]

/-- A text that fits is followed by its zero. -/
theorem take_seedText (data : Mem) (hp : p.length < maxTextLength) :
    ∃ tail, (seedText p data).take maxTextLength = p ++ 0 :: tail := by
  obtain ⟨n, hn⟩ := Nat.exists_eq_add_of_lt hp
  rw [seedText, hn, Nat.add_assoc, List.take_length_add_append, List.take_succ_cons]
  exact ⟨_, rfl⟩

/-- The wrapper finds the text exactly when it is short. -/
theorem textArg_seedText (data : Mem) :
    textArg ((seedText p data).take maxTextLength) = some p ↔ ShortText p := by
  constructor
  · intro h
    unfold textArg at h
    split_ifs at h with hzero
    have htext : cString ((seedText p data).take maxTextLength) = p := Option.some.inj h
    have hmem : 0 ∉ p := by
      rw [← htext, cString]
      intro h0
      simpa using List.all_eq_true.1 List.all_takeWhile 0 h0
    refine ⟨hmem, ?_⟩
    -- The text is a proper initial segment of the array, which holds a zero.
    have hinitial : p <+: (seedText p data).take maxTextLength := by
      nth_rewrite 1 [← htext]
      exact List.takeWhile_prefix _
    have hne : p ≠ (seedText p data).take maxTextLength := fun heq => hmem (heq ▸ hzero)
    have hlt := hinitial.length_le.lt_of_ne fun hlen => hne (hinitial.eq_of_length hlen)
    exact hlt.trans_le (List.length_take_le _ _)
  · rintro ⟨hmem, hlt⟩
    obtain ⟨tail, htail⟩ := take_seedText data hlt
    rw [htail, textArg, if_pos (by simp), cString, List.takeWhile_append_of_pos]
    · simp
    · intro b hb
      exact decide_eq_true fun hb0 => hmem (hb0 ▸ hb)

theorem isPrefix_seedText (data : Mem) :
    p ++ [0] <+: (seedText p data).take maxTextLength ↔ p.length < maxTextLength := by
  constructor
  · intro h
    have hle := h.length_le.trans (List.length_take_le _ _)
    rw [List.length_append, List.length_singleton] at hle
    exact hle
  · intro hlt
    obtain ⟨tail, htail⟩ := take_seedText data hlt
    rw [htail]
    exact ⟨tail, List.append_assoc ..⟩

/-- The wrappers for two texts pass both of them exactly when they are short. -/
theorem textWrapper_seedText {left right : String} {p' : List UInt8}
    {call : List UInt8 → List UInt8 → PlainCall} {data data' : Mem} {objects : List KTestObject}
    (hne : left ≠ right) (hcall : ∀ {a b a' b'}, call a b = call a' b' → a = a' ∧ b = b')
    (hp : p.length < stringLength) (hp' : p'.length < stringLength)
    (hleft : makeSymbolic truncation objects left maxTextLength =
      makeSymbolic truncation
        [⟨left, seedText p data⟩, ⟨right, seedText p' data'⟩] left maxTextLength)
    (hright : makeSymbolic truncation objects right maxTextLength =
      makeSymbolic truncation [⟨left, seedText p data⟩, ⟨right, seedText p' data'⟩] right
        maxTextLength) :
    textWrapper truncation objects left right call = some (call p p') ↔
      truncation = true ∧ ShortText p ∧ ShortText p' := by
  rw [textWrapper, hleft, hright, makeSymbolic_seedText _ _ _ hp, makeSymbolic_cons_of_ne hne,
    makeSymbolic_seedText _ _ _ hp']
  cases truncation with
  | false => simp
  | true =>
    rw [← textArg_seedText data, ← textArg_seedText data']
    simp only [if_true, Option.bind_eq_bind, Option.bind_some, Option.bind_eq_some_iff, true_and]
    constructor
    · rintro ⟨a, ha, b, hb, h⟩
      obtain ⟨rfl, rfl⟩ := hcall (Option.some.inj h)
      exact ⟨ha, hb⟩
    · rintro ⟨ha, hb⟩
      exact ⟨p, ha, p', hb, rfl⟩

end Seeds

/-! ## Agreement -/

section Agreement

variable {x : Mbedtls} {F : FloatOps} {truncation : Bool} {e : ExpLabel} {q : Request} {m m' : Mem}
  {l : Locals} {ps : List (List UInt8)}

/-- The wrapper on a seed. -/
theorem opsWrapper_seed (truncation : Bool) (e : ExpLabel) (l : Locals) (cmd : Cmd)
    (ps : List (List UInt8)) :
    opsWrapper truncation (seed l cmd ps) e =
      if cmd.code = e.value then intCalcWrapper truncation (seed l cmd ps)
      else opsSwitch truncation (seed l cmd ps) (some cmd) := by
  rw [opsWrapper, makeSymbolic_op, Option.bind_some, bytesInt_intBytes cmd.isInt_code,
    Cmd.ofCode_code]

theorem opsWrapper_of_mem (l : Locals) {cmd : Cmd} (ps : List (List UInt8))
    (h : cmd.code ∈ switchLabels) :
    opsWrapper truncation (seed l cmd ps) e = opsSwitch truncation (seed l cmd ps) (some cmd) := by
  rw [opsWrapper_seed, if_neg]
  intro heq
  exact e.fresh (heq ▸ h)

/-- The wrapper calls what the plaintexts determine. -/
def Recalls (truncation : Bool) (e : ExpLabel) (q : Request) (l : Locals) (ps : List (List UInt8)) :
    Prop :=
  ∃ call, plainCallOf q ps = some call ∧
    ∃ call', opsWrapper truncation (seed l q.cmd ps) e = some call' ∧ SameCall call call'

theorem plainCallOf_isSome (hq : q.Seedable) (hps : List.Forall₂ x.Authentic q.ciphertexts ps) :
    ∃ call, plainCallOf q ps = some call := by
  cases q with
  | cmp f left right =>
    rcases hps with _ | ⟨_, _ | ⟨_, _ | _⟩⟩
    cases f with
    | int | timestamp => exact ⟨_, rfl⟩
    | float => exact hq.elim
  | calcNum n op left right =>
    rcases hps with _ | ⟨_, _ | ⟨_, _ | _⟩⟩
    cases n with
    | int => exact ⟨_, rfl⟩
    | float => exact hq.elim
  | bulk n items hn =>
    cases n with
    | int => exact ⟨_, rfl⟩
    | float => exact hq.elim
  | extractYear =>
    rcases hps with _ | ⟨_, _ | _⟩
    exact ⟨_, rfl⟩
  | strCmp | strLike | concat =>
    rcases hps with _ | ⟨_, _ | ⟨_, _ | _⟩⟩
    exact ⟨_, rfl⟩
  | substring =>
    rcases hps with _ | ⟨_, _ | ⟨_, _ | ⟨_, _ | _⟩⟩⟩
    exact ⟨_, rfl⟩
  | enc | dec | strEnc | strDec | evalExpr => exact hq.elim

theorem reproduces_iff_recalls (h : q.In m) (h' : q.In m') (hq : q.Seedable)
    (hps : List.Forall₂ x.Authentic q.ciphertexts ps) :
    Reproduces x F truncation e q m m' l ↔ (Served q ps → Recalls truncation e q l ps) := by
  constructor
  · intro hrep hserved
    obtain ⟨call, hcall⟩ := plainCallOf_isSome hq hps
    obtain ⟨objects, hgen, hwrapper⟩ :=
      hrep call ((handlerCall_eq_some_iff h hps).2 ⟨hserved, hcall⟩)
    cases (genKtestFile_keyed h' hq hps hserved).symm.trans hgen
    exact ⟨call, hcall, hwrapper⟩
  · intro hrec call hcall
    obtain ⟨hserved, hplain⟩ := (handlerCall_eq_some_iff h hps).1 hcall
    obtain ⟨call', hcall', hwrapper⟩ := hrec hserved
    cases hplain.symm.trans hcall'
    exact ⟨_, genKtestFile_keyed h' hq hps hserved, hwrapper⟩

/-- Apart from substrings, the wrapper must make the very same call. -/
theorem recalls_iff {call : PlainCall} (hcall : plainCallOf q ps = some call)
    (hsub : ∀ str start length, call ≠ .textSubstring str start length) :
    Recalls truncation e q l ps ↔ opsWrapper truncation (seed l q.cmd ps) e = some call := by
  have hsame {call' : PlainCall} : SameCall call call' ↔ call = call' := by
    cases call with
    | textSubstring str start length => exact absurd rfl (hsub str start length)
    | _ => exact Iff.rfl
  simp [Recalls, hcall, hsame]

theorem recalls_calc {op : CalcOp} {left right : Bytes Num.int.size} {p p' : List UInt8}
    (hp : p.length = 4) (hp' : p'.length = 4) :
    Recalls truncation e (.calcNum .int op left right) l [p, p'] ↔
      (op = .pow → e.value = Cmd.intPow.code) := by
  have hcalc : intCalcWrapper truncation (seed l (Num.int.calcCmd op) [p, p']) =
      some (.int32Calc (Num.int.calcCmd op).code (bytesInt p) (bytesInt p')) := by
    simp [intCalcWrapper, makeSymbolic_seed, seedOperands_calcCmd, pushInt, makeSymbolic_cons_of_ne,
      makeSymbolic_cons_self, hp, hp', bytesInt_intBytes (Num.int.calcCmd op).isInt_code]
  rw [recalls_iff rfl (by simp), Request.cmd, opsWrapper_seed, hcalc]
  by_cases hop : op = .pow
  · subst hop
    simp [Num.calcCmd, opsSwitch, eq_comm]
  · have hswitch : opsSwitch truncation (seed l (Num.int.calcCmd op) [p, p'])
        (some (Num.int.calcCmd op)) =
          intCalcWrapper truncation (seed l (Num.int.calcCmd op) [p, p']) := by
      cases op with
      | pow => exact absurd rfl hop
      | plus | minus | mult | div | mod => rfl
    rw [hswitch, hcalc, ite_self]
    exact iff_of_true rfl fun h => absurd h hop

theorem not_recalls_bulk {items : List (Bytes Num.int.size)} {hn : items.length ≤ HEDB.bulkSize} :
    ¬ Recalls truncation e (.bulk .int items hn) l ps := by
  rw [recalls_iff rfl (by simp), Request.cmd, opsWrapper_of_mem _ _ (by decide)]
  show intBulkWrapper truncation _ ≠ _
  simp [intBulkWrapper, Option.bind_eq_some_iff]

theorem recalls_substring {str : EncStr} {start length : Bytes encInt32Length}
    {p i n : List UInt8} (hp : p.length < stringLength) (hi : i.length = 4) (hn : n.length = 4) :
    Recalls truncation e (.substring str start length) l [p, i, n] ↔
      truncation = true ∧ p.length < maxTextLength ∧ i = n := by
  have hwrapper : textSubstringWrapper truncation (seed l .stringSubstring [p, i, n]) =
      if truncation = true then
        some (.textSubstring ((seedText p l.fst).take maxTextLength) (bytesInt n) (bytesInt i))
      else none := by
    rw [textSubstringWrapper, makeSymbolic_seed (by decide) (by decide), seedOperands,
      makeSymbolic_seedText _ _ _ hp]
    cases truncation with
    | false => rfl
    | true =>
      simp [makeSymbolic_seed, seedOperands, makeSymbolic_cons_of_ne, makeSymbolic_cons_self, hi,
        hn]
  have hplain : plainCallOf (.substring str start length) [p, i, n] =
      some (.textSubstring p (bytesInt i) (bytesInt n)) := rfl
  simp only [Recalls, hplain, Option.some.injEq, exists_eq_left']
  rw [Request.cmd, opsWrapper_of_mem _ _ (by decide), opsSwitch, hwrapper]
  cases truncation with
  | false => simp
  | true =>
    simp only [if_true, Option.some.injEq, exists_eq_left', SameCall, isPrefix_seedText, true_and]
    constructor
    · rintro ⟨hlt, hin, -⟩
      exact ⟨hlt, bytesInt_injective hi hn hin⟩
    · rintro ⟨hlt, rfl⟩
      exact ⟨hlt, rfl, rfl⟩

/-- The operations on two texts. -/
theorem recalls_text {left right : String} {p p' : List UInt8}
    {call : List UInt8 → List UInt8 → PlainCall} (hplain : plainCallOf q ps = some (call p p'))
    (hmem : q.cmd.code ∈ switchLabels)
    (hswitch : opsSwitch truncation (seed l q.cmd ps) (some q.cmd) =
      textWrapper truncation (seed l q.cmd ps) left right call)
    (hseed : seedOperands l q.cmd ps =
      [⟨left, seedText p l.fst⟩, ⟨right, seedText p' l.snd⟩])
    (hnames : ["model_version", "op", left, right].Nodup)
    (hcall : ∀ {a b a' b'}, call a b = call a' b' → a = a' ∧ b = b')
    (hsub : ∀ a b str start length, call a b ≠ .textSubstring str start length)
    (hp : p.length < stringLength) (hp' : p'.length < stringLength) :
    Recalls truncation e q l ps ↔ truncation = true ∧ ShortText p ∧ ShortText p' := by
  simp only [List.nodup_cons, List.mem_cons, List.not_mem_nil, or_false, not_or] at hnames
  obtain ⟨⟨-, hversion, hversion'⟩, ⟨hop, hop'⟩, hne, -⟩ := hnames
  rw [recalls_iff hplain (hsub p p'), opsWrapper_of_mem _ _ hmem, hswitch]
  apply textWrapper_seedText hne hcall hp hp'
  · rw [makeSymbolic_seed hversion hop, hseed]
  · rw [makeSymbolic_seed hversion' hop', hseed]

/-- **When the replay wrapper makes the call of the handler.** -/
theorem reproduces_iff (truncation : Bool) (e : ExpLabel) (h : q.In m) (h' : q.In m')
    (hq : q.Seedable) (hps : List.Forall₂ x.Authentic q.ciphertexts ps) (l : Locals) :
    Reproduces x F truncation e q m m' l ↔ (Served q ps → Reproducible truncation e q ps) := by
  rw [reproduces_iff_recalls h h' hq hps]
  refine imp_congr_right fun hserved => ?_
  cases q with
  | cmp f left right =>
    rcases hps with _ | ⟨hp, _ | ⟨hp', _ | _⟩⟩
    have hlen := hp.length_eq
    have hlen' := hp'.length_eq
    refine iff_of_true ?_ trivial
    cases f with
    | int =>
      rw [recalls_iff rfl (by simp), Request.cmd, opsWrapper_of_mem _ _ (by decide)]
      show intCmpWrapper truncation (seed l .intCmp _) = _
      simp [intCmpWrapper, makeSymbolic_seed, seedOperands, makeSymbolic_cons_of_ne,
        makeSymbolic_cons_self, hlen, hlen']
    | float => exact hq.elim
    | timestamp =>
      rw [recalls_iff rfl (by simp), Request.cmd, opsWrapper_of_mem _ _ (by decide)]
      show timestampCmpWrapper truncation (seed l .timestampCmp _) = _
      simp [timestampCmpWrapper, makeSymbolic_seed, seedOperands, makeSymbolic_cons_of_ne,
        makeSymbolic_cons_self, hlen, hlen']
  | calcNum n op left right =>
    rcases hps with _ | ⟨hp, _ | ⟨hp', _ | _⟩⟩
    cases n with
    | int => exact recalls_calc hp.length_eq hp'.length_eq
    | float => exact hq.elim
  | bulk n items hn =>
    cases n with
    | int => exact iff_of_false not_recalls_bulk id
    | float => exact hq.elim
  | extractYear input =>
    rcases hps with _ | ⟨hp, _ | _⟩
    have hlen := hp.length_eq
    refine iff_of_true ?_ trivial
    rw [recalls_iff rfl (by simp), Request.cmd, opsWrapper_of_mem _ _ (by decide)]
    show timestampExtractYearWrapper truncation (seed l .timestampExtractYear _) = _
    simp [timestampExtractYearWrapper, makeSymbolic_seed, seedOperands, makeSymbolic_cons_self,
      hlen]
  | strCmp left right =>
    rcases hps with _ | ⟨hp, _ | ⟨hp', _ | _⟩⟩
    exact recalls_text rfl (show Cmd.stringCmp.code ∈ switchLabels by decide) rfl rfl (by decide)
      (by simp) (by simp) hserved.1 hserved.2.2
  | strLike left right =>
    rcases hps with _ | ⟨hp, _ | ⟨hp', _ | _⟩⟩
    exact recalls_text rfl (show Cmd.stringLike.code ∈ switchLabels by decide) rfl rfl (by decide)
      (by simp) (by simp) hserved.1 hserved.2.2
  | substring str start length =>
    rcases hps with _ | ⟨hp, _ | ⟨hp', _ | ⟨hp'', _ | _⟩⟩⟩
    exact recalls_substring hserved.2 hp'.length_eq hp''.length_eq
  | concat left right =>
    rcases hps with _ | ⟨hp, _ | ⟨hp', _ | _⟩⟩
    exact recalls_text rfl (show Cmd.stringConcat.code ∈ switchLabels by decide) rfl rfl (by decide)
      (by simp) (by simp) hserved.1.2 hserved.2.2
  | enc | dec | strEnc | strDec | evalExpr => exact hq.elim

/-- `CMD_INT_EXP` as the enumeration has it that is commented out in `defs.h`. -/
def oldLabel : ExpLabel := ⟨14, by decide⟩

theorem reproduces_seven :
    List.Forall₂ Mbedtls.untouched.Authentic
        (Request.cmp .int cipherSeven cipherSeven).ciphertexts [intBytes 7, intBytes 7] ∧
      Reproduces .untouched .null false oldLabel (.cmp .int cipherSeven cipherSeven)
        ((Request.cmp .int cipherSeven cipherSeven).serializeTo Mem.zero)
        ((Request.cmp .int cipherSeven cipherSeven).serializeTo Mem.zero) .zero := by
  have hps : List.Forall₂ Mbedtls.untouched.Authentic
      (Request.cmp .int cipherSeven cipherSeven).ciphertexts [intBytes 7, intBytes 7] :=
    .cons ⟨rfl, rfl⟩ (.cons ⟨rfl, rfl⟩ .nil)
  have hq : (Request.cmp .int cipherSeven cipherSeven).Seedable := trivial
  exact ⟨hps, (reproduces_iff false oldLabel (Request.in_serializeTo _ _)
    (Request.in_serializeTo _ _) hq hps .zero).2 fun _ => trivial⟩

/-- The substring of `ab` of length 2 that starts at position 1. -/
def abSubstring : Request :=
  .substring ⟨0, List.replicate 28 0 ++ [0x61, 0x62], by decide⟩
    ⟨List.replicate 28 0 ++ intBytes 1, rfl⟩ ⟨List.replicate 28 0 ++ intBytes 2, rfl⟩

/-- **The wrapper swaps the arguments of a substring**: even where KLEE cuts the text to the size of
the array, it does not make the call of the handler. -/
theorem substring_swaps : ¬ Reproduces .untouched .null true oldLabel abSubstring
    (abSubstring.serializeTo Mem.zero) (abSubstring.serializeTo Mem.zero) .zero := by
  have hps : List.Forall₂ Mbedtls.untouched.Authentic abSubstring.ciphertexts
      [[0x61, 0x62], intBytes 1, intBytes 2] :=
    .cons ⟨rfl, rfl⟩ (.cons ⟨rfl, rfl⟩ (.cons ⟨rfl, rfl⟩ .nil))
  have hserved : Served abSubstring [[0x61, 0x62], intBytes 1, intBytes 2] := by
    constructor <;> decide
  have hq : abSubstring.Seedable := trivial
  rw [reproduces_iff_recalls (Request.in_serializeTo _ _) (Request.in_serializeTo _ _) hq hps]
  intro h
  have hsame : intBytes 1 = intBytes 2 :=
    ((recalls_substring (by decide) rfl rfl).1 (h hserved)).2.2
  exact absurd hsame (by decide)

end Agreement

end Anonymizer

end HEDB
