import HEDB.Foundations.System
import HEDB.PrivacyZone.Handler

/-!
# Calls of the client library

A call serializes its request into the region, waits for the process behind it and copies the result
out (`sendRequest`). The same region is used for all calls and is never cleared.

The plaintext pipeline `plainCall` says what a call is for: the plain operation on the plaintexts of
the operands. It is defined when the operands decrypt and the plain operation is defined on them.
Then the call returns 0 and delivers the answer, from any contents of the region and any IV
(`sendRequest_simulates`), and so does every such call of a session, whatever the calls before it
were (`session_simulates`).
-/

namespace HEDB

open Layout

/-! ## The encrypted pipeline -/

def statusNone : ℤ := 0
def statusSent : ℤ := 1
def statusDone : ℤ := 2

/-- What a call leaves: the process, the value that it returns and the result that it delivers. -/
structure Reply where
  process : OpsProcess
  resp : ℤ
  result : List UInt8

section Pipelines

variable (g : Gcm) (F : FloatOps)

/-- The process when a request has been sent to it. -/
def sent (q : Request) (r : OpsProcess) : OpsProcess :=
  ⟨(q.serializeTo r.mem).setInt status statusSent, r.iv⟩

/-- `TEEInvoker::sendRequest`, with the process that serves it between `SENT` and `DONE`. -/
def sendRequest (q : Request) (r : OpsProcess) : Option Reply := do
  let served ← serve g F (sent q r)
  let m := served.mem.setInt status statusDone
  some ⟨⟨m.setInt status statusNone, served.iv⟩, m.int Layout.resp, q.copyResultFrom m⟩

/-! ## The plaintext pipeline -/

/-- The answer to a call: a plaintext that the result is a ciphertext of, or the result itself. -/
inductive Answer
  | cipher (plaintext : List UInt8)
  | value (bytes : List UInt8)

/-- The result is the answer. -/
def Answer.Delivered : Answer → List UInt8 → Prop
  | cipher plaintext, result => g.Decrypts result plaintext
  | value bytes, result => result = bytes

/-- The plain comparison of a type. -/
def plainCmp (f : Fam) (x y : List UInt8) : ℤ :=
  match f with
  | .int => plainInt32Cmp (bytesInt x) (bytesInt y)
  | .float => plainFloatCmp F (bytesFloat x) (bytesFloat y)
  | .timestamp => plainTimestampCmp (bytesInt64 x) (bytesInt64 y)

/-- The plain arithmetic of a type. -/
def plainCalc (n : Num) (op : CalcOp) (x y : List UInt8) : Option (List UInt8) :=
  match n with
  | .int => (plainInt32Calc F (Num.int.calcCmd op).code (bytesInt x) (bytesInt y)).map intBytes
  | .float =>
    (plainFloatCalc F (Num.float.calcCmd op).code (bytesFloat x) (bytesFloat y)).map floatBytes

/-- The plain sum of a type. -/
def plainSumBulk (n : Num) (xs : List (List UInt8)) : Option (List UInt8) :=
  match n with
  | .int => (plainInt32SumBulk (xs.map bytesInt)).map intBytes
  | .float => some (floatBytes (F.narrow (plainFloatSumBulk F (xs.map bytesFloat))))

/-- **The plaintext pipeline**, on numbers and timestamps. -/
def plainCall : Request → Option Answer
  | .cmp f left right => do
    let x ← g.plainOf left.bytes
    let y ← g.plainOf right.bytes
    some (.value (intBytes (plainCmp F f x y)))
  | .calcNum n op left right => do
    let x ← g.plainOf left.bytes
    let y ← g.plainOf right.bytes
    (plainCalc F n op x y).map .cipher
  | .bulk n items _ => do
    if items = [] then none
    let xs ← items.mapM fun item => g.plainOf item.bytes
    (plainSumBulk F n xs).map .cipher
  | .extractYear input => do
    let t ← g.plainOf input.bytes
    some (.cipher (intBytes (plainTimestampExtractYear (bytesInt64 t))))
  | .enc _ plaintext => some (.cipher plaintext.bytes)
  | .dec _ ciphertext => (g.plainOf ciphertext.bytes).map .value
  | _ => none

end Pipelines

/-! ## One call -/

section Frames

/-- The header of a region is not part of a result. -/
theorem copyResultFrom_setInt (q : Request) (m : Mem) {o : ℕ} (v : ℤ) (h : o + 4 ≤ 12) :
    q.copyResultFrom (m.setInt o v) = q.copyResultFrom m := by
  have hread : ∀ p n, 12 ≤ p → (m.setInt o v).read p n = m.read p n := fun p n hp =>
    m.read_write_of_disjoint (.inr (by rw [length_intBytes]; exact h.trans hp))
  have huint : ∀ p, 12 ≤ p → (m.setInt o v).uint p = m.uint p := fun p hp => by
    rw [Mem.uint, hread p 4 hp, Mem.uint]
  have hsize : ∀ f : Fam, 12 ≤ 12 + 2 * f.size ∧ 12 ≤ encPlain f + f.plainSize ∧
    12 ≤ 12 + f.size := by
    intro f
    cases f <;> decide
  cases q with
  | cmp f left right => exact hread _ _ (hsize f).1
  | enc f plaintext => exact hread _ _ (hsize f).2.1
  | dec f ciphertext => exact hread _ _ (hsize f).2.2
  | calcNum n op left right => exact hread _ _ (by simp)
  | bulk n items h => exact hread _ _ (by simp)
  | extractYear input => exact hread _ _ (by simp)
  | strCmp left right => exact hread _ _ (by simp)
  | strLike left right => exact hread _ _ (by simp)
  | evalExpr items expr h => exact hread _ _ (by simp)
  | _ =>
    simp only [Request.copyResultFrom]
    rw [huint _ (by simp), hread _ _ (by simp)]

/-- The operands come after the header. -/
theorem le_of_mem_body {q : Request} {w : ℕ × List UInt8} (hw : w ∈ q.body) : 12 ≤ w.1 := by
  obtain ⟨o, bs⟩ := w
  cases q with
  | cmp f left right =>
    simp only [Request.body, List.mem_cons, Prod.mk.injEq, List.not_mem_nil, or_false] at hw
    rcases hw with h | h <;> simp [h.1]
  | enc f plaintext =>
    cases f <;> simp_all [Request.body]
  | _ =>
    simp only [Request.body, copyEnc, copyPlain, List.mem_cons, List.mem_append, Prod.mk.injEq,
      List.not_mem_nil, or_false] at hw
    simp at hw
    omega

theorem in_sent (q : Request) (r : OpsProcess) : q.In (sent q r).mem := by
  refine (q.in_serializeTo r.mem).write fun w hw => .inr ?_
  rw [length_intBytes]
  rcases List.mem_cons.1 hw with rfl | hw
  · exact le_rfl
  · exact le_trans (by decide : status + 4 ≤ 12) (le_of_mem_body hw)

/-- The items of a bulk request, one by one. -/
theorem read_items {w : ℕ} {m : Mem} {o : ℕ} {items : List (Bytes w)}
    (h : m.read o (w * items.length) = items.flatMap Bytes.bytes) :
    (List.range items.length).map (fun i => m.read (o + w * i) w) = items.map Bytes.bytes := by
  induction items generalizing o with
  | nil => rfl
  | cons x items ih =>
    rw [List.length_cons, Nat.mul_succ, Nat.add_comm, Mem.read_add, List.flatMap_cons] at h
    obtain ⟨hx, hitems⟩ := List.append_inj h (by rw [Mem.length_read, x.size])
    rw [List.length_cons, List.range_succ_eq_map, List.map_cons, List.map_cons, List.map_map,
      ← ih hitems]
    refine congrArg₂ List.cons hx (List.map_congr_left fun i _ => ?_)
    simp only [Function.comp, Nat.mul_succ]
    congr 1
    omega

end Frames

section Simulation

variable {g : Gcm} {F : FloatOps}

theorem mapM_plainOf {w : ℕ} {items : List (Bytes w)} {xs : List (List UInt8)}
    (h : items.mapM (fun item => g.plainOf item.bytes) = some xs) :
    List.Forall₂ (fun item x => g.Decrypts item.bytes x) items xs := by
  induction items generalizing xs with
  | nil =>
    cases h
    exact .nil
  | cons item items ih =>
    simp only [List.mapM_cons, Option.bind_eq_bind, Option.bind_eq_some_iff] at h
    obtain ⟨x, hx, ys, hys, hxs⟩ := h
    cases hxs
    exact .cons (Gcm.plainOf_eq_some.1 hx) (ih hys)

/-- A ciphertext of a type decrypts without an error. -/
theorem decryptBytes_bytes {w : ℕ} {c : Bytes w} {p : List UInt8} (hp : g.Decrypts c.bytes p)
    (hw : ivSize + tagSize < w) : g.decryptBytes c.bytes = (0, some p) := by
  refine Gcm.decryptBytes_of_decrypts hp (List.ne_nil_of_length_pos ?_)
  rw [hp.length_eq, c.size]
  omega

theorem decryptBytes_field {m : Mem} {o w : ℕ} {c : Bytes w} {p : List UInt8}
    (hc : m.read o w = c.bytes) (hp : g.Decrypts c.bytes p) (hw : ivSize + tagSize < w) :
    g.decryptBytes (m.read o w) = (0, some p) := by
  rw [hc]
  exact decryptBytes_bytes hp hw

/-- The branch of the request answers it. -/
def Answers (g : Gcm) (F : FloatOps) (q : Request) (r : OpsProcess) (a : Answer) : Prop :=
  ∃ served, handleCmd g F q.cmd r = setResp (some (0, served)) ∧
    a.Delivered g (q.copyResultFrom served.mem)

/-- An operation that encrypts its result into the field that is copied out. -/
theorem answers_of_encryptInto {q : Request} {r : OpsProcess} {src : List UInt8} {o n : ℕ}
    (hcmd : handleCmd g F q.cmd r = setResp (encryptInto g r src o n))
    (hn : src.length + ivSize + tagSize = n) (hcopy : ∀ m, q.copyResultFrom m = m.read o n) :
    Answers g F q r (.cipher src) := by
  refine ⟨_, hcmd.trans (congrArg setResp (encryptInto_eq hn)), ?_⟩
  rw [hcopy, Mem.read_write_of_length _ _ _ _ ((Gcm.length_gcmEncrypt _ _).trans hn)]
  exact Gcm.decrypts_gcmEncrypt _ _

theorem answers_cmp {f : Fam} {left right : Bytes f.size} {r : OpsProcess} {x y : List UInt8}
    (h : (Request.cmp f left right).In r.mem) (hx : g.Decrypts left.bytes x)
    (hy : g.Decrypts right.bytes y) :
    Answers g F (.cmp f left right) r (.value (intBytes (plainCmp F f x y))) := by
  have hf : ivSize + tagSize < f.size := by cases f <;> decide
  have hl := decryptBytes_field h.cmp.1 hx hf
  have hr := decryptBytes_field h.cmp.2 hy hf
  refine ⟨r.write (cmpCmp f.size) (intBytes (plainCmp F f x y)), ?_,
    Mem.read_write_of_length _ _ _ _ (length_intBytes _)⟩
  cases f with
  | int => exact congrArg setResp (encCmp_eq hl hr)
  | float => exact congrArg setResp (encCmp_eq hl hr)
  | timestamp => exact congrArg setResp (encTimestampCmp_eq hl hr)

/-- What the branch of an arithmetic request does with two ciphertexts. -/
theorem handleCmd_calc {n : Num} {op : CalcOp} {left right : Bytes n.size} {r : OpsProcess}
    {x y : List UInt8} (h : (Request.calcNum n op left right).In r.mem)
    (hx : g.Decrypts left.bytes x) (hy : g.Decrypts right.bytes y) :
    handleCmd g F (Request.calcNum n op left right).cmd r =
      setResp ((plainCalc F n op x y).bind fun res =>
        encryptInto g r res (calcRes n.size) n.size) := by
  have hn : ivSize + tagSize < n.size := by cases n <;> decide
  have hl := decryptBytes_field h.calcNum.1 hx hn
  have hr := decryptBytes_field h.calcNum.2 hy hn
  cases n with
  | int =>
    have hcalc : encInt32Calc g F r = _ := encCalc_eq hl hr
    rw [h.reqType] at hcalc
    cases op <;> exact congrArg setResp hcalc
  | float =>
    have hcalc : encFloat32Calc g F r = _ := encCalc_eq hl hr
    rw [h.reqType] at hcalc
    cases op <;> exact congrArg setResp hcalc

theorem length_plainCalc {n : Num} {op : CalcOp} {x y res : List UInt8}
    (h : plainCalc F n op x y = some res) : res.length + ivSize + tagSize = n.size := by
  cases n with
  | int =>
    obtain ⟨v, -, rfl⟩ := Option.map_eq_some_iff.1 h
    rw [length_intBytes]
    rfl
  | float =>
    obtain ⟨v, -, rfl⟩ := Option.map_eq_some_iff.1 h
    rw [length_floatBytes]
    rfl

theorem answers_calc {n : Num} {op : CalcOp} {left right : Bytes n.size} {r : OpsProcess}
    {x y res : List UInt8} (h : (Request.calcNum n op left right).In r.mem)
    (hx : g.Decrypts left.bytes x) (hy : g.Decrypts right.bytes y)
    (hres : plainCalc F n op x y = some res) :
    Answers g F (.calcNum n op left right) r (.cipher res) := by
  have hcmd := handleCmd_calc (F := F) h hx hy
  rw [hres, Option.bind_some] at hcmd
  exact answers_of_encryptInto hcmd (length_plainCalc hres) fun m => rfl

theorem int_bulkSize {n : Num} {items : List (Bytes n.size)} {hle : items.length ≤ HEDB.bulkSize}
    {m : Mem} (h : (Request.bulk n items hle).In m) : m.int Layout.bulkSize = items.length := by
  have hle' : items.length ≤ 256 := hle
  rw [Mem.int, h.field List.mem_cons_self (length_intBytes _), bytesInt_intBytes]
  constructor <;> omega

theorem bulkArray_eq {n : Num} {items : List (Bytes n.size)} {hle : items.length ≤ HEDB.bulkSize}
    {m : Mem} (h : (Request.bulk n items hle).In m) :
    bulkArray m n.size items.length = items.map Bytes.bytes :=
  read_items (h.field (List.mem_cons_of_mem _ List.mem_cons_self)
    (Request.length_flatMap_bytes items))

/-- What the branch of a bulk request does with ciphertexts. -/
theorem handleCmd_bulk {n : Num} {items : List (Bytes n.size)} (hle : items.length ≤ HEDB.bulkSize)
    {r : OpsProcess} {xs : List (List UInt8)} (h : (Request.bulk n items hle).In r.mem)
    (hne : items ≠ []) (hxs : List.Forall₂ (fun item x => g.Decrypts item.bytes x) items xs) :
    handleCmd g F (Request.bulk n items hle).cmd r =
      setResp ((plainSumBulk F n xs).bind fun res =>
        encryptInto g r res (bulkRes n.size) n.size) := by
  have hn : ivSize + tagSize < n.size := by cases n <;> decide
  have hsize := int_bulkSize h
  have harray : List.Forall₂ (fun item x => g.decryptBytes item = (0, some x))
      (bulkArray r.mem n.size items.length) xs := by
    rw [bulkArray_eq h, List.forall₂_map_left_iff]
    exact hxs.imp fun _ _ hx => decryptBytes_bytes hx hn
  cases n with
  | int =>
    have hsum : encInt32SumBulk g r = _ := encSumBulk_eq hsize hle harray
    exact congrArg setResp hsum
  | float =>
    have hpos : ¬ r.mem.int Layout.bulkSize ≤ 0 := by
      rw [hsize]
      have := List.length_pos_of_ne_nil hne
      omega
    change setResp (encFloat32SumBulk g F r) = _
    unfold encFloat32SumBulk
    rw [if_neg hpos]
    exact congrArg setResp (encSumBulk_eq hsize hle harray)

theorem length_plainSumBulk {n : Num} {xs : List (List UInt8)} {res : List UInt8}
    (h : plainSumBulk F n xs = some res) : res.length + ivSize + tagSize = n.size := by
  cases n with
  | int =>
    obtain ⟨v, -, rfl⟩ := Option.map_eq_some_iff.1 h
    rw [length_intBytes]
    rfl
  | float =>
    cases h
    rw [length_floatBytes]
    rfl

theorem answers_bulk {n : Num} {items : List (Bytes n.size)} (hle : items.length ≤ HEDB.bulkSize)
    {r : OpsProcess} {xs : List (List UInt8)} {res : List UInt8}
    (h : (Request.bulk n items hle).In r.mem) (hne : items ≠ [])
    (hxs : List.Forall₂ (fun item x => g.Decrypts item.bytes x) items xs)
    (hres : plainSumBulk F n xs = some res) : Answers g F (.bulk n items hle) r (.cipher res) := by
  have hcmd := handleCmd_bulk (F := F) hle h hne hxs
  rw [hres, Option.bind_some] at hcmd
  exact answers_of_encryptInto hcmd (length_plainSumBulk hres) fun m => rfl

theorem answers_extractYear {input : Bytes encTimestampLength} {r : OpsProcess} {t : List UInt8}
    (h : (Request.extractYear input).In r.mem) (ht : g.Decrypts input.bytes t) :
    Answers g F (.extractYear input) r
      (.cipher (intBytes (plainTimestampExtractYear (bytesInt64 t)))) := by
  have hyear := encTimestampExtractYear_eq (decryptBytes_field h.extractYear ht (by decide))
  refine answers_of_encryptInto (congrArg setResp hyear) ?_ fun m => rfl
  rw [length_intBytes]
  rfl

theorem answers_enc {f : Fam} {plaintext : Bytes f.plainSize} {r : OpsProcess}
    (h : (Request.enc f plaintext).In r.mem) :
    Answers g F (.enc f plaintext) r (.cipher plaintext.bytes) := by
  have hplain := h.field List.mem_cons_self plaintext.size
  have hcmd : handleCmd g F f.encCmd r = setResp (encEncrypt g f r) := by cases f <;> rfl
  rw [encEncrypt, hplain] at hcmd
  refine answers_of_encryptInto hcmd ?_ fun m => rfl
  rw [plaintext.size]
  cases f <;> rfl

theorem answers_dec {f : Fam} {ciphertext : Bytes f.size} {r : OpsProcess} {p : List UInt8}
    (h : (Request.dec f ciphertext).In r.mem) (hp : g.Decrypts ciphertext.bytes p) :
    Answers g F (.dec f ciphertext) r (.value p) := by
  have hf : ivSize + tagSize < f.size := by cases f <;> decide
  have hdec := encDecrypt_eq
    (decryptBytes_field (h.field List.mem_cons_self ciphertext.size) hp hf)
  have hcmd : handleCmd g F f.decCmd r = setResp (encDecrypt g f r) := by cases f <;> rfl
  refine ⟨r.write (decPlain f) p, hcmd.trans (congrArg setResp hdec), ?_⟩
  refine Mem.read_write_of_length _ _ _ _ ?_
  rw [hp.length_eq, ciphertext.size]
  cases f <;> rfl

/-- The branch of a request answers it whenever the plaintext pipeline does. -/
theorem answers_of_plainCall {q : Request} {r : OpsProcess} {a : Answer} (h : q.In r.mem)
    (ha : plainCall g F q = some a) : Answers g F q r a := by
  cases q with
  | cmp f left right =>
    simp only [plainCall, Option.bind_eq_bind, Option.bind_eq_some_iff, Gcm.plainOf_eq_some] at ha
    obtain ⟨x, hx, y, hy, ha⟩ := ha
    cases ha
    exact answers_cmp h hx hy
  | calcNum n op left right =>
    simp only [plainCall, Option.bind_eq_bind, Option.bind_eq_some_iff, Gcm.plainOf_eq_some,
      Option.map_eq_some_iff] at ha
    obtain ⟨x, hx, y, hy, res, hres, rfl⟩ := ha
    exact answers_calc h hx hy hres
  | bulk n items hle =>
    have hne : items ≠ [] := by
      intro hnil
      simp [plainCall, hnil] at ha
    simp only [plainCall, if_neg hne, Option.bind_eq_bind, Option.bind_eq_some_iff,
      Option.map_eq_some_iff] at ha
    obtain ⟨xs, hxs, res, hres, rfl⟩ := ha
    exact answers_bulk hle h hne (mapM_plainOf hxs) hres
  | extractYear input =>
    simp only [plainCall, Option.bind_eq_bind, Option.bind_eq_some_iff, Gcm.plainOf_eq_some] at ha
    obtain ⟨t, ht, ha⟩ := ha
    cases ha
    exact answers_extractYear h ht
  | enc f plaintext =>
    cases ha
    exact answers_enc h
  | dec f ciphertext =>
    simp only [plainCall, Option.map_eq_some_iff, Gcm.plainOf_eq_some] at ha
    obtain ⟨p, hp, rfl⟩ := ha
    exact answers_dec h hp
  | _ => cases ha

/-- What a call returns and delivers, from what its branch leaves. -/
theorem sendRequest_eq {q : Request} {r served : OpsProcess} {resp : ℤ} (hint : IsInt resp)
    (h : handleCmd g F q.cmd (sent q r) = setResp (some (resp, served))) :
    ∃ reply, sendRequest g F q r = some reply ∧ reply.resp = resp ∧
      reply.result = q.copyResultFrom served.mem := by
  have hserve : serve g F (sent q r) =
      some ⟨served.mem.setInt Layout.resp resp, served.iv⟩ := by
    rw [serve_of_in (in_sent q r), h, setResp_some]
  set m := (served.mem.setInt Layout.resp resp).setInt status statusDone with hm
  have hsend : sendRequest g F q r =
      some ⟨⟨m.setInt status statusNone, served.iv⟩, m.int Layout.resp, q.copyResultFrom m⟩ := by
    rw [sendRequest, hserve]
    rfl
  refine ⟨_, hsend, ?_, ?_⟩
  · show m.int Layout.resp = resp
    rw [hm, Mem.int_setInt_of_disjoint _ _ (by decide), Mem.int_setInt _ _ hint]
  · show q.copyResultFrom m = q.copyResultFrom served.mem
    rw [hm, copyResultFrom_setInt q _ _ (by decide), copyResultFrom_setInt q _ _ (by decide)]

theorem sendRequest_eq_none {q : Request} {r : OpsProcess}
    (h : handleCmd g F q.cmd (sent q r) = none) : sendRequest g F q r = none := by
  rw [sendRequest, serve_of_in (in_sent q r), h]
  rfl

/-- **A call delivers the answer of the plaintext pipeline**, from any region and any IV. -/
theorem sendRequest_simulates {q : Request} {a : Answer} (ha : plainCall g F q = some a)
    (r : OpsProcess) :
    ∃ reply, sendRequest g F q r = some reply ∧ reply.resp = 0 ∧ a.Delivered g reply.result := by
  obtain ⟨served, hcmd, hdel⟩ := answers_of_plainCall (in_sent q r) ha
  obtain ⟨reply, hsend, hresp, hresult⟩ := sendRequest_eq (by decide) hcmd
  exact ⟨reply, hsend, hresp, hresult ▸ hdel⟩

end Simulation

/-! ## Sessions -/

section Sessions

variable (g : Gcm) (F : FloatOps)

/-- A call of a session: the request, what it returned and what it delivered. -/
structure Call where
  request : Request
  resp : ℤ
  result : List UInt8

/-- A call takes the process from one state to another. When its behaviour is undefined, nothing is
known of what it leaves. -/
def CallStep (r : OpsProcess) (c : Call) (r' : OpsProcess) : Prop :=
  ∀ reply, sendRequest g F c.request r = some reply →
    r' = reply.process ∧ c.resp = reply.resp ∧ c.result = reply.result

variable {g F}

/-- Every sequence of requests has a session. -/
theorem exists_session (qs : List Request) (r : OpsProcess) :
    ∃ calls r', Follows (CallStep g F) r calls r' ∧ calls.map Call.request = qs := by
  induction qs generalizing r with
  | nil => exact ⟨[], r, .nil r, rfl⟩
  | cons q qs ih =>
    obtain ⟨c, r₁, hc, hq⟩ : ∃ c r₁, CallStep g F r c r₁ ∧ c.request = q := by
      cases hsend : sendRequest g F q r with
      | none => exact ⟨⟨q, 0, []⟩, r, fun reply h => by simp [hsend] at h, rfl⟩
      | some reply =>
        refine ⟨⟨q, reply.resp, reply.result⟩, reply.process, fun reply' h => ?_, rfl⟩
        cases hsend.symm.trans h
        exact ⟨rfl, rfl, rfl⟩
    obtain ⟨calls, r', hcalls, hqs⟩ := ih r₁
    exact ⟨c :: calls, r', .cons hc hcalls, by rw [List.map_cons, hq, hqs]⟩

/-- **The encrypted pipeline simulates the plaintext one.** In every session, each call that the
plaintext pipeline answers returns 0 and delivers this answer, whatever calls came before it. -/
theorem session_simulates {r r' : OpsProcess} {calls : List Call}
    (h : Follows (CallStep g F) r calls r') {c : Call} (hc : c ∈ calls) {a : Answer}
    (ha : plainCall g F c.request = some a) : c.resp = 0 ∧ a.Delivered g c.result := by
  induction h with
  | nil r => cases hc
  | @cons r _ _ c₁ calls hstep _ ih =>
    rcases List.mem_cons.1 hc with rfl | hc
    · obtain ⟨reply, hsend, hresp, hdel⟩ := sendRequest_simulates ha r
      obtain ⟨-, h₁, h₂⟩ := hstep reply hsend
      exact ⟨h₁.trans hresp, h₂ ▸ hdel⟩
    · exact ih hc

/-- A region of zeros and an IV of zeros. -/
def OpsProcess.zero : OpsProcess := ⟨Mem.zero, ⟨List.replicate ivSize 0, rfl⟩⟩

/-- A ciphertext of 7 under `Gcm.identity`. -/
def cipherSeven : Bytes encInt32Length := ⟨List.replicate 28 0 ++ intBytes 7, rfl⟩

/-- The number 7 is encrypted, decrypted and added to itself. -/
theorem session_simulates_seven :
    ∃ calls r', Follows (CallStep Gcm.identity FloatOps.null) OpsProcess.zero calls r' ∧
      calls.map Call.request = [.enc .int ⟨intBytes 7, rfl⟩, .dec .int cipherSeven,
        .calcNum .int .plus cipherSeven cipherSeven] ∧ ∀ c ∈ calls, c.resp = 0 := by
  obtain ⟨calls, r', hcalls, hqs⟩ := exists_session (g := Gcm.identity) (F := FloatOps.null)
    [.enc .int ⟨intBytes 7, rfl⟩, .dec .int cipherSeven,
      .calcNum .int .plus cipherSeven cipherSeven]
    OpsProcess.zero
  refine ⟨calls, r', hcalls, hqs, fun c hc => ?_⟩
  have hanswer : (plainCall Gcm.identity FloatOps.null c.request).isSome = true := by
    have hq := List.mem_map_of_mem (f := Call.request) hc
    rw [hqs] at hq
    simp only [List.mem_cons, List.not_mem_nil, or_false] at hq
    rcases hq with h | h | h <;> rw [h] <;> decide
  obtain ⟨a, ha⟩ := Option.isSome_iff_exists.1 hanswer
  exact (session_simulates hcalls hc ha).1

end Sessions

end HEDB
