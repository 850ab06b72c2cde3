import HEDB.Udf.TextForm
import HEDB.Udf.TextResults

/-!
# How texts are stored

A stored text is a `varlena` whose bytes are an `EncStr`. Its size should be the one that the `len`
field asks for, and `len` the length of the ciphertext of its plaintext (`WellFormed`): the
functions on `enc_text` take the sizes of what they read and write from `len` and from `VARSIZE`.

The functions compute these sizes in different ways. `enc_text_set_order` adds the room for IV and
tag a second time, so it reads past the end of every text that is well formed
(`encTextSetOrder_overreads`); `enc_text_out` in server mode adds that for the header. `substring`
takes the size of its result from the source. What is left are the sessions of `Admissible` steps:
in these all texts are well formed, and no function reads or writes past the end of one
(`stored_wellFormed`).

Here a value stands at the end of the memory that can be read, so that a function that reads past it
is undefined.
-/

namespace HEDB

namespace Udf

/-- `ENCSTRLEN`. -/
def encstrlen (len : ℕ) : ℕ := 4 + 4 + ivSize + tagSize + len

namespace EncText

/-- The `len` bytes of ciphertext. -/
def cstr (v : EncText) : List UInt8 := (v.data.drop 8).take v.len

/-- The operand that a function puts into a request: `COPY_ENC` copies `len` bytes of ciphertext. -/
def encStr (v : EncText) : Option EncStr := do
  let bs ← v.read [] (4 + 4 + v.len)
  if h : (bs.drop 8).length ≤ encStringLength then
    some ⟨UInt32.ofNat (leNat (bs.take 4)), bs.drop 8, h⟩
  else none

/-- A new value with `n` zero bytes behind the header, into which an `EncStr` is copied. -/
def ofEncStr (n : ℕ) (c : EncStr) : EncText :=
  ⟨leBytes 4 c.order.toNat ++ leBytes 4 c.len ++ c.cstr ++ List.replicate (n - (4 + 4 + c.len)) 0⟩

/-- The string that is stored. -/
def plain (g : Gcm) (v : EncText) : List UInt8 := (g.gcmDecrypt v.cstr).2

end EncText

/-! ## The functions on stored values -/

namespace Datum

/-- A call whose result goes into a new value of `n` bytes. -/
def result (n : ℕ) (o : Outcome EncStr) : Outcome EncText := (o.1.map (EncText.ofEncStr n), o.2)

section Functions

variable (g : Gcm) (F : FloatOps)

/-- `enc_text_encrypt` and `varchar_to_enc_text`. -/
def encTextEncrypt (s : List UInt8) (r : OpsProcess) : Option (Outcome EncText) := do
  result (encstrlen s.length) (← cstringToEnctextWithLen g F s r)

/-- `enc_text_in`. -/
def encTextIn (clientMode : Bool) (pIn : List UInt8) (r : OpsProcess) : Option (Outcome EncText) :=
  if clientMode then encTextEncrypt g F pIn r
  else do some (.ok (← Udf.encTextIn pIn), r)

/-- `enc_text_out`. -/
def encTextOut (clientMode : Bool) (v : EncText) (r : OpsProcess) : Option (Outcome (List UInt8)) :=
  if clientMode then do encTextDecrypt g F (← v.encStr) r
  else do some (.ok (← Udf.encTextOut v []), r)

/-- `enc_text_cmp`, and in the same way the other comparisons. -/
def encTextCmp (v w : EncText) (r : OpsProcess) : Option (Outcome ℤ) := do
  Udf.encTextCmp g F (← v.encStr) (← w.encStr) r

/-- `enc_text_concatenate`. -/
def encTextConcatenate (v w : EncText) (r : OpsProcess) : Option (Outcome EncText) := do
  let len := v.len + w.len - 2 * (ivSize + tagSize)
  result (encstrlen len) (← Udf.encTextConcatenate g F (← v.encStr) (← w.encStr) r)

/-- `substring`. -/
def substring (v : EncText) (start length : Bytes encInt32Length) (r : OpsProcess) :
    Option (Outcome EncText) := do
  let len := v.len - (ivSize + tagSize)
  result (encstrlen len) (← Udf.substring g F (← v.encStr) start length r)

end Functions

/-- `enc_text_set_order`. -/
def encTextSetOrder (v : EncText) (order : ℤ) : Option EncText := do
  let bs ← v.read [] (encstrlen v.len)
  some ⟨intBytes order ++ bs.drop 4⟩

end Datum

/-! ## Sessions -/

/-- A session: the texts it has stored, the strings it has been shown, and the process behind the
region. -/
structure Session where
  values : List EncText
  texts : List (List UInt8)
  process : OpsProcess

/-- A session that has done nothing. -/
def Session.start (r : OpsProcess) : Session := ⟨[], [], r⟩

/-- What a session can do with the texts it has stored and the strings it has been shown. -/
inductive Op
  | encrypt (s : List UInt8)
  | textIn (clientMode : Bool) (k : ℕ)
  | textOut (clientMode : Bool) (i : ℕ)
  | compare (i j : ℕ)
  | concatenate (i j : ℕ)
  | substring (i : ℕ) (start length : Bytes encInt32Length)
  | setOrder (i : ℕ) (order : ℤ)

namespace Session

/-- A function has returned a value or raised an error. -/
def store (st : Session) : Outcome EncText → Session
  | (.ok v, r) => { st with values := st.values ++ [v], process := r }
  | (.error _, r) => { st with process := r }

/-- A function has returned a string or raised an error. -/
def print (st : Session) : Outcome (List UInt8) → Session
  | (.ok text, r) => { st with texts := st.texts ++ [text], process := r }
  | (.error _, r) => { st with process := r }

/-- A step of a session. It is undefined when a function reads or writes past the end of a value. -/
def step (g : Gcm) (F : FloatOps) (st : Session) : Op → Option Session
  | .encrypt s => (Datum.encTextEncrypt g F s st.process).map st.store
  | .textIn clientMode k =>
    match st.texts[k]? with
    | some pIn => (Datum.encTextIn g F clientMode pIn st.process).map st.store
    | none => some st
  | .textOut clientMode i =>
    match st.values[i]? with
    | some v => (Datum.encTextOut g F clientMode v st.process).map st.print
    | none => some st
  | .compare i j =>
    match st.values[i]?, st.values[j]? with
    | some v, some w => (Datum.encTextCmp g F v w st.process).map fun o =>
      { st with process := o.2 }
    | _, _ => some st
  | .concatenate i j =>
    match st.values[i]?, st.values[j]? with
    | some v, some w => (Datum.encTextConcatenate g F v w st.process).map st.store
    | _, _ => some st
  | .substring i start length =>
    match st.values[i]? with
    | some v => (Datum.substring g F v start length st.process).map st.store
    | none => some st
  | .setOrder i order =>
    match st.values[i]? with
    | some v => (Datum.encTextSetOrder v order).map fun v' => st.store (.ok v', st.process)
    | none => some st

end Session

/-- The value has the size that its `len` field asks for, and `len` is the length of a ciphertext of
its plaintext. -/
structure WellFormed (g : Gcm) (v : EncText) : Prop where
  size_eq : v.varsize = varhdrsz + 4 + 4 + v.len
  len_eq : v.len = ivSize + tagSize + (v.plain g).length
  decrypts : g.Decrypts v.cstr (v.plain g)
  len_le : v.len ≤ encStringLength

/-- The steps that the sizes are right for. -/
def Admissible (g : Gcm) (st : Session) : Op → Prop
  | .encrypt s => s.length ≤ stringLength
  | .textIn clientMode _ => clientMode
  | .textOut clientMode _ => clientMode
  | .compare i j => ∀ v ∈ st.values[i]?, ∀ w ∈ st.values[j]?,
      w.plain g = [] ∨ (v.plain g).length < stringLength ∧ (w.plain g).length < stringLength
  | .concatenate i j => ∀ v ∈ st.values[i]?, ∀ w ∈ st.values[j]?, v.plain g ≠ [] ∧ w.plain g ≠ [] ∧
      (v.plain g).length + (w.plain g).length < stringLength
  | .substring i start length => ∀ v ∈ st.values[i]?, v.plain g ≠ [] ∧
      (v.plain g).length < stringLength ∧ ∃ k : ℤ, (k = 1 ∨ k = 2) ∧
        g.Decrypts start.bytes (intBytes k) ∧ g.Decrypts length.bytes (intBytes (v.plain g).length)
  | .setOrder i _ => st.values[i]? = none

variable {g : Gcm} {F : FloatOps} {v w : EncText} {c : EncStr} {s : List UInt8}

/-! ## Values that are well formed -/

/-- A value of the right size for a ciphertext is well formed. -/
theorem wellFormed_ofEncStr (hc : g.IsCipher c s) :
    WellFormed g (.ofEncStr (encstrlen s.length) c) ∧
      (EncText.ofEncStr (encstrlen s.length) c).plain g = s := by
  set v := EncText.ofEncStr (encstrlen s.length) c with hv
  have hlen : c.len = s.length + ivSize + tagSize := hc.length_eq
  have hle : c.len ≤ encStringLength := c.len_le
  have hdata : v.data = leBytes 4 c.order.toNat ++ (leBytes 4 c.len ++ c.cstr) := by
    have hpad : encstrlen s.length - (4 + 4 + c.len) = 0 := by
      rw [hlen, encstrlen]
      omega
    rw [hv, EncText.ofEncStr, hpad, List.replicate_zero, List.append_nil, List.append_assoc]
  have hvlen : v.len = c.len := by
    rw [EncText.len, hdata, List.drop_left' (length_leBytes 4 _),
      List.take_left' (length_leBytes 4 _),
      leNat_leBytes]
    exact Nat.mod_eq_of_lt (lt_of_le_of_lt hle (by decide))
  have hcstr : v.cstr = c.cstr := by
    rw [EncText.cstr, hvlen, hdata, ← List.append_assoc,
      List.drop_left' (by rw [List.length_append, length_leBytes, length_leBytes])]
    exact List.take_length
  have hplain : v.plain g = s := by
    rw [EncText.plain, hcstr]
    exact congrArg Prod.snd hc.decrypts
  refine ⟨⟨?_, ?_, ?_, hvlen ▸ hle⟩, hplain⟩
  · rw [EncText.varsize, hvlen, hdata]
    simp only [List.length_append, length_leBytes, EncStr.len]
    omega
  · rw [hvlen, hplain, hlen]
    omega
  · rw [hcstr, hplain]
    exact hc.decrypts

/-- The operand that a well-formed value gives. -/
theorem WellFormed.encStr (h : WellFormed g v) :
    ∃ c, v.encStr = some c ∧ g.IsCipher c (v.plain g) ∧ c.len = v.len := by
  have hsize : v.data.length = 4 + 4 + v.len := by
    have := h.size_eq
    rw [EncText.varsize] at this
    omega
  have hread : v.read [] (4 + 4 + v.len) = some v.data := by
    rw [EncText.read, if_pos (by rw [hsize]; exact Nat.le_add_right ..), List.append_nil, ← hsize,
      List.take_length]
  have hcstr : v.data.drop 8 = v.cstr := by
    rw [EncText.cstr, List.take_of_length_le]
    rw [List.length_drop, hsize]
    omega
  have hlen : (v.data.drop 8).length = v.len := by
    rw [List.length_drop, hsize]
    omega
  have hle : (v.data.drop 8).length ≤ encStringLength := hlen ▸ h.len_le
  refine ⟨⟨UInt32.ofNat (leNat (v.data.take 4)), v.data.drop 8, hle⟩, ?_, ⟨?_, ?_⟩, hlen⟩
  · rw [EncText.encStr, hread]
    exact dif_pos hle
  · show g.Decrypts (v.data.drop 8) _
    rw [hcstr]
    exact h.decrypts
  · show (v.data.drop 8).length = _
    rw [hlen, h.len_eq]
    omega

theorem ofNat_leNat_intBytes (order : ℤ) :
    UInt32.ofNat (leNat (intBytes order)) = UInt32.ofBitVec (BitVec.ofInt 32 order) := by
  have hlt : (BitVec.ofInt 32 order).toNat < 256 ^ 4 := (BitVec.ofInt 32 order).isLt
  rw [intBytes, leNat_leBytes, Nat.mod_eq_of_lt hlt]
  exact UInt32.toNat_inj.1 (UInt32.toNat_ofNat_of_lt' hlt)

/-- Where `enc_text_set_order` is defined, the operand changes as an `EncStr` does. -/
theorem encStr_encTextSetOrder {v' : EncText} {order : ℤ}
    (h : Datum.encTextSetOrder v order = some v') :
    v'.encStr = v.encStr.map fun c => Udf.encTextSetOrder c order := by
  obtain ⟨bs, hread, hv'⟩ := Option.bind_eq_some_iff.1 h
  rw [EncText.read, List.append_nil, List.length_nil, Nat.add_zero, encstrlen, ivSize,
    tagSize] at hread
  split_ifs at hread with hsize
  cases hread
  have hdata : v'.data = intBytes order ++ (v.data.drop 4).take (4 + 4 + 12 + 16 + v.len - 4) := by
    rw [← Option.some.inj hv', List.drop_take]
  have hbehind : ∀ k ≤ v.len + 4, (v'.data.drop 4).take k = (v.data.drop 4).take k := by
    intro k hk
    rw [hdata, List.drop_left' (length_intBytes order), List.take_take, Nat.min_eq_left (by omega)]
  have hlen : v'.len = v.len := congrArg leNat (hbehind 4 (by omega))
  have htag : (v'.data.take (4 + 4 + v.len)).take 4 = intBytes order := by
    rw [List.take_take, Nat.min_eq_left (by omega), hdata, List.take_left' (length_intBytes order)]
  have hcstr : (v'.data.take (4 + 4 + v.len)).drop 8 = (v.data.take (4 + 4 + v.len)).drop 8 := by
    have htail : ∀ l : List UInt8,
        (l.take (4 + 4 + v.len)).drop 8 = ((l.drop 4).take (v.len + 4)).drop 4 := by
      intro l
      rw [List.drop_take, List.drop_take, List.drop_drop]
      congr 1
      omega
    rw [htail, htail, hbehind _ le_rfl]
  have hsize' : 4 + 4 + v.len ≤ v'.data.length := by
    rw [hdata, List.length_append, length_intBytes, List.length_take, List.length_drop]
    omega
  simp only [EncText.encStr, EncText.read, hlen, List.append_nil, List.length_nil, Nat.add_zero,
    if_pos hsize', if_pos (show 4 + 4 + v.len ≤ v.data.length by omega), Option.bind_eq_bind,
    Option.bind_some, hcstr, htag, ofNat_leNat_intBytes]
  split_ifs <;> rfl

/-- `enc_text_set_order` reads past the end of every value of the right size. -/
theorem encTextSetOrder_overreads (hv : v.Matched) (order : ℤ) :
    Datum.encTextSetOrder v order = none := by
  have hsize : v.data.length = 4 + 4 + v.len := by
    rw [EncText.Matched, EncText.varsize] at hv
    omega
  rw [Datum.encTextSetOrder, EncText.read, if_neg]
  · rfl
  · rw [hsize, encstrlen, ivSize, tagSize, List.length_nil]
    omega

/-! ## One step -/

theorem encTextEncrypt_wellFormed (hs : s.length ≤ stringLength) (r : OpsProcess) :
    ∃ v r', Datum.encTextEncrypt g F s r = some (.ok v, r') ∧ WellFormed g v ∧ v.plain g = s := by
  obtain ⟨c, r', hcall, hc, -⟩ := cstringToEnctextWithLen_eq (g := g) (F := F) hs r
  refine ⟨_, r', ?_, wellFormed_ofEncStr hc⟩
  rw [Datum.encTextEncrypt, hcall]
  rfl

theorem encTextConcatenate_wellFormed (hv : WellFormed g v) (hw : WellFormed g w)
    (hne : v.plain g ≠ []) (hne' : w.plain g ≠ [])
    (hsum : (v.plain g).length + (w.plain g).length < stringLength) (r : OpsProcess) :
    ∃ u r', Datum.encTextConcatenate g F v w r = some (.ok u, r') ∧ WellFormed g u := by
  obtain ⟨a, hva, ha, -⟩ := hv.encStr
  obtain ⟨b, hwb, hb, -⟩ := hw.encStr
  obtain ⟨c, r', hcall, hc, -⟩ := encTextConcatenate_cipher (F := F) ha hb hne hne' hsum r
  have hlen : v.len + w.len - 2 * (ivSize + tagSize) = (v.plain g ++ w.plain g).length := by
    rw [hv.len_eq, hw.len_eq, List.length_append]
    omega
  refine ⟨_, r', ?_, (wellFormed_ofEncStr hc).1⟩
  rw [← hlen, Datum.encTextConcatenate, hva, hwb]
  simp only [Option.bind_eq_bind, Option.bind_some, hcall]
  rfl

theorem substring_wellFormed {start length : Bytes encInt32Length} {k : ℤ} (hv : WellFormed g v)
    (hne : v.plain g ≠ []) (hlt : (v.plain g).length < stringLength) (hk : k = 1 ∨ k = 2)
    (hstart : g.Decrypts start.bytes (intBytes k))
    (hlength : g.Decrypts length.bytes (intBytes (v.plain g).length)) (r : OpsProcess) :
    ∃ u r', Datum.substring g F v start length r = some (.ok u, r') ∧ WellFormed g u := by
  obtain ⟨a, hva, ha, -⟩ := hv.encStr
  have hlt' : (v.plain g).length < 256 := hlt
  have hint : IsInt k := by rcases hk with rfl | rfl <;> decide
  have hint' : IsInt (v.plain g).length := ⟨by omega, by omega⟩
  obtain ⟨c, r', u, hcall, hc, -, -, hu⟩ := substring_cipher (F := F) ha hstart hlength hne hlt hint
    hint' (by omega) (by omega) le_rfl (by omega) r
  have hlen : v.len - (ivSize + tagSize) = u.length := by
    rw [hv.len_eq, hu]
    omega
  refine ⟨_, r', ?_, (wellFormed_ofEncStr hc).1⟩
  rw [← hlen, Datum.substring, hva]
  simp only [Option.bind_eq_bind, Option.bind_some, hcall]
  rfl

/-- A string that is shown is no longer than the one that is stored. -/
theorem encTextOut_client (hv : WellFormed g v) (r : OpsProcess) :
    ∃ o r', Datum.encTextOut g F true v r = some (o, r') ∧
      ∀ text, o = .ok text → text.length ≤ stringLength := by
  obtain ⟨a, hva, ha, -⟩ := hv.encStr
  obtain ⟨r', hdec⟩ := encTextDecrypt_eq (F := F) ha r
  refine ⟨_, r', by rw [Datum.encTextOut, if_pos rfl, hva, Option.bind_eq_bind, Option.bind_some,
    hdec], fun text htext => ?_⟩
  by_cases hs : v.plain g = [] <;> simp [hs] at htext
  rw [← htext]
  exact ((List.takeWhile_prefix _).length_le).trans ha.length_le

theorem encTextCmp_defined (hv : WellFormed g v) (hw : WellFormed g w)
    (h : w.plain g = [] ∨ (v.plain g).length < stringLength ∧ (w.plain g).length < stringLength)
    (r : OpsProcess) : ∃ o, Datum.encTextCmp g F v w r = some o := by
  obtain ⟨a, hva, ha, -⟩ := hv.encStr
  obtain ⟨b, hwb, hb, -⟩ := hw.encStr
  rw [Datum.encTextCmp, hva, hwb]
  simp only [Option.bind_eq_bind, Option.bind_some]
  rw [Udf.encTextCmp, compareBy]
  by_cases htagged : a.order ≠ orderNone ∧ b.order ≠ orderNone
  · exact ⟨_, if_pos htagged⟩
  · have hcmp := encTextCmp_eq (in_sent (.strCmp a b) r) ha hb
    obtain ⟨resp, served, hresp, hserved⟩ : ∃ resp served, IsInt resp ∧
        HEDB.encTextCmp g (sent (.strCmp a b) r) = some (resp, served) := by
      by_cases hnil : w.plain g = []
      · exact ⟨-1, _, by decide, by rw [hcmp, if_pos hnil]⟩
      · exact ⟨0, _, by decide, by rw [hcmp, if_neg hnil, if_pos (h.resolve_left hnil)]⟩
    have hcmd : handleCmd g F (Request.strCmp a b).cmd (sent (.strCmp a b) r) =
        setResp (some (resp, served)) := congrArg setResp hserved
    obtain ⟨reply, hsend, -, -⟩ := sendRequest_eq hresp hcmd
    rw [if_neg htagged, hsend]
    exact ⟨_, rfl⟩

/-! ## Whole sessions -/

/-- All texts are well formed, and the strings that were shown are short enough to be stored
again. -/
structure Session.Inv (g : Gcm) (st : Session) : Prop where
  values : ∀ v ∈ st.values, WellFormed g v
  texts : ∀ text ∈ st.texts, text.length ≤ stringLength

theorem Session.Inv.store {st : Session} {r : OpsProcess} (h : st.Inv g) (hv : WellFormed g v) :
    (st.store (.ok v, r)).Inv g := by
  refine ⟨fun u hu => ?_, h.texts⟩
  rcases List.mem_append.1 hu with hu | hu
  · exact h.values u hu
  · exact List.mem_singleton.1 hu ▸ hv

theorem Session.Inv.print {st : Session} {o : Except ℤ (List UInt8)} {r : OpsProcess} (h : st.Inv g)
    (ho : ∀ text, o = .ok text → text.length ≤ stringLength) : (st.print (o, r)).Inv g := by
  cases o with
  | error e => exact ⟨h.values, h.texts⟩
  | ok text =>
    refine ⟨h.values, fun t ht => ?_⟩
    rcases List.mem_append.1 ht with ht | ht
    · exact h.texts t ht
    · exact List.mem_singleton.1 ht ▸ ho text rfl

/-- An admissible step is defined and keeps the invariant. -/
theorem Session.Inv.step {st : Session} {op : Op} (h : st.Inv g) (hop : Admissible g st op) :
    ∃ st', st.step g F op = some st' ∧ st'.Inv g := by
  cases op with
  | encrypt s =>
    obtain ⟨v, r', hcall, hv, -⟩ := encTextEncrypt_wellFormed (F := F) hop st.process
    exact ⟨_, by rw [Session.step, hcall]; rfl, h.store hv⟩
  | textIn clientMode k =>
    obtain rfl : clientMode = true := hop
    cases hk : st.texts[k]? with
    | none => exact ⟨st, by rw [Session.step, hk], h⟩
    | some pIn =>
      have hle := h.texts pIn (List.mem_of_getElem? hk)
      obtain ⟨v, r', hcall, hv, -⟩ := encTextEncrypt_wellFormed (F := F) hle st.process
      refine ⟨_, ?_, h.store (r := r') hv⟩
      simp only [Session.step, hk, Datum.encTextIn, if_true, hcall]
      rfl
  | textOut clientMode i =>
    obtain rfl : clientMode = true := hop
    cases hi : st.values[i]? with
    | none => exact ⟨st, by rw [Session.step, hi], h⟩
    | some v =>
      obtain ⟨o, r', hcall, ho⟩ :=
        encTextOut_client (F := F) (h.values v (List.mem_of_getElem? hi)) st.process
      refine ⟨_, ?_, h.print (r := r') ho⟩
      simp only [Session.step, hi, hcall]
      rfl
  | compare i j =>
    cases hi : st.values[i]? with
    | none => exact ⟨st, by simp only [Session.step, hi], h⟩
    | some v =>
      cases hj : st.values[j]? with
      | none => exact ⟨st, by simp only [Session.step, hi, hj], h⟩
      | some w =>
        obtain ⟨o, hcall⟩ := encTextCmp_defined (F := F) (h.values v (List.mem_of_getElem? hi))
          (h.values w (List.mem_of_getElem? hj)) (hop v hi w hj) st.process
        refine ⟨{ st with process := o.2 }, ?_, ⟨h.values, h.texts⟩⟩
        simp only [Session.step, hi, hj, hcall]
        rfl
  | concatenate i j =>
    cases hi : st.values[i]? with
    | none => exact ⟨st, by simp only [Session.step, hi], h⟩
    | some v =>
      cases hj : st.values[j]? with
      | none => exact ⟨st, by simp only [Session.step, hi, hj], h⟩
      | some w =>
        obtain ⟨hne, hne', hsum⟩ := hop v hi w hj
        obtain ⟨u, r', hcall, hu⟩ := encTextConcatenate_wellFormed (F := F)
          (h.values v (List.mem_of_getElem? hi))
            (h.values w (List.mem_of_getElem? hj)) hne hne' hsum
          st.process
        exact ⟨_, by simp only [Session.step, hi, hj, hcall]; rfl, h.store hu⟩
  | substring i start length =>
    cases hi : st.values[i]? with
    | none => exact ⟨st, by simp only [Session.step, hi], h⟩
    | some v =>
      obtain ⟨hne, hlt, k, hk, hstart, hlength⟩ := hop v hi
      obtain ⟨u, r', hcall, hu⟩ := substring_wellFormed (F := F)
        (h.values v (List.mem_of_getElem? hi)) hne hlt hk hstart hlength st.process
      exact ⟨_, by simp only [Session.step, hi, hcall]; rfl, h.store hu⟩
  | setOrder i order =>
    have hi : st.values[i]? = none := hop
    exact ⟨st, by simp only [Session.step, hi], h⟩

/-- A session whose steps are admissible. -/
def Proceeds (g : Gcm) (F : FloatOps) (st : Session) (op : Op) (st' : Session) : Prop :=
  Admissible g st op ∧ st.step g F op = some st'

theorem inv_of_follows {st st' : Session} {ops : List Op} (h : Follows (Proceeds g F) st ops st')
    (hst : st.Inv g) : st'.Inv g := by
  induction h with
  | nil st => exact hst
  | cons hstep _ ih =>
    obtain ⟨st₁, hst₁, hinv⟩ := hst.step (F := F) hstep.1
    rw [hstep.2, Option.some_inj] at hst₁
    exact ih (hst₁ ▸ hinv)

/-- **In a session of admissible steps every text is well formed, and no function reads or writes
past the end of one.** -/
theorem stored_wellFormed (g : Gcm) (F : FloatOps) (r : OpsProcess) (ops : List Op) (st : Session)
    (h : Follows (Proceeds g F) (.start r) ops st) :
    (∀ v ∈ st.values, WellFormed g v) ∧
      ∀ op, Admissible g st op → ∃ st', st.step g F op = some st' := by
  have hstart : (Session.start r).Inv g :=
    ⟨fun _ hv => absurd hv List.not_mem_nil, fun _ ht => absurd ht List.not_mem_nil⟩
  have hinv := inv_of_follows h hstart
  refine ⟨hinv.values, fun op hop => ?_⟩
  obtain ⟨st', hstep, -⟩ := hinv.step (F := F) hop
  exact ⟨st', hstep⟩

/-- The strings `"a"` and `"b"` are stored and concatenated, and the result can be shown. -/
theorem stored_wellFormed_concatenated : ∃ st,
    Follows (Proceeds Gcm.identity FloatOps.null) (.start OpsProcess.zero)
      [.encrypt [0x61], .encrypt [0x62], .concatenate 0 1] st ∧
      st.values.length = 3 ∧ (∀ v ∈ st.values, WellFormed Gcm.identity v) ∧
      ∃ st', st.step Gcm.identity FloatOps.null (.textOut true 2) = some st' := by
  obtain ⟨a, r₁, ha, hwa, hpa⟩ := @encTextEncrypt_wellFormed Gcm.identity FloatOps.null [0x61]
    (by decide) OpsProcess.zero
  obtain ⟨b, r₂, hb, hwb, hpb⟩ := @encTextEncrypt_wellFormed Gcm.identity FloatOps.null [0x62]
    (by decide) r₁
  have hshort : a.plain Gcm.identity ≠ [] ∧ b.plain Gcm.identity ≠ [] ∧
      (a.plain Gcm.identity).length + (b.plain Gcm.identity).length < stringLength := by
    rw [hpa, hpb]
    decide
  obtain ⟨c, r₃, hc, -⟩ := @encTextConcatenate_wellFormed Gcm.identity FloatOps.null a b hwa hwb
    hshort.1 hshort.2.1 hshort.2.2 r₂
  have hrun : Follows (Proceeds Gcm.identity FloatOps.null) (.start OpsProcess.zero)
      [.encrypt [0x61], .encrypt [0x62], .concatenate 0 1] ⟨[a, b, c], [], r₃⟩ := by
    refine .cons (b := ⟨[a], [], r₁⟩) ⟨Nat.le_add_left 1 255, ?_⟩
      (.cons (b := ⟨[a, b], [], r₂⟩) ⟨Nat.le_add_left 1 255, ?_⟩ (.cons ⟨?_, ?_⟩ (.nil _)))
    · exact congrArg (Option.map (Session.start OpsProcess.zero).store) ha
    · simp only [Session.step, hb]
      rfl
    · intro v hv w hw
      obtain rfl : a = v := Option.some.inj hv
      obtain rfl : b = w := Option.some.inj hw
      exact hshort
    · simp only [Session.step, List.getElem?_cons_zero, List.getElem?_cons_succ, hc]
      rfl
  obtain ⟨hwell, hstep⟩ := stored_wellFormed Gcm.identity FloatOps.null OpsProcess.zero _ _ hrun
  exact ⟨_, hrun, rfl, hwell, hstep (.textOut true 2) rfl⟩

/-- The string `"ab"` is stored, and then it gets an order tag: `enc_text_set_order` copies 66 bytes
out of a value that has 38. -/
theorem setOrder_ab_overreads : ∃ st v,
    (Session.start OpsProcess.zero).step Gcm.identity FloatOps.null
      (.encrypt [0x61, 0x62]) = some st ∧ st.values = [v] ∧ WellFormed Gcm.identity v ∧
      st.step Gcm.identity FloatOps.null (.setOrder 0 1) = none := by
  obtain ⟨v, r', hcall, hv, -⟩ := @encTextEncrypt_wellFormed Gcm.identity FloatOps.null [0x61, 0x62]
    (by decide) OpsProcess.zero
  refine ⟨⟨[v], [], r'⟩, v, congrArg (Option.map (Session.start OpsProcess.zero).store) hcall, rfl,
    hv, ?_⟩
  simp only [Session.step, List.getElem?_cons_zero, encTextSetOrder_overreads hv.size_eq 1]
  rfl

end Udf

end HEDB
