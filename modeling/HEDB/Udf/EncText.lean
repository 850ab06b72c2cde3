import Mathlib.Data.List.TakeWhile
import HEDB.Pipeline.Text

/-!
# The functions on `enc_text`

The functions of `enc_text.cpp` in client mode, over the calls of the client library. A function
raises an error (`ereport(ERROR)`) when a call returns a code other than zero.

A string that comes in is encrypted (`cstringToEnctextWithLen`), and a stored one is decrypted when
it goes out (`encTextDecrypt`). The two agree on strings of 1 to 256 bytes and on no others
(`roundTrips_iff`): the empty string can be stored but not read back, and a longer one is copied
past the end of a local array.
-/

namespace HEDB

namespace Udf

open Layout

/-- `ORDER_NONE`. -/
def orderNone : UInt32 := 0

/-- What a function leaves: an error or a value, and the process behind the region. -/
abbrev Outcome (α : Type) : Type := Except ℤ α × OpsProcess

section Functions

variable (g : Gcm) (F : FloatOps)

/-- A call whose result is a new `enc_text` with `room` bytes for the ciphertext. The result is
copied before the return code is looked at. -/
def callEncStr (q : Request) (room : ℕ) (r : OpsProcess) : Option (Outcome EncStr) := do
  let reply ← sendRequest g F q r
  if h : reply.result.length ≤ room ∧ reply.result.length ≤ encStringLength then
    some (if reply.resp ≠ 0 then .error reply.resp else .ok ⟨orderNone, reply.result, h.2⟩,
      reply.process)
  else none

/-- `cstring_to_enctext_with_len`, and so `enc_text_encrypt`, `enc_text_in` and
`varchar_to_enc_text`. The string is copied to a local `Str` first. -/
def cstringToEnctextWithLen (s : List UInt8) (r : OpsProcess) : Option (Outcome EncStr) :=
  if h : s.length ≤ stringLength then
    callEncStr g F (.strEnc ⟨s, h⟩) (s.length + ivSize + tagSize) r
  else none

/-- `enc_text_decrypt`, and so `enc_text_out`. -/
def encTextDecrypt (c : EncStr) (r : OpsProcess) : Option (Outcome (List UInt8)) := do
  let reply ← sendRequest g F (.strDec c) r
  if reply.result.length ≤ stringLength then
    some (if reply.resp ≠ 0 then .error reply.resp else .ok (cString reply.result), reply.process)
  else none

/-- `enc_text_concatenate`. -/
def encTextConcatenate (a b : EncStr) : OpsProcess → Option (Outcome EncStr) :=
  callEncStr g F (.concat a b) (a.len + b.len - (ivSize + tagSize))

/-- `substring`. -/
def substring (a : EncStr) (start length : Bytes encInt32Length) : OpsProcess →
    Option (Outcome EncStr) :=
  callEncStr g F (.substring a start length) a.len

/-- A comparison: by the order tags when both strings have one, and by the privacy zone
otherwise. -/
def compareBy {α : Type} (fast : UInt32 → UInt32 → α) (slow : ℤ → α) (a b : EncStr)
    (r : OpsProcess) : Option (Outcome α) :=
  if a.order ≠ orderNone ∧ b.order ≠ orderNone then some (.ok (fast a.order b.order), r)
  else do
    let reply ← sendRequest g F (.strCmp a b) r
    some (if reply.resp ≠ 0 then .error reply.resp else .ok (slow (bytesInt reply.result)),
      reply.process)

/-- `enc_text_eq`. -/
def encTextEq : EncStr → EncStr → OpsProcess → Option (Outcome Bool) :=
  compareBy g F (fun x y => x = y) fun ans => ans = 0

/-- `enc_text_ne`. -/
def encTextNe : EncStr → EncStr → OpsProcess → Option (Outcome Bool) :=
  compareBy g F (fun x y => x ≠ y) fun ans => ans ≠ 0

/-- `enc_text_le`. -/
def encTextLe : EncStr → EncStr → OpsProcess → Option (Outcome Bool) :=
  compareBy g F (fun x y => x ≤ y) fun ans => ans ≤ 0

/-- `enc_text_lt`. -/
def encTextLt : EncStr → EncStr → OpsProcess → Option (Outcome Bool) :=
  compareBy g F (fun x y => x < y) fun ans => ans < 0

/-- `enc_text_ge`. -/
def encTextGe : EncStr → EncStr → OpsProcess → Option (Outcome Bool) :=
  compareBy g F (fun x y => x ≥ y) fun ans => ans ≥ 0

/-- `enc_text_gt`. -/
def encTextGt : EncStr → EncStr → OpsProcess → Option (Outcome Bool) :=
  compareBy g F (fun x y => x > y) fun ans => ans > 0

/-- `enc_text_cmp`. -/
def encTextCmp : EncStr → EncStr → OpsProcess → Option (Outcome ℤ) :=
  compareBy g F (fun x y => if x < y then -1 else if x = y then 0 else 1) fun ans => ans

end Functions

/-- `enc_text_set_order`. -/
def encTextSetOrder (c : EncStr) (order : ℤ) : EncStr :=
  ⟨UInt32.ofBitVec (BitVec.ofInt 32 order), c.cstr, c.len_le⟩

variable {g : Gcm} {F : FloatOps} {s t : List UInt8} {a b c d : EncStr}

/-! ## Calls on ciphertexts -/

/-- A call that encrypts a string into its result field. -/
theorem callEncStr_eq {q : Request} {o room : ℕ} {r : OpsProcess}
    (hcmd : handleCmd g F q.cmd (sent q r) = setResp (encryptStrInto g (sent q r) s o))
    (hcopy : ∀ m, q.copyResultFrom m = encCstr m o) (hs : s.length ≤ stringLength)
    (hroom : s.length + ivSize + tagSize ≤ room) :
    ∃ c r', callEncStr g F q room r = some (.ok c, r') ∧ g.IsCipher c s ∧ c.order = orderNone := by
  obtain ⟨served, hserved, -, hcstr⟩ := encryptStrInto_eq (g := g) (r := sent q r) (o := o) hs
  obtain ⟨reply, hsend, hresp, hresult⟩ := sendRequest_eq (by decide) (hserved ▸ hcmd)
  rw [hcopy, hcstr] at hresult
  have hlen : (g.gcmEncrypt (increment (sent q r).iv) s).length = s.length + ivSize + tagSize :=
    Gcm.length_gcmEncrypt _ _
  have hle : (g.gcmEncrypt (increment (sent q r).iv) s).length ≤ encStringLength := by
    rw [hlen, encStringLength]
    omega
  refine ⟨⟨orderNone, _, hle⟩, reply.process, ?_, Gcm.isCipher_gcmEncrypt _ _ hle, rfl⟩
  rw [callEncStr, hsend]
  simp only [Option.bind_eq_bind, Option.bind_some, hresp, hresult, hlen, ne_eq, not_true_eq_false,
    if_false]
  exact dif_pos ⟨hroom, hlen ▸ hle⟩

/-- What a call returns that encrypts a string into its result field. -/
theorem callEncStr_of_encrypt {q : Request} {o room : ℕ} {r r' : OpsProcess}
    {x : Except ℤ EncStr}
    (hcmd : handleCmd g F q.cmd (sent q r) = setResp (encryptStrInto g (sent q r) s o))
    (hcopy : ∀ m, q.copyResultFrom m = encCstr m o) (hs : s.length ≤ stringLength)
    (h : callEncStr g F q room r = some (x, r')) :
    (∃ c, x = .ok c ∧ g.IsCipher c s) ∧ s.length + ivSize + tagSize ≤ room := by
  obtain ⟨served, hserved, -, hcstr⟩ := encryptStrInto_eq (g := g) (r := sent q r) (o := o) hs
  obtain ⟨reply, hsend, hresp, hresult⟩ := sendRequest_eq (by decide) (hserved ▸ hcmd)
  rw [hcopy, hcstr] at hresult
  rw [callEncStr, hsend] at h
  simp only [Option.bind_eq_bind, Option.bind_some, hresp, hresult, ne_eq, not_true_eq_false,
    if_false] at h
  split_ifs at h with hroom
  cases h
  refine ⟨⟨_, rfl, Gcm.isCipher_gcmEncrypt _ _ hroom.2⟩, ?_⟩
  rw [← Gcm.length_gcmEncrypt (increment (sent q r).iv)]
  exact hroom.1

theorem callEncStr_none {q : Request} {room : ℕ} {r : OpsProcess}
    (hcmd : handleCmd g F q.cmd (sent q r) = none) : callEncStr g F q room r = none := by
  rw [callEncStr, sendRequest_eq_none hcmd]
  rfl

/-! ## Reading a string back -/

/-- What `enc_text_decrypt` does with a ciphertext. -/
theorem encTextDecrypt_eq (hc : g.IsCipher c s) (r : OpsProcess) :
    ∃ r', encTextDecrypt g F c r =
      some (if s = [] then .error (-1) else .ok (cString s), r') := by
  obtain ⟨served, hserved, huint, hread⟩ := encStringDec_eq (in_sent (.strDec c) r) hc
  have hcmd : handleCmd g F (Request.strDec c).cmd (sent (.strDec c) r) =
      setResp (some (if s = [] then -1 else 0, served)) := congrArg setResp hserved
  obtain ⟨reply, hsend, hresp, hresult⟩ := sendRequest_eq (by split_ifs <;> decide) hcmd
  have hres : reply.result = s := by
    rw [hresult, Request.copyResultFrom, huint, hread]
  refine ⟨reply.process, ?_⟩
  rw [encTextDecrypt, hsend]
  simp only [Option.bind_eq_bind, Option.bind_some, hres, if_pos hc.length_le, hresp]
  by_cases hs : s = [] <;> simp [hs]

/-- The stored value can be read back. -/
def Decryptable (g : Gcm) (F : FloatOps) (c : EncStr) (s : List UInt8) : Prop :=
  ∀ r, ∃ r', encTextDecrypt g F c r = some (.ok s, r')

theorem decryptable_iff (hc : g.IsCipher c s) (t : List UInt8) :
    Decryptable g F c t ↔ s ≠ [] ∧ cString s = t := by
  constructor
  · intro h
    obtain ⟨r₁, h₁⟩ := h OpsProcess.zero
    obtain ⟨r₂, h₂⟩ := encTextDecrypt_eq (F := F) hc OpsProcess.zero
    rw [h₁] at h₂
    by_cases hs : s = [] <;> simp [hs] at h₂
    exact ⟨hs, h₂.1.symm⟩
  · rintro ⟨hs, rfl⟩ r
    obtain ⟨r', h⟩ := encTextDecrypt_eq (F := F) hc r
    exact ⟨r', by rw [h, if_neg hs]⟩

/-- **Every string given to the extension comes back**, unless an error is raised. -/
def RoundTrips (g : Gcm) (F : FloatOps) (s : List UInt8) : Prop :=
  ∀ r, (∃ e r', cstringToEnctextWithLen g F s r = some (.error e, r')) ∨
    ∃ c r', cstringToEnctextWithLen g F s r = some (.ok c, r') ∧ Decryptable g F c s

/-- Storing a string that fits. -/
theorem cstringToEnctextWithLen_eq (h : s.length ≤ stringLength) (r : OpsProcess) :
    ∃ c r', cstringToEnctextWithLen g F s r = some (.ok c, r') ∧ g.IsCipher c s ∧
      c.order = orderNone := by
  rw [cstringToEnctextWithLen, dif_pos h]
  have henc := encStringEnc_eq (g := g) (in_sent (.strEnc ⟨s, h⟩) r)
  exact callEncStr_eq (congrArg setResp henc) (fun m => rfl) h le_rfl

theorem cString_eq (h : 0 ∉ s) : cString s = s := by
  rw [cString, List.takeWhile_eq_self_iff]
  intro b hb
  exact decide_eq_true fun h0 => h (h0 ▸ hb)

theorem roundTrips_iff (h0 : 0 ∉ s) : RoundTrips g F s ↔ s ≠ [] ∧ s.length ≤ stringLength := by
  constructor
  · intro h
    by_cases hle : s.length ≤ stringLength
    · obtain ⟨c, r', hstore, hc, -⟩ :=
        cstringToEnctextWithLen_eq (g := g) (F := F) hle OpsProcess.zero
      rcases h OpsProcess.zero with ⟨e, r₁, h₁⟩ | ⟨c₁, r₁, h₁, hdec⟩
      · simp [hstore] at h₁
      · rw [hstore] at h₁
        cases h₁
        exact ⟨((decryptable_iff hc s).1 hdec).1, hle⟩
    · have hnone : cstringToEnctextWithLen g F s OpsProcess.zero = none := dif_neg hle
      rcases h OpsProcess.zero with ⟨e, r₁, h₁⟩ | ⟨c₁, r₁, h₁, -⟩ <;> simp [hnone] at h₁
  · rintro ⟨hne, hle⟩ r
    obtain ⟨c, r', hstore, hc, -⟩ := cstringToEnctextWithLen_eq (g := g) (F := F) hle r
    exact .inr ⟨c, r', hstore, (decryptable_iff hc s).2 ⟨hne, cString_eq h0⟩⟩

/-! ## Comparing strings -/

theorem abs_strcmp_le (s t : List UInt8) : |strcmp s t| ≤ 255 := by
  have hbyte : ∀ b : UInt8, (b.toNat : ℤ) ≤ 255 := fun b => by
    have := b.toNat_lt
    omega
  induction s generalizing t with
  | nil =>
    cases t with
    | nil => decide
    | cons b t =>
      rw [strcmp, abs_neg, Nat.abs_cast]
      exact hbyte b
  | cons a s ih =>
    cases t with
    | nil =>
      rw [strcmp, Nat.abs_cast]
      exact hbyte a
    | cons b t =>
      rw [strcmp]
      split_ifs
      · exact ih t
      · rw [abs_le]
        have ha := hbyte a
        have hb := hbyte b
        omega

theorem isInt_plainTextCmp (s t : List UInt8) : IsInt (plainTextCmp s t) := by
  have h := abs_le.1 (abs_strcmp_le (cString s) (cString t))
  unfold plainTextCmp IsInt
  omega

/-- A comparison of two strings that are not both tagged. -/
theorem compareBy_slow {α : Type} {fast : UInt32 → UInt32 → α} {slow : ℤ → α}
    (hnone : ¬ (a.order ≠ orderNone ∧ b.order ≠ orderNone)) (ha : g.IsCipher a s)
    (hb : g.IsCipher b t) (hs : s.length < stringLength) (hne : t ≠ [])
    (ht : t.length < stringLength) (r : OpsProcess) :
    ∃ r', compareBy g F fast slow a b r = some (.ok (slow (plainTextCmp s t)), r') := by
  have hcmp := encTextCmp_eq (in_sent (.strCmp a b) r) ha hb
  rw [if_neg hne, if_pos ⟨hs, ht⟩] at hcmp
  have hcmd : handleCmd g F (Request.strCmp a b).cmd (sent (.strCmp a b) r) = setResp
    (some (0, _)) :=
    congrArg setResp hcmp
  obtain ⟨reply, hsend, hresp, hresult⟩ := sendRequest_eq (by decide) hcmd
  have hres : bytesInt reply.result = plainTextCmp s t := by
    rw [hresult]
    exact Mem.int_setInt _ _ (isInt_plainTextCmp s t)
  refine ⟨reply.process, ?_⟩
  rw [compareBy, if_neg hnone, hsend]
  simp only [Option.bind_eq_bind, Option.bind_some, hresp, hres, ne_eq, not_true_eq_false, if_false]

/-- The stored value can be compared with every string that is neither empty nor too long. -/
def Comparable (g : Gcm) (F : FloatOps) (c : EncStr) (s : List UInt8) : Prop :=
  ∀ d t, g.IsCipher d t → t ≠ [] → t.length < stringLength → ∀ r,
    (∃ r', encTextCmp g F c d r = some (.ok (strcmp s (cString t)), r')) ∧
      ∃ r', encTextCmp g F d c r = some (.ok (strcmp (cString t) s), r')

/-- The stored value can be read back and compared. -/
def Usable (g : Gcm) (F : FloatOps) (c : EncStr) (s : List UInt8) : Prop :=
  Decryptable g F c s ∧ Comparable g F c s

theorem usable_of_isCipher (hc : g.IsCipher c s) (horder : c.order = orderNone) (hne : s ≠ [])
    (hs : s.length < stringLength) : Usable g F c (cString s) := by
  refine ⟨(decryptable_iff hc _).2 ⟨hne, rfl⟩, fun d t hd hne' ht r => ⟨?_, ?_⟩⟩
  · exact compareBy_slow (by simp [horder]) hc hd hs hne' ht r
  · exact compareBy_slow (by simp [horder]) hd hc ht hne hs r

end Udf

end HEDB
