import HEDB.Foundations.Printf
import HEDB.Pipeline.Failures
import HEDB.Udf.Representation

/-!
# The buffers of the output functions

Each output function has two modes. In client mode it decrypts the value and prints the plaintext;
in server mode it prints the ciphertext in Base64. The sizes of its buffers are constants, in client
mode mostly the size of the ciphertext.

`outputsFit_iff` goes through the eight paths, for every stored value. Six fit, as long as the value
can be sent and its failure reported. `%f` of a `float` needs more than 32 bytes from `10 ^ 24` on,
and `ENC_STRING_B64_LENGTH` has been computed for a plaintext of 256 bytes and not for its
ciphertext, so that it holds values of up to 258 bytes, which a plaintext of 218 bytes has.
-/

namespace HEDB

namespace Udf

open Layout Printf Binary32

/-! ## Client mode -/

/-- `sprintf` into a buffer of `room` bytes, which must hold the text and its NUL. -/
def sprintf (room : ℕ) (text : List UInt8) : Option (List UInt8) :=
  if text.length + 1 ≤ room then some text else none

/-- `MAXDATELEN`. -/
def maxDateLen : ℕ := 128

/-- `ERRCODE_DATETIME_VALUE_OUT_OF_RANGE`. -/
def errcodeDatetimeValueOutOfRange : ℤ := 0x8000082

/-- The server's text of a timestamp, which has at most `MAXDATELEN` characters: `timestamp2tm`,
which may fail, and `EncodeDateTime`. -/
structure DateTime where
  encode : ℤ → Option (List UInt8)
  length_le : ∀ t text, encode t = some text → text.length ≤ maxDateLen

section Functions

variable (g : Gcm) (F : FloatOps)

/-- An output function in client mode, with the part that prints the plaintext. -/
def outWith (f : Fam) (print : List UInt8 → Option (Except ℤ (List UInt8))) (c : Bytes f.size)
    (r : OpsProcess) : Option (Outcome (List UInt8)) := do
  let reply ← sendRequest g F (.dec f c) r
  if reply.resp ≠ 0 then some (.error reply.resp, reply.process)
  else some (← print reply.result, reply.process)

/-- `enc_int4_out` in client mode. -/
def encInt4OutClient : Bytes encInt32Length → OpsProcess → Option (Outcome (List UInt8)) :=
  outWith g F .int fun p => (sprintf encInt32Length (printD (bytesInt p))).map .ok

/-- `enc_float4_out` in client mode. -/
def encFloat4OutClient : Bytes encFloat4Length → OpsProcess → Option (Outcome (List UInt8)) :=
  outWith g F .float fun p => (sprintf encFloat4Length (printF (bytesFloat p))).map .ok

/-- `enc_timestamp_out` in client mode. The text is printed into a local array. -/
def encTimestampOutClient (D : DateTime) :
    Bytes encTimestampLength → OpsProcess → Option (Outcome (List UInt8)) :=
  outWith g F .timestamp fun p =>
    match D.encode (bytesInt64 p) with
    | some text => (sprintf (maxDateLen + 1) text).map .ok
    | none => some (.error errcodeDatetimeValueOutOfRange)

end Functions

variable {g : Gcm} {F : FloatOps}

/-- A call that decrypts, on a value that does not. -/
theorem sendRequest_dec_of_forged (hg : g.IntCodes) {f : Fam} {c : Bytes f.size}
    (h : (g.gcmDecrypt c.bytes).1 ≠ 0) (r : OpsProcess) :
    ∃ reply, sendRequest g F (.dec f c) r = some reply ∧ reply.resp ≠ 0 := by
  have hread : (sent (.dec f c) r).mem.read decCipher f.size = c.bytes :=
    (in_sent (.dec f c) r).field List.mem_cons_self c.size
  have hcmd : handleCmd g F (Request.dec f c).cmd (sent (.dec f c) r) =
      setResp (encDecrypt g f (sent (.dec f c) r)) := by
    cases f <;> rfl
  have hlong : ¬ c.bytes.length ≤ ivSize + tagSize := by
    rw [c.size]
    cases f <;> decide
  rw [encDecrypt, hread, Gcm.decryptBytes, if_neg hlong] at hcmd
  obtain ⟨reply, hsend, hresp, -⟩ := sendRequest_eq (hg _ _ _) hcmd
  exact ⟨reply, hsend, by rw [hresp]; exact h⟩

/-- **An output function in client mode fits** if it prints the plaintext in its buffer. -/
theorem outWith_fits_iff (hg : g.IntCodes) {f : Fam}
    {print : List UInt8 → Option (Except ℤ (List UInt8))} {c : Bytes f.size} :
    (∀ r, outWith g F f print c r ≠ none) ↔ ∀ p, g.Decrypts c.bytes p → print p ≠ none := by
  by_cases hcode : (g.gcmDecrypt c.bytes).1 = 0
  · have hp : g.Decrypts c.bytes (g.gcmDecrypt c.bytes).2 := Prod.ext hcode rfl
    have hout : ∀ r, outWith g F f print c r ≠ none ↔ print (g.gcmDecrypt c.bytes).2 ≠ none := by
      intro r
      obtain ⟨reply, hsend, hresp, hresult⟩ := sendRequest_simulates (F := F)
        (q := .dec f c) (a := .value (g.gcmDecrypt c.bytes).2)
        (by rw [plainCall, Gcm.plainOf, if_pos hcode]; rfl) r
      have hres : reply.result = (g.gcmDecrypt c.bytes).2 := hresult
      simp only [outWith, hsend, Option.bind_eq_bind, Option.bind_some, hres, hresp]
      cases print (g.gcmDecrypt c.bytes).2 <;> simp
    constructor
    · intro h p hdec
      rw [show p = (g.gcmDecrypt c.bytes).2 from (congrArg Prod.snd hdec).symm]
      exact (hout OpsProcess.zero).mp (h _)
    · exact fun h r => (hout r).mpr (h _ hp)
  · refine iff_of_true (fun r => ?_) fun p hp => absurd (congrArg Prod.fst hp) hcode
    obtain ⟨reply, hsend, hresp⟩ := sendRequest_dec_of_forged (F := F) hg hcode r
    rw [outWith, hsend]
    simp [hresp]

theorem sprintf_ne_none_iff {room : ℕ} {text : List UInt8} :
    sprintf room text ≠ none ↔ text.length + 1 ≤ room := by
  unfold sprintf
  split_ifs with h <;> simp [h]

theorem encInt4OutClient_fits (hg : g.IntCodes) (c : Bytes encInt32Length) (r : OpsProcess) :
    encInt4OutClient g F c r ≠ none := by
  refine (outWith_fits_iff hg).mpr (fun p _ => ?_) r
  have hint := isInt_bytesInt p
  have hlen := length_printD_le (v := bytesInt p) (by unfold IsInt at hint; omega)
  rw [ne_eq, Option.map_eq_none_iff]
  exact sprintf_ne_none_iff.mpr (Nat.succ_le_succ hlen |>.trans (by decide))

/-- The value prints in 32 bytes. -/
def Printable (x : UInt32) : Prop := IsFinite x → -(10 ^ 23 : ℚ) < value x ∧ value x < 10 ^ 24

instance (x : UInt32) : Decidable (Printable x) := inferInstanceAs (Decidable (_ → _))

theorem encFloat4OutClient_fits_iff (hg : g.IntCodes) (c : Bytes encFloat4Length) :
    (∀ r, encFloat4OutClient g F c r ≠ none) ↔
      ∀ p, g.Decrypts c.bytes p → Printable (bytesFloat p) := by
  refine (outWith_fits_iff hg).trans (forall_congr' fun p => imp_congr_right fun _ => ?_)
  rw [ne_eq, Option.map_eq_none_iff, ← ne_eq, sprintf_ne_none_iff]
  exact Nat.succ_le_succ_iff.trans (length_printF_le_iff (bytesFloat p) (k := 31) (by decide))

theorem encTimestampOutClient_fits (hg : g.IntCodes) (D : DateTime) (c : Bytes encTimestampLength)
    (r : OpsProcess) : encTimestampOutClient g F D c r ≠ none := by
  refine (outWith_fits_iff hg).mpr (fun p _ => ?_) r
  cases htext : D.encode (bytesInt64 p) with
  | none => simp
  | some text =>
    rw [ne_eq, Option.map_eq_none_iff]
    exact sprintf_ne_none_iff.mpr (Nat.succ_le_succ (D.length_le _ _ htext))

/-- `enc_text_out` in client mode on any value. The array of its local `Str` holds what comes back,
if the value can be sent and the privacy zone answers. -/
theorem encTextOut_client_fits_iff (hg : g.IntCodes) {v : EncText} :
    (∀ r, Datum.encTextOut g F true v r ≠ none) ↔
      ∃ a, v.encStr = some a ∧ g.Reported a.cstr ∧ ivSize + tagSize ≤ a.len := by
  cases ha : v.encStr with
  | none =>
    refine iff_of_false (fun h => h OpsProcess.zero ?_) (by simp)
    rw [Datum.encTextOut, if_pos rfl, ha]
    rfl
  | some a =>
    have hout : ∀ r, Datum.encTextOut g F true v r = encTextDecrypt g F a r := fun r => by
      rw [Datum.encTextOut, if_pos rfl, ha]
      rfl
    simp only [hout, Option.some.injEq, exists_eq_left']
    have hcmd : ∀ r, handleCmd g F (Request.strDec a).cmd (sent (.strDec a) r) =
        setResp (encStringDec g (sent (.strDec a) r)) := fun _ => rfl
    constructor
    · intro h
      by_contra hno
      refine h OpsProcess.zero ?_
      have hnone := hcmd OpsProcess.zero
      rw [encStringDec_of_in (in_sent _ _), if_neg hno] at hnone
      rw [encTextDecrypt, sendRequest_eq_none hnone]
      rfl
    · intro hyes r
      have hserved := encStringDec_of_in (g := g) (in_sent (.strDec a) r)
      rw [if_pos hyes] at hserved
      obtain ⟨reply, hsend, -, hresult⟩ := sendRequest_eq (hg.isInt _)
        ((hcmd r).trans (congrArg setResp hserved))
      have hle : a.len ≤ 284 := a.len_le
      have hlen : reply.result.length ≤ stringLength := by
        rw [hresult, Request.copyResultFrom, Mem.length_read,
          uint_strDecPlain _ (by omega)]
        simp only [stringLength, ivSize, tagSize]
        omega
      rw [encTextDecrypt, hsend, Option.bind_eq_bind, Option.bind_some, if_pos hlen]
      exact Option.some_ne_none _

/-! ## Server mode -/

theorem fixedOut_ne_none_iff {room : ℕ} {bs : List UInt8} :
    fixedOut room bs ≠ none ↔ 4 * ((bs.length + 2) / 3) + 1 ≤ room := by
  rw [fixedOut, length_toBase64]
  split_ifs with h <;> simp [h]

theorem fixedOut_fits {size room : ℕ} (v : Bytes size) (h : 4 * ((size + 2) / 3) + 1 ≤ room) :
    fixedOut room v.bytes ≠ none := by
  rwa [fixedOut_ne_none_iff, v.size]

/-- `enc_text_out` with the memory that it reads behind the value. -/
theorem encTextOut_fits_iff {v : EncText} {behind : List UInt8} (h : varhdrsz ≤ behind.length) :
    encTextOut v behind ≠ none ↔ v.varsize ≤ 258 := by
  have hread : v.read behind v.varsize = some ((v.data ++ behind).take v.varsize) := by
    rw [EncText.read, if_pos (by rw [EncText.varsize]; omega)]
  have hlen : ((v.data ++ behind).take v.varsize).length = v.varsize := by
    rw [List.length_take, List.length_append, EncText.varsize]
    omega
  rw [encTextOut, hread]
  refine fixedOut_ne_none_iff.trans ?_
  rw [hlen, encStringB64Length]
  omega

/-! ## All output functions -/

/-- **Which values the output functions print inside their buffers.** -/
theorem outputsFit_iff (hg : g.IntCodes) (F : FloatOps) (D : DateTime) :
    (∀ c r, encInt4OutClient g F c r ≠ none) ∧
    (∀ c, (∀ r, encFloat4OutClient g F c r ≠ none) ↔
      ∀ p, g.Decrypts c.bytes p → Printable (bytesFloat p)) ∧
    (∀ c r, encTimestampOutClient g F D c r ≠ none) ∧
    (∀ c, encInt4Out c ≠ none) ∧ (∀ c, encFloat4Out c ≠ none) ∧ (∀ c, encTimestampOut c ≠ none) ∧
    ∀ v, ((∀ r, Datum.encTextOut g F true v r ≠ none) ↔
        ∃ a, v.encStr = some a ∧ g.Reported a.cstr ∧ ivSize + tagSize ≤ a.len) ∧
      ∀ behind, varhdrsz ≤ behind.length → (encTextOut v behind ≠ none ↔ v.varsize ≤ 258) := by
  refine ⟨encInt4OutClient_fits hg, encFloat4OutClient_fits_iff hg, encTimestampOutClient_fits hg D,
    fun c => fixedOut_fits c (by decide), fun c => fixedOut_fits c (by decide),
    fun c => fixedOut_fits c (by decide),
    fun v => ⟨encTextOut_client_fits_iff hg, fun _ => encTextOut_fits_iff⟩⟩

/-- Floats have ciphertexts. -/
theorem exists_cipher_float (g : Gcm) (x : UInt32) :
    ∃ c : Bytes encFloat4Length, g.Decrypts c.bytes (floatBytes x) :=
  g.exists_cipher (by rw [length_floatBytes]; rfl)

/-- The number one is printed. -/
theorem outputsFit_one : Gcm.identity.IntCodes ∧
    ∃ c : Bytes encFloat4Length, Gcm.identity.Decrypts c.bytes (floatBytes 0x3f800000) ∧
      ∀ r, encFloat4OutClient Gcm.identity FloatOps.null c r ≠ none := by
  obtain ⟨c, hc⟩ := exists_cipher_float Gcm.identity 0x3f800000
  have hfits := (outputsFit_iff Gcm.identity_intCodes FloatOps.null ⟨fun _ => none, nofun⟩).2.1 c
  refine ⟨Gcm.identity_intCodes, c, hc, hfits.mpr fun p hp => ?_⟩
  obtain rfl : floatBytes 0x3f800000 = p := congrArg Prod.snd (hc.symm.trans hp)
  decide +kernel

/-- **Output functions that overrun their buffers**: the largest `float` takes 47 bytes instead of
32, and a text of 219 bytes is one too long. -/
theorem outputs_overrun :
    (∃ c : Bytes encFloat4Length, Gcm.identity.Decrypts c.bytes (floatBytes 0x7f7fffff) ∧
      ∃ r, encFloat4OutClient Gcm.identity FloatOps.null c r = none) ∧
    ∃ v, WellFormed Gcm.identity v ∧ v.plain Gcm.identity = List.replicate 219 0x61 ∧
      encTextOut v [0, 0, 0, 0] = none := by
  constructor
  · obtain ⟨c, hc⟩ := exists_cipher_float Gcm.identity 0x7f7fffff
    refine ⟨c, hc, ?_⟩
    by_contra hfits
    push Not at hfits
    have hprint := (encFloat4OutClient_fits_iff Gcm.identity_intCodes c).mp hfits _ hc
    exact absurd (hprint (by decide)).2 (by decide +kernel)
  · obtain ⟨v, r', -, hv, hplain⟩ := encTextEncrypt_wellFormed (g := Gcm.identity)
      (F := FloatOps.null) (s := List.replicate 219 0x61) (by rw [List.length_replicate]; decide)
      OpsProcess.zero
    refine ⟨v, hv, hplain, ?_⟩
    by_contra hout
    have hbehind : varhdrsz ≤ [0, 0, 0, 0].length := le_rfl
    have hsize := (encTextOut_fits_iff hbehind).mp hout
    rw [hv.size_eq, hv.len_eq, hplain, List.length_replicate] at hsize
    exact absurd hsize (by decide)

end Udf

end HEDB
