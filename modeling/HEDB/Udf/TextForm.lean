import HEDB.PrivacyZone.Handler
import HEDB.Utils.Base64

/-!
# The text form of ciphertexts in server mode

In server mode the output function of a type prints the bytes of a value in Base64, and the input
function reads them back.

The types of fixed width lose nothing (`fixedWidth_lossless`). An `enc_text` is a `varlena`: its
size counts the header of four bytes too, and `enc_text_out` prints so many bytes from behind the
header on. So it prints the four bytes of memory that follow the value, and `enc_text_in` makes of
the text a value that is four bytes longer (`encTextIn_encTextOut`).
-/

namespace HEDB

namespace Udf

open Base64

/-! ## Fixed width -/

def encIntB64Length : ℕ := 45
def encFloatB64Length : ℕ := 45
def encTimestampB64Length : ℕ := 49

/-- An output function: it prints the bytes into a buffer of `room` bytes, which must hold the text
and its NUL. -/
def fixedOut (room : ℕ) (v : List UInt8) : Option (List UInt8) :=
  if (toBase64 v).length ≤ room then some (cString (toBase64 v)) else none

/-- An input function: it reads the text into a value of `size` zero bytes. -/
def fixedIn (size : ℕ) (pIn : List UInt8) : Option (Bytes size) := do
  let bs ← fromBase64 pIn pIn.length
  if h : bs.length ≤ size then
    some ⟨bs ++ List.replicate (size - bs.length) 0, by simp [h]⟩
  else none

/-- `enc_int4_out` in server mode. -/
def encInt4Out (v : Bytes encInt32Length) : Option (List UInt8) := fixedOut encIntB64Length v.bytes

/-- `enc_int4_in` in server mode. -/
def encInt4In : List UInt8 → Option (Bytes encInt32Length) := fixedIn encInt32Length

/-- `enc_float4_out` in server mode. -/
def encFloat4Out (v : Bytes encFloat4Length) : Option (List UInt8) :=
  fixedOut encFloatB64Length v.bytes

/-- `enc_float4_in` in server mode. -/
def encFloat4In : List UInt8 → Option (Bytes encFloat4Length) := fixedIn encFloat4Length

/-- `enc_timestamp_out` in server mode. -/
def encTimestampOut (v : Bytes encTimestampLength) : Option (List UInt8) :=
  fixedOut encTimestampB64Length v.bytes

/-- `enc_timestamp_in` in server mode. -/
def encTimestampIn : List UInt8 → Option (Bytes encTimestampLength) := fixedIn encTimestampLength

/-- The text is what a reader of the C string sees. -/
theorem cString_toBase64 {bs text : List UInt8} (h : Encodes bs text) :
    cString (toBase64 bs) = text := by
  rw [h.toBase64_eq, cString, List.takeWhile_append_of_pos]
  · simp
  · intro c hc
    exact decide_eq_true fun h0 => h.noNul (h0 ▸ hc)

theorem length_toBase64 (bs : List UInt8) :
    (toBase64 bs).length = 4 * ((bs.length + 2) / 3) + 1 := by
  obtain ⟨text, h⟩ := exists_encodes bs
  rw [h.toBase64_eq, List.length_append, h.length_eq]
  rfl

/-- A value whose text fits is read back. -/
theorem fixedIn_fixedOut {size room : ℕ} (v : Bytes size)
    (hroom : 4 * ((size + 2) / 3) + 1 ≤ room) :
    ∃ text, fixedOut room v.bytes = some text ∧ fixedIn size text = some v := by
  obtain ⟨text, h⟩ := exists_encodes v.bytes
  refine ⟨text, ?_, ?_⟩
  · rw [fixedOut, length_toBase64, v.size, if_pos hroom, cString_toBase64 h]
  · obtain ⟨bs, rfl⟩ := v
    rw [fixedIn, h.fromBase64]
    simp

/-- **Base64 and the text forms of the types of fixed width lose nothing.** -/
theorem fixedWidth_lossless :
    (∀ bs : List UInt8, ∃ text, toBase64 bs = text ++ [0] ∧ 0 ∉ text ∧
      text.length = 4 * ((bs.length + 2) / 3) ∧ fromBase64 text text.length = some bs) ∧
    (∀ v, ∃ text, encInt4Out v = some text ∧ encInt4In text = some v) ∧
    (∀ v, ∃ text, encFloat4Out v = some text ∧ encFloat4In text = some v) ∧
    ∀ v, ∃ text, encTimestampOut v = some text ∧ encTimestampIn text = some v := by
  refine ⟨fun bs => ?_, fun v => ?_, fun v => ?_, fun v => ?_⟩
  · obtain ⟨text, h⟩ := exists_encodes bs
    exact ⟨text, h.toBase64_eq, h.noNul, h.length_eq, h.fromBase64⟩
  · exact fixedIn_fixedOut v (by decide)
  · exact fixedIn_fixedOut v (by decide)
  · exact fixedIn_fixedOut v (by decide)

/-! ## `enc_text` -/

def encStringB64Length : ℕ := 345

/-- `VARHDRSZ`. -/
def varhdrsz : ℕ := 4

/-- An `enc_text` value: the bytes behind the header. -/
structure EncText where
  data : List UInt8
  deriving DecidableEq

namespace EncText

/-- `VARSIZE`, which counts the header. -/
def varsize (v : EncText) : ℕ := varhdrsz + v.data.length

/-- The `len` field of the `EncStr` behind the header. -/
def len (v : EncText) : ℕ := leNat ((v.data.drop 4).take 4)

/-- The size of the value is the one that its `len` field asks for. -/
def Matched (v : EncText) : Prop := v.varsize = varhdrsz + 4 + 4 + v.len

instance (v : EncText) : Decidable v.Matched := inferInstanceAs (Decidable (_ = _))

/-- The `n` bytes from `VARDATA` on. Those behind the end of the value are from the memory `behind`
it, as far as there is any. -/
def read (v : EncText) (behind : List UInt8) (n : ℕ) : Option (List UInt8) :=
  if n ≤ v.data.length + behind.length then some ((v.data ++ behind).take n) else none

end EncText

/-- `enc_text_out` in server mode. -/
def encTextOut (v : EncText) (behind : List UInt8) : Option (List UInt8) := do
  fixedOut encStringB64Length (← v.read behind v.varsize)

/-- `enc_text_in` in server mode. The sum that gives the new size is one of `uint32_t`. -/
def encTextIn (pIn : List UInt8) : Option EncText := do
  let estr ← fixedIn encStringB64Length pIn
  let newSz := (leNat ((estr.bytes.drop 4).take 4) + 12) % 2 ^ 32
  if newSz ≤ encStringB64Length then some ⟨estr.bytes.take newSz⟩ else none

/-- The text form of a value is its own and gives the value back. -/
def Faithful (v : EncText) : Prop :=
  ∃ text, encTextIn text = some v ∧
    ∀ behind, varhdrsz ≤ behind.length → encTextOut v behind = some text

section EncText

variable {v : EncText} {behind text : List UInt8}

theorem fixedOut_eq_some {room : ℕ} {bs : List UInt8} (h : fixedOut room bs = some text) :
    Encodes bs text ∧ 4 * ((bs.length + 2) / 3) + 1 ≤ room := by
  obtain ⟨text', h'⟩ := exists_encodes bs
  rw [fixedOut, length_toBase64, cString_toBase64 h'] at h
  split_ifs at h with hroom
  cases h
  exact ⟨h', hroom⟩

theorem fixedIn_eq {size : ℕ} {bs : List UInt8} (h : Encodes bs text) (hle : bs.length ≤ size) :
    fixedIn size text = some ⟨bs ++ List.replicate (size - bs.length) 0, by simp [hle]⟩ := by
  rw [fixedIn, h.fromBase64]
  simp [hle]

/-- What `enc_text_out` prints: the value and the four bytes behind it. -/
theorem encTextOut_eq_some (h : encTextOut v behind = some text) :
    varhdrsz ≤ behind.length ∧ Encodes (v.data ++ behind.take varhdrsz) text ∧ v.varsize ≤ 258 := by
  obtain ⟨bs, hread, hout⟩ := Option.bind_eq_some_iff.1 h
  rw [EncText.read] at hread
  split_ifs at hread with hlen
  rw [EncText.varsize] at hlen
  have hle : varhdrsz ≤ behind.length := by omega
  have hbytes : (v.data ++ behind).take v.varsize = v.data ++ behind.take varhdrsz := by
    rw [EncText.varsize, Nat.add_comm, List.take_length_add_append]
  rw [hbytes, Option.some_inj] at hread
  subst hread
  obtain ⟨henc, hroom⟩ := fixedOut_eq_some hout
  refine ⟨hle, henc, ?_⟩
  rw [List.length_append, List.length_take, Nat.min_eq_left hle, encStringB64Length] at hroom
  rw [EncText.varsize]
  omega

/-- **The value that `enc_text_in` makes of the text has the four bytes behind the old one at its
end.** -/
theorem encTextIn_encTextOut (hv : v.Matched) (h : encTextOut v behind = some text) :
    encTextIn text = some ⟨v.data ++ behind.take varhdrsz⟩ := by
  obtain ⟨hle, henc, hsize⟩ := encTextOut_eq_some h
  simp only [EncText.Matched, EncText.varsize, varhdrsz] at hv hsize
  have hlen : (v.data ++ behind.take varhdrsz).length = v.data.length + 4 := by
    rw [List.length_append, List.length_take, Nat.min_eq_left hle, varhdrsz]
  -- The `len` field lies in the value itself.
  have hfield : ∀ ws, leNat (((v.data ++ behind.take varhdrsz ++ ws).drop 4).take 4) = v.len := by
    intro ws
    rw [List.append_assoc, List.drop_append_of_le_length (by omega), List.take_append_of_le_length,
      EncText.len]
    rw [List.length_drop]
    omega
  have hnew : (v.len + 12) % 2 ^ 32 = (v.data ++ behind.take varhdrsz).length := by
    rw [hlen, Nat.mod_eq_of_lt (by omega)]
    omega
  rw [encTextIn, fixedIn_eq henc (by rw [hlen, encStringB64Length]; omega)]
  simp only [Option.bind_eq_bind, Option.bind_some, hfield, hnew]
  rw [if_pos (by rw [hlen, encStringB64Length]; omega), List.take_left]

/-- Two memories that differ behind the value give different texts. -/
theorem encTextOut_inj {behind' : List UInt8} (h : encTextOut v behind = some text)
    (h' : encTextOut v behind' = some text) : behind.take varhdrsz = behind'.take varhdrsz := by
  have hdec := (encTextOut_eq_some h).2.1.fromBase64
  rw [(encTextOut_eq_some h').2.1.fromBase64, Option.some_inj] at hdec
  exact (List.append_cancel_left hdec).symm

/-- **No `enc_text` has a text form of its own, and none comes back from its text form.** -/
theorem encText_unfaithful (v : EncText) (hv : v.Matched) :
    ¬ Faithful v ∧
      (¬ ∃ text, ∀ behind, varhdrsz ≤ behind.length → encTextOut v behind = some text) ∧
      ∀ behind text, encTextOut v behind = some text →
        ∃ v', encTextIn text = some v' ∧ v'.varsize = v.varsize + varhdrsz := by
  have hown : ¬ ∃ text, ∀ behind, varhdrsz ≤ behind.length → encTextOut v behind = some text := by
    rintro ⟨text, h⟩
    have heq := encTextOut_inj (h [0, 0, 0, 0] le_rfl) (h [0, 0, 0, 1] le_rfl)
    exact absurd heq (by decide)
  refine ⟨fun ⟨text, _, h⟩ => hown ⟨text, h⟩, hown, fun behind text h => ?_⟩
  refine ⟨_, encTextIn_encTextOut hv h, ?_⟩
  have hle := (encTextOut_eq_some h).1
  simp only [EncText.varsize, List.length_append, List.length_take, Nat.min_eq_left hle]
  omega

end EncText

/-- A value of two bytes of plaintext: no order tag, 30 bytes of ciphertext. -/
def twoBytes : EncText := ⟨[0, 0, 0, 0, 30, 0, 0, 0] ++ List.replicate 30 0x5a⟩

theorem twoBytes_unfaithful : twoBytes.Matched ∧ ¬ Faithful twoBytes :=
  have hv : twoBytes.Matched := by decide
  ⟨hv, (encText_unfaithful twoBytes hv).1⟩

/-- Next to other memory the value is printed differently, and it comes back four bytes longer. -/
theorem twoBytes_leaks : twoBytes.Matched ∧
    encTextOut twoBytes [0, 0, 0, 0] ≠ encTextOut twoBytes [1, 2, 3, 4] ∧
    ((encTextOut twoBytes [1, 2, 3, 4]).bind encTextIn).map EncText.data =
      some (twoBytes.data ++ [1, 2, 3, 4]) := by
  decide +kernel

end Udf

end HEDB
