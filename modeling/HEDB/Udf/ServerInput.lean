import HEDB.Udf.TextForm
import HEDB.Utils.Lenient

/-!
# Which texts the input functions read as ciphertexts

In server mode an input function decodes its text into a buffer of zeros. It checks neither how many
bytes the text denotes nor, for an `enc_text`, the `len` field that it finds among them. Only a
`len` that the server cannot allocate is an error.

`readsInput_iff` says which texts are read as they should be: those of exactly as many bytes as a
ciphertext has, and for `enc_text` none but those that are refused. An `enc_text` ends with four
bytes that are not from the text, even where the text is a ciphertext with its `len` field.
-/

namespace HEDB

namespace Udf

open Base64

/-- `MaxAllocSize`: `palloc0` raises an error for a larger size. -/
def maxAllocSize : ℕ := 0x3fffffff

/-- `enc_text_in` in server mode, with the error of its second `palloc0`. -/
def encTextInput (pIn : List UInt8) : Option (Except Unit EncText) := do
  let estr ← fixedIn encStringB64Length pIn
  let newSz := (leNat ((estr.bytes.drop 4).take 4) + 12) % 2 ^ 32
  if maxAllocSize < newSz + varhdrsz then some (.error ())
  else if newSz ≤ encStringB64Length then some (.ok ⟨estr.bytes.take newSz⟩) else none

theorem encTextIn_eq_some_iff {text : List UInt8} {v : EncText} :
    encTextIn text = some v ↔ encTextInput text = some (.ok v) := by
  rw [encTextIn, encTextInput]
  cases fixedIn encStringB64Length text with
  | none => exact iff_of_false (by simp) (by simp)
  | some estr =>
    simp only [Option.bind_eq_bind, Option.bind_some]
    generalize (leNat ((estr.bytes.drop 4).take 4) + 12) % 2 ^ 32 = newSz
    by_cases hsmall : newSz ≤ encStringB64Length
    · have hmax : ¬ maxAllocSize < newSz + varhdrsz := by
        simp only [maxAllocSize, varhdrsz, encStringB64Length] at hsmall ⊢
        omega
      rw [if_pos hsmall, if_neg hmax, if_pos hsmall]
      simp
    · rw [if_neg hsmall, if_neg hsmall]
      split_ifs <;> simp

/-! ## What is to be read -/

/-- **An input function of fixed width reads the text**: it stays inside its buffer, and all bytes
of the value are from the text. -/
def ReadsFixed {size : ℕ} (input : List UInt8 → Option (Bytes size)) (text : List UInt8) : Prop :=
  ∃ v, input text = some v ∧ v.bytes <+: denoted text

/-- The value holds a ciphertext with its `len` field: all its bytes are from the text, and the text
has the bytes of the two fields and of the ciphertext. -/
structure ReadAs (text : List UInt8) (v : EncText) : Prop where
  inside : 8 + v.len ≤ v.data.length
  fromText : v.data <+: denoted text
  minLen : ivSize + tagSize ≤ v.len
  maxLen : v.len ≤ encStringLength
  exact : 8 + v.len = (denoted text).length

/-- **`enc_text_in` raises an error or reads a ciphertext.** -/
def ReadsText (text : List UInt8) : Prop :=
  encTextInput text = some (.error ()) ∨ ∃ v, encTextInput text = some (.ok v) ∧ ReadAs text v

/-- The `len` field of the bytes that the text denotes. Missing bytes are zero. -/
def denotedLen (text : List UInt8) : ℕ := leNat (((denoted text).drop 4).take 4)

/-! ## Fixed width -/

section Fixed

variable {size : ℕ} {text : List UInt8}

theorem fixedIn_eq_dite (size : ℕ) (text : List UInt8) :
    fixedIn size text = if h : (denoted text).length ≤ size then
      some ⟨denoted text ++ List.replicate (size - (denoted text).length) 0, by simp [h]⟩
    else none := by
  rw [fixedIn, fromBase64_eq_denoted]
  rfl

theorem readsFixed_iff : ReadsFixed (fixedIn size) text ↔ (denoted text).length = size := by
  constructor
  · rintro ⟨v, hv, hfrom⟩
    rw [fixedIn_eq_dite] at hv
    split_ifs at hv with hle
    exact le_antisymm hle (v.size ▸ hfrom.length_le)
  · intro h
    refine ⟨⟨denoted text, h⟩, ?_, List.prefix_refl _⟩
    rw [fixedIn_eq_dite, dif_pos h.le]
    simp [h]

end Fixed

/-! ## `enc_text` -/

section EncText

variable {text : List UInt8} {v : EncText}

theorem leNat_replicate_zero (n : ℕ) : leNat (List.replicate n 0) = 0 := by
  induction n with
  | zero => rfl
  | succ n ih => rw [List.replicate_succ, leNat, ih]; rfl

theorem leNat_append_zeros (bs : List UInt8) (n : ℕ) :
    leNat (bs ++ List.replicate n 0) = leNat bs := by
  induction bs with
  | nil => exact leNat_replicate_zero n
  | cons b bs ih => rw [List.cons_append, leNat, ih, leNat]

/-- The buffer of `enc_text_in` after the decoding. -/
def estr (text : List UInt8) : List UInt8 :=
  denoted text ++ List.replicate (encStringB64Length - (denoted text).length) 0

theorem length_estr (h : (denoted text).length ≤ encStringB64Length) :
    (estr text).length = encStringB64Length := by
  rw [estr, List.length_append, List.length_replicate]
  omega

theorem leNat_estr (text : List UInt8) : leNat (((estr text).drop 4).take 4) = denotedLen text := by
  rw [estr, List.drop_append, List.take_append, List.drop_replicate, List.take_replicate,
    leNat_append_zeros, denotedLen]

theorem len_take_estr (text : List UInt8) {n : ℕ} (hn : 8 ≤ n) :
    EncText.len ⟨(estr text).take n⟩ = denotedLen text := by
  rw [EncText.len, List.drop_take, List.take_take, Nat.min_eq_left (by omega), leNat_estr]

/-- The size of the value that `enc_text_in` allocates, without its header. -/
def newSize (text : List UInt8) : ℕ := (denotedLen text + 12) % 2 ^ 32

theorem encTextInput_eq (text : List UInt8) :
    encTextInput text =
      if (denoted text).length ≤ encStringB64Length then
        if maxAllocSize < newSize text + varhdrsz then some (.error ())
        else if newSize text ≤ encStringB64Length then some (.ok ⟨(estr text).take (newSize text)⟩)
        else none
      else none := by
  by_cases hle : (denoted text).length ≤ encStringB64Length
  · have hfixed : fixedIn encStringB64Length text = some ⟨estr text, length_estr hle⟩ := by
      rw [fixedIn_eq_dite, dif_pos hle]
      rfl
    rw [encTextInput, hfixed, if_pos hle]
    simp only [Option.bind_eq_bind, Option.bind_some, leNat_estr]
    rfl
  · rw [encTextInput, fixedIn_eq_dite, dif_neg hle, if_neg hle]
    rfl

theorem eq_of_encTextInput (hv : encTextInput text = some (.ok v)) :
    v = ⟨(estr text).take (newSize text)⟩ := by
  rw [encTextInput_eq] at hv
  split_ifs at hv
  · cases hv
  · cases hv
    rfl

/-- The bytes that the text denotes are a ciphertext with its `len` field. -/
structure Delimited (text : List UInt8) : Prop where
  minLen : ivSize + tagSize ≤ denotedLen text
  maxLen : denotedLen text ≤ encStringLength
  exact : (denoted text).length = 8 + denotedLen text

theorem Delimited.newSize_eq (h : Delimited text) : newSize text = denotedLen text + 12 := by
  have hmax := h.maxLen
  simp only [encStringLength, stringLength, ivSize, tagSize] at hmax
  exact Nat.mod_eq_of_lt (by omega)

/-- Such bytes become a value with four zeros behind them. -/
theorem Delimited.encTextInput_eq (h : Delimited text) :
    encTextInput text = some (.ok ⟨denoted text ++ [0, 0, 0, 0]⟩) := by
  have hmax := h.maxLen
  have hlen := h.exact
  simp only [encStringLength, stringLength, ivSize, tagSize] at hmax
  have hzeros : (estr text).take (denotedLen text + 12) = denoted text ++ [0, 0, 0, 0] := by
    rw [estr, List.take_append, List.take_of_length_le (by omega), List.take_replicate, hlen,
      Nat.min_eq_left (by rw [encStringB64Length]; omega),
      show denotedLen text + 12 - (8 + denotedLen text) = 4 by omega]
    rfl
  rw [Udf.encTextInput_eq, h.newSize_eq, if_pos (by rw [hlen, encStringB64Length]; omega),
    if_neg (by simp only [maxAllocSize, varhdrsz]; omega),
    if_pos (by rw [encStringB64Length]; omega), hzeros]

theorem ReadAs.delimited (h : ReadAs text v) (hv : encTextInput text = some (.ok v)) :
    Delimited text := by
  have hdata := eq_of_encTextInput hv
  have hinside := h.inside
  have hfield : v.len = denotedLen text := by
    rw [hdata]
    refine len_take_estr text ?_
    rw [hdata, List.length_take] at hinside
    omega
  exact ⟨hfield ▸ h.minLen, hfield ▸ h.maxLen, hfield ▸ h.exact.symm⟩

/-- **No `enc_text` comes from its text alone.** -/
theorem not_readAs (hv : encTextInput text = some (.ok v)) : ¬ ReadAs text v := by
  intro h
  have hd := h.delimited hv
  rw [hd.encTextInput_eq] at hv
  cases hv
  have hlen := h.fromText.length_le
  rw [List.length_append, List.length_cons] at hlen
  omega

theorem readsText_iff : ReadsText text ↔
    (denoted text).length ≤ encStringB64Length ∧ maxAllocSize < newSize text + varhdrsz := by
  constructor
  · rintro (herr | ⟨v, hv, hread⟩)
    · rw [encTextInput_eq] at herr
      split_ifs at herr with hle hmax
      · exact ⟨hle, hmax⟩
      · cases herr
    · exact absurd hread (not_readAs hv)
  · rintro ⟨hle, hmax⟩
    refine .inl ?_
    rw [encTextInput_eq, if_pos hle, if_pos hmax]

end EncText

/-! ## All input functions -/

/-- **Which texts the input functions read as ciphertexts**: those of the right length, and for
`enc_text` only those that are refused. A ciphertext with its `len` field gets four zeros. -/
theorem readsInput_iff (text : List UInt8) :
    (ReadsFixed encInt4In text ↔ (denoted text).length = encInt32Length) ∧
    (ReadsFixed encFloat4In text ↔ (denoted text).length = encFloat4Length) ∧
    (ReadsFixed encTimestampIn text ↔ (denoted text).length = encTimestampLength) ∧
    (ReadsText text ↔
      (denoted text).length ≤ encStringB64Length ∧ maxAllocSize < newSize text + varhdrsz) ∧
    (Delimited text → encTextInput text = some (.ok ⟨denoted text ++ [0, 0, 0, 0]⟩)) :=
  ⟨readsFixed_iff, readsFixed_iff, readsFixed_iff, readsText_iff, Delimited.encTextInput_eq⟩

/-- The empty text is a ciphertext of zeros for `enc_int4_in`, and for `enc_text_in` one of length
zero. A text of 48 digits overruns the buffer of `enc_int4_in`; one with a `len` of 1024 makes
`enc_text_in` copy from behind its own. -/
theorem input_unchecked :
    (encInt4In [] = some ⟨List.replicate 32 0, rfl⟩ ∧ ¬ ReadsFixed encInt4In []) ∧
    encInt4In (List.replicate 48 0x41) = none ∧
    (encTextInput [] = some (.ok ⟨List.replicate 12 0⟩) ∧ ¬ ReadsText []) ∧
    ∃ text, denoted text = [0, 0, 0, 0, 0, 4, 0, 0] ∧ encTextInput text = none := by
  refine ⟨⟨rfl, fun h => ?_⟩, ?_, ⟨rfl, fun h => ?_⟩, ?_⟩
  · exact absurd (readsFixed_iff.mp h) (by decide)
  · rw [encInt4In, fixedIn_eq_dite]
    exact dif_neg (by decide +kernel)
  · exact absurd (readsText_iff.mp h).2 (by decide)
  · obtain ⟨text, htext⟩ := exists_encodes [0, 0, 0, 0, 0, 4, 0, 0]
    have hbytes : denoted text = [0, 0, 0, 0, 0, 4, 0, 0] :=
      Option.some_injective _ ((fromBase64_eq_denoted text).symm.trans htext.fromBase64)
    refine ⟨text, hbytes, ?_⟩
    rw [encTextInput_eq, newSize, denotedLen, hbytes]
    rfl

end Udf

end HEDB
