import HEDB.Types.Request

/-!
# Encryption in the privacy zone

`crypto.cpp` and the two wrappers of `ops_server.cpp`. A ciphertext is the IV, the tag and the
encrypted data, one after the other. The process counts its IV up before every encryption and sends
it along, so the ciphertexts of a plaintext differ but all decrypt to it
(`Gcm.decrypts_encryptBytes`).

mbedtls is the structure `Gcm`: all that is known of it is that decryption inverts encryption.
-/

namespace HEDB

/-- AES-GCM under the key of the privacy zone. -/
structure Gcm where
  /-- `mbedtls_gcm_crypt_and_tag`: the tag and the encrypted data, from the IV and the input. It
  returns 0 on inputs of the lengths that occur. -/
  cryptAndTag : List UInt8 → List UInt8 → List UInt8 × List UInt8
  /-- `mbedtls_gcm_auth_decrypt`: the return code and what it leaves in the output, from the IV, the
  tag and the encrypted data. -/
  authDecrypt : List UInt8 → List UInt8 → List UInt8 → ℤ × List UInt8
  length_tag : ∀ iv input, (cryptAndTag iv input).1.length = tagSize
  length_data : ∀ iv input, (cryptAndTag iv input).2.length = input.length
  length_output : ∀ iv tag data, (authDecrypt iv tag data).2.length = data.length
  inverts : ∀ iv input,
    authDecrypt iv (cryptAndTag iv input).1 (cryptAndTag iv input).2 = (0, input)

/-- `increment`, from the last byte of the IV on. -/
def incrementRev : List UInt8 → List UInt8
  | [] => []
  | b :: bs => if b = 0xFF then 0x00 :: incrementRev bs else (b + 1) :: bs

theorem length_incrementRev (bs : List UInt8) : (incrementRev bs).length = bs.length := by
  induction bs with
  | nil => rfl
  | cons b bs ih =>
    unfold incrementRev
    split_ifs
    · rw [List.length_cons, ih, List.length_cons]
    · rfl

/-- `increment`. -/
def increment {n : ℕ} (iv : Bytes n) : Bytes n where
  bytes := (incrementRev iv.bytes.reverse).reverse
  size := by rw [List.length_reverse, length_incrementRev, List.length_reverse, iv.size]

namespace Gcm

variable (g : Gcm)

/-- `gcm_encrypt`, after it has counted up the IV: the bytes of `out`. -/
def gcmEncrypt (iv : Bytes ivSize) (input : List UInt8) : List UInt8 :=
  iv.bytes ++ ((g.cryptAndTag iv.bytes input).1 ++ (g.cryptAndTag iv.bytes input).2)

/-- `gcm_decrypt`: the return code and the bytes of `out`. -/
def gcmDecrypt (input : List UInt8) : ℤ × List UInt8 :=
  g.authDecrypt (input.take ivSize) ((input.drop ivSize).take tagSize)
    (input.drop (ivSize + tagSize))

/-- `encrypt_bytes`: the new IV of the process and the bytes of the destination. The assertion on
the length of the destination stops the process. -/
def encryptBytes (iv : Bytes ivSize) (src : List UInt8) (expDstLen : ℕ) :
    Option (Bytes ivSize × List UInt8) :=
  if src.length + ivSize + tagSize = expDstLen then
    some (increment iv, g.gcmEncrypt (increment iv) src)
  else none

/-- `decrypt_bytes`: the return code and the bytes that it writes to the destination, if any. -/
def decryptBytes (src : List UInt8) : ℤ × Option (List UInt8) :=
  if src.length ≤ ivSize + tagSize then (-1, none)
  else ((g.gcmDecrypt src).1, some (g.gcmDecrypt src).2)

/-- `decrypt_bytes_para`, without parallel threads. It returns 0 whatever `decrypt_bytes` returned;
what is left is the bytes that it wrote. -/
def decryptBytesPara (src : List UInt8) : Option (List UInt8) := (g.decryptBytes src).2

/-- The ciphertext decrypts to the plaintext. -/
def Decrypts (c p : List UInt8) : Prop := g.gcmDecrypt c = (0, p)

/-- The plaintext of a ciphertext. -/
def plainOf (c : List UInt8) : Option (List UInt8) :=
  if (g.gcmDecrypt c).1 = 0 then some (g.gcmDecrypt c).2 else none

variable {g}

theorem plainOf_eq_some {c p : List UInt8} : g.plainOf c = some p ↔ g.Decrypts c p := by
  unfold plainOf Decrypts
  rw [Prod.ext_iff]
  split_ifs with h <;> simp [h]

/-- A ciphertext has one plaintext. -/
theorem Decrypts.unique {c p q : List UInt8} (hp : g.Decrypts c p) (hq : g.Decrypts c q) : p = q :=
  congrArg Prod.snd (hp.symm.trans hq)

theorem Decrypts.length_eq {c p : List UInt8} (h : g.Decrypts c p) :
    p.length = c.length - (ivSize + tagSize) := by
  have hl := g.length_output (c.take ivSize) ((c.drop ivSize).take tagSize)
    (c.drop (ivSize + tagSize))
  unfold Decrypts gcmDecrypt at h
  rw [h, List.length_drop] at hl
  exact hl

@[simp] theorem length_gcmEncrypt (iv : Bytes ivSize) (input : List UInt8) :
    (g.gcmEncrypt iv input).length = input.length + ivSize + tagSize := by
  simp only [gcmEncrypt, List.length_append, iv.size, g.length_tag, g.length_data]
  omega

/-- **What has been encrypted decrypts**, whatever the IV was. -/
theorem decrypts_gcmEncrypt (iv : Bytes ivSize) (input : List UInt8) :
    g.Decrypts (g.gcmEncrypt iv input) input := by
  have htag := g.length_tag iv.bytes input
  have hdrop : (g.gcmEncrypt iv input).drop ivSize =
      (g.cryptAndTag iv.bytes input).1 ++ (g.cryptAndTag iv.bytes input).2 := by
    rw [gcmEncrypt, List.drop_left' iv.size]
  unfold Decrypts gcmDecrypt
  rw [← List.drop_drop, hdrop, List.take_left' htag, List.drop_left' htag, gcmEncrypt,
    List.take_left' iv.size, g.inverts]

/-- Every plaintext has a ciphertext. -/
theorem exists_cipher (g : Gcm) {w : ℕ} {input : List UInt8}
    (hw : input.length + ivSize + tagSize = w) : ∃ c : Bytes w, g.Decrypts c.bytes input :=
  ⟨⟨g.gcmEncrypt ⟨List.replicate ivSize 0, rfl⟩ input, by rw [length_gcmEncrypt, hw]⟩,
    decrypts_gcmEncrypt _ _⟩

/-- `encrypt_bytes` into a destination of the right length. -/
theorem encryptBytes_eq {iv : Bytes ivSize} {src : List UInt8} {n : ℕ}
    (h : src.length + ivSize + tagSize = n) :
    g.encryptBytes iv src n = some (increment iv, g.gcmEncrypt (increment iv) src) := if_pos h

/-- `decrypt_bytes` on a ciphertext of some data. -/
theorem decryptBytes_of_decrypts {c p : List UInt8} (h : g.Decrypts c p) (hp : p ≠ []) :
    g.decryptBytes c = (0, some p) := by
  have hpos : 0 < p.length := List.length_pos_of_ne_nil hp
  have hl := h.length_eq
  rw [decryptBytes, if_neg (by omega), h]

/-- A ciphertext of no data is refused. -/
theorem decryptBytes_of_le {c : List UInt8} (h : c.length ≤ ivSize + tagSize) :
    g.decryptBytes c = (-1, none) := if_pos h

end Gcm

/-! ## A cipher for evaluation -/

/-- A cipher that hides nothing: the tag is zero and the data are the input. -/
def Gcm.identity : Gcm where
  cryptAndTag _ input := (List.replicate tagSize 0, input)
  authDecrypt _ tag data := (if tag = List.replicate tagSize 0 then 0 else -0x12, data)
  length_tag _ _ := List.length_replicate
  length_data _ _ := rfl
  length_output _ _ _ := rfl
  inverts _ _ := by simp

end HEDB
