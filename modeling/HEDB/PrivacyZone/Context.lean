import HEDB.PrivacyZone.Crypto

/-!
# Cipher contexts

The context that `crypto.cpp` decrypts with is thread-local: every thread has one of its own, zero
at first, and only `gcm_init` in that thread gives it the key. `fork_ops_process` calls `gcm_init`;
the decryption threads that the process starts and the anonymizer never do.

On a context with the key `decrypt_bytes` is that of `Gcm`. Of a context without the key it is only
assumed, where a result needs it, that it does not produce plaintexts (`Mbedtls.Withholds`).
-/

namespace HEDB

/-- The thread-local `aes`. -/
inductive Context
  /-- As static storage starts. -/
  | zeroed
  /-- After `gcm_init`. -/
  | keyed
  deriving DecidableEq, Repr

/-- AES-GCM on the contexts of all threads. -/
structure Mbedtls extends Gcm where
  /-- `mbedtls_gcm_auth_decrypt` on a context that has no key: the return code and what it leaves in
  the output, from the IV, the tag, the data and what the output held. -/
  unkeyed : List UInt8 → List UInt8 → List UInt8 → List UInt8 → ℤ × List UInt8
  length_unkeyed : ∀ iv tag data out, out.length = data.length →
    (unkeyed iv tag data out).2.length = data.length

namespace Mbedtls

variable (x : Mbedtls)

/-- `gcm_decrypt`: the return code and the bytes of `out`, from the input and what `out` held. -/
def gcmDecryptIn (ctx : Context) (input out : List UInt8) : ℤ × List UInt8 :=
  match ctx with
  | .keyed => x.gcmDecrypt input
  | .zeroed => x.unkeyed (input.take ivSize) ((input.drop ivSize).take tagSize)
      (input.drop (ivSize + tagSize)) out

/-- `decrypt_bytes`: the return code and the bytes of the destination, from the source and what the
destination held. -/
def decryptBytesIn (ctx : Context) (src dst : List UInt8) : ℤ × List UInt8 :=
  if src.length ≤ ivSize + tagSize then (-1, dst) else x.gcmDecryptIn ctx src dst

/-- Without the key there is no plaintext: for every ciphertext of some data there is an output
buffer that does not hold the data afterwards. -/
def Withholds : Prop :=
  ∀ c p, x.Decrypts c p → p ≠ [] →
    ∃ out, out.length = p.length ∧ (x.gcmDecryptIn .zeroed c out).2 ≠ p

variable {x} {src dst p : List UInt8}

theorem decryptBytesIn_of_le (ctx : Context) (h : src.length ≤ ivSize + tagSize) :
    x.decryptBytesIn ctx src dst = (-1, dst) := if_pos h

theorem decryptBytesIn_of_lt (ctx : Context) (h : ivSize + tagSize < src.length) :
    x.decryptBytesIn ctx src dst = x.gcmDecryptIn ctx src dst := if_neg (not_le.2 h)

theorem length_decryptBytesIn (ctx : Context) (h : dst.length = src.length - (ivSize + tagSize)) :
    (x.decryptBytesIn ctx src dst).2.length = dst.length := by
  have hdata : (src.drop (ivSize + tagSize)).length = dst.length := by rw [List.length_drop, h]
  unfold decryptBytesIn gcmDecryptIn
  split_ifs
  · rfl
  · cases ctx with
    | zeroed => rw [x.length_unkeyed _ _ _ _ hdata.symm, hdata]
    | keyed => rw [Gcm.gcmDecrypt, x.length_output, hdata]

/-- With the key, an authentic ciphertext is decrypted. -/
theorem decryptBytesIn_keyed (h : x.Decrypts src p) (hdst : dst.length = p.length) :
    (x.decryptBytesIn .keyed src dst).2 = p := by
  have hlen := h.length_eq
  rcases Nat.lt_or_ge (ivSize + tagSize) src.length with hlt | hle
  · rw [decryptBytesIn_of_lt _ hlt]
    exact congrArg Prod.snd h
  · have hp : p = [] := List.eq_nil_of_length_eq_zero (by omega)
    rw [decryptBytesIn_of_le _ hle, hp]
    exact List.eq_nil_of_length_eq_zero (by rw [hdst, hp]; rfl)

/-- Without the key, a ciphertext of some data leaves something else in some destination. -/
theorem Withholds.exists_ne (hx : x.Withholds) (h : x.Decrypts src p) (hp : p ≠ []) :
    ∃ dst, dst.length = p.length ∧ (x.decryptBytesIn .zeroed src dst).2 ≠ p := by
  have hlen := h.length_eq
  have hpos := List.length_pos_of_ne_nil hp
  obtain ⟨dst, hdst, hne⟩ := hx src p h hp
  refine ⟨dst, hdst, ?_⟩
  rwa [decryptBytesIn_of_lt _ (by omega)]

end Mbedtls

/-! ## A library for evaluation -/

/-- The cipher that hides nothing, with contexts that fail without the key and leave the output as
it is. -/
def Mbedtls.untouched : Mbedtls where
  toGcm := .identity
  unkeyed _ _ _ out := (-0x6100, out)
  length_unkeyed _ _ _ _ h := h

theorem Mbedtls.withholds_untouched : Mbedtls.untouched.Withholds := by
  intro c p _ hp
  obtain ⟨b, bs, rfl⟩ := List.exists_cons_of_ne_nil hp
  refine ⟨(b + 1) :: bs, rfl, fun h => ?_⟩
  have hb : b + 1 = b := (List.cons.inj h).1
  simp at hb

end HEDB
