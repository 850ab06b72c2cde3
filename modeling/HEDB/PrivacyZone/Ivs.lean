import HEDB.PrivacyZone.Crypto

/-!
# Initialisation vectors

`increment` is the successor modulo `2 ^ 96` of the IV as a big-endian number
(`ivNumber_increment`), so the IVs of a thread count up from the one that `gcm_init` has drawn
(`ivNumber_iterate`). They are all different in a run of fewer than `2 ^ 96` encryptions
(`nodup_ivs`).
-/

namespace HEDB

/-! ## The IV as a number -/

/-- The big-endian number in an IV. -/
def ivNumber {n : ℕ} (iv : Bytes n) : ℕ := leNat iv.bytes.reverse

/-- The carry runs through the bytes `0xFF` from the last one on. -/
theorem leNat_incrementRev (bs : List UInt8) :
    leNat (incrementRev bs) = (leNat bs + 1) % 256 ^ bs.length := by
  induction bs with
  | nil => rfl
  | cons b bs ih =>
    rw [incrementRev, List.length_cons, pow_succ']
    split_ifs with hb
    · calc leNat (0x00 :: incrementRev bs) = 256 * ((leNat bs + 1) % 256 ^ bs.length) := by
            rw [leNat, ih]
            exact Nat.zero_add _
        _ = 256 * (leNat bs + 1) % (256 * 256 ^ bs.length) := (Nat.mul_mod_mul_left ..).symm
        _ = (leNat (b :: bs) + 1) % (256 * 256 ^ bs.length) := by
            rw [leNat, hb, show (0xFF : UInt8).toNat = 255 from rfl]
            congr 1
            omega
    · have hb' : b.toNat + 1 < 256 := by
        have := b.toNat_lt
        have : b.toNat ≠ 255 := fun h => hb (UInt8.toNat_inj.1 h)
        omega
      have hnext : (b + 1).toNat = b.toNat + 1 := by
        rw [UInt8.toNat_add]
        exact Nat.mod_eq_of_lt hb'
      have hlt := leNat_lt bs
      rw [leNat, leNat, hnext, Nat.mod_eq_of_lt (by omega)]
      omega

/-- **`increment` is the successor**, and the last IV is followed by zero. -/
theorem ivNumber_increment {n : ℕ} (iv : Bytes n) :
    ivNumber (increment iv) = (ivNumber iv + 1) % 256 ^ n := by
  rw [ivNumber, increment, List.reverse_reverse, leNat_incrementRev, List.length_reverse, iv.size,
    ivNumber]

theorem ivNumber_lt {n : ℕ} (iv : Bytes n) : ivNumber iv < 256 ^ n := by
  have h := leNat_lt iv.bytes.reverse
  rwa [List.length_reverse, iv.size] at h

/-- The IVs of a thread count up. -/
theorem ivNumber_iterate {n : ℕ} (iv : Bytes n) (k : ℕ) :
    ivNumber (increment^[k] iv) = (ivNumber iv + k) % 256 ^ n := by
  induction k with
  | zero => exact (Nat.mod_eq_of_lt (ivNumber_lt iv)).symm
  | succ k ih =>
    rw [Function.iterate_succ_apply', ivNumber_increment, ih, Nat.mod_add_mod, Nat.add_assoc]

/-- Fewer steps than there are IVs do not lead back to an IV. -/
theorem index_eq_of_ivNumber_eq {n i j : ℕ} (iv : Bytes n) (hi : i < 256 ^ n) (hj : j < 256 ^ n)
    (h : ivNumber (increment^[i] iv) = ivNumber (increment^[j] iv)) : i = j := by
  rw [ivNumber_iterate, ivNumber_iterate] at h
  exact (Nat.ModEq.add_left_cancel' _ h).eq_of_lt_of_lt hi hj

/-! ## Runs of a thread -/

namespace Gcm

variable (g : Gcm)

/-- The ciphertexts that a thread produces from the inputs. -/
def gcmEncryptAll : Bytes ivSize → List (List UInt8) → List (List UInt8)
  | _, [] => []
  | iv, input :: inputs => g.gcmEncrypt (increment iv) input :: gcmEncryptAll (increment iv) inputs

/-- The IV at the head of a ciphertext. -/
def ivOf (out : List UInt8) : List UInt8 := out.take ivSize

theorem ivOf_gcmEncrypt (iv : Bytes ivSize) (input : List UInt8) :
    ivOf (g.gcmEncrypt iv input) = iv.bytes := by
  rw [ivOf, gcmEncrypt, List.take_left' iv.size]

/-- The IVs of a run are those after the first. -/
theorem map_ivOf_gcmEncryptAll (iv : Bytes ivSize) (inputs : List (List UInt8)) :
    (g.gcmEncryptAll iv inputs).map ivOf =
      (List.range inputs.length).map fun i => (increment^[i + 1] iv).bytes := by
  induction inputs generalizing iv with
  | nil => rfl
  | cons input inputs ih =>
    rw [gcmEncryptAll, List.map_cons, ivOf_gcmEncrypt, ih, List.length_cons, List.range_succ_eq_map,
      List.map_cons, List.map_map]
    rfl

/-- **No IV is used twice** in a run of fewer than `2 ^ 96` encryptions, since each is the successor
of the one before. -/
theorem nodup_ivs (iv : Bytes ivSize) (inputs : List (List UInt8)) (h : inputs.length < 2 ^ 96) :
    ((g.gcmEncryptAll iv inputs).map ivOf).Nodup ∧
      ∀ iv : Bytes ivSize, ivNumber (increment iv) = (ivNumber iv + 1) % 2 ^ 96 := by
  have hsize : 256 ^ ivSize = 2 ^ 96 := by norm_num [ivSize]
  refine ⟨?_, fun iv => hsize ▸ ivNumber_increment iv⟩
  rw [map_ivOf_gcmEncryptAll]
  refine List.Nodup.map_on (fun i hi j hj hij => ?_) List.nodup_range
  have hi := List.mem_range.1 hi
  have hj := List.mem_range.1 hj
  have hnum : ivNumber (increment^[i] (increment iv)) = ivNumber (increment^[j] (increment iv)) :=
    congrArg (fun bs : List UInt8 => leNat bs.reverse) hij
  exact index_eq_of_ivNumber_eq _ (by omega) (by omega) hnum

/-- Three encryptions from the last IV on. -/
theorem nodup_ivs_three :
    [[], [1], [2, 3]].length < 2 ^ 96 ∧
    ((Gcm.identity.gcmEncryptAll ⟨List.replicate 12 0xFF, rfl⟩ [[], [1], [2, 3]]).map ivOf).Nodup :=
  ⟨by decide, (Gcm.identity.nodup_ivs ⟨List.replicate 12 0xFF, rfl⟩ [[], [1], [2, 3]]
    (by decide)).1⟩

end Gcm

end HEDB
