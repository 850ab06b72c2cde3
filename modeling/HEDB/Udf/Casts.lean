import HEDB.Udf.FloatInput
import HEDB.Udf.FloatOrder

/-!
# Casts of integers

The casts of `int4` and `int8` to `enc_int4` and `enc_float4` take their argument into a variable of
C. For `int8` the variable is an `int` in the first cast and, since the type `int8` of C has eight
bits, a `char` in the second. The casts to `enc_float4` then read the decimal text of the variable
with `pg_float4_in`. No cast looks at the error of the encryption.

A column of numbers is preserved (`Preserves`) when each cast raises an error or encrypts the
number, and when the comparison of the results is that of the numbers that the type represents. This
is so for all columns of `int4`, for the columns of `int8` within the range of `int` and within that
of `char` (`casts_preserve_iff`).
-/

namespace HEDB

namespace Udf

open Binary32 Printf

/-! ## The casts -/

section Functions

variable (g : Gcm) (F : FloatOps)

/-- `enc_int_encrypt` and `enc_float_encrypt`, whose error is dropped. -/
def encryptUnchecked (f : Fam) (plaintext : Bytes f.plainSize) : Sends (Bytes f.size) :=
  ExceptT.mk fun c => do
    let reply ← sendRequest g F (.enc f plaintext) c.process
    if h : reply.result.length = f.size then
      some (.ok ⟨reply.result, h⟩, ⟨reply.process, c.sent ++ [.enc f plaintext]⟩)
    else none

/-- A cast, which may raise an error before it sends its request. -/
abbrev Cast (f : Fam) : Type := ℤ → Except InputError (Sends (Bytes f.size))

def encryptInt (n : ℤ) : Sends (Bytes Fam.int.size) :=
  encryptUnchecked g F .int ⟨intBytes n, length_intBytes n⟩

def encryptFloat (x : UInt32) : Sends (Bytes Fam.float.size) :=
  encryptUnchecked g F .float ⟨floatBytes x, length_floatBytes x⟩

/-- `int4_to_enc_int4`. -/
def int4ToEncInt4 : Cast .int := fun n => .ok (encryptInt g F n)

/-- `int8_to_enc_int4`. The argument is taken into an `int`. -/
def int8ToEncInt4 : Cast .int := fun n => .ok (encryptInt g F (n.bmod (2 ^ 32)))

variable {F} (R : FloatReader F)

/-- `int4_to_enc_float4`. -/
def int4ToEncFloat4 : Cast .float := fun n => do
  let src ← pgFloat4In R (printD n)
  return encryptFloat g F src

/-- `int8_to_enc_float4`. The argument is taken into a `char`. -/
def int8ToEncFloat4 : Cast .float := fun n => do
  let src ← pgFloat4In R (printD (n.bmod (2 ^ 8)))
  return encryptFloat g F src

end Functions

/-! ## Preserving a number -/

/-- The code returns a ciphertext of the plaintext, whatever the state of the privacy zone. -/
def Yields (g : Gcm) {w : ℕ} (m : Sends (Bytes w)) (p : List UInt8) : Prop :=
  ∀ c, ∃ v c', m c = some (.ok v, c') ∧ g.Decrypts v.bytes p

/-- **The numbers of a column survive a cast**: each is refused or encrypted as an `Image` of it,
and the results compare as the numbers do where the type represents both. -/
structure Preserves (g : Gcm) (F : FloatOps) {f : Fam} (cast : Cast f)
    (Image : ℤ → List UInt8 → Prop) (Represents : ℤ → Prop) (column : List ℤ) : Prop where
  encrypts : ∀ n ∈ column, (∃ e, cast n = .error e) ∨
    ∃ m p, cast n = .ok m ∧ Image n p ∧ Yields g m p
  compares : ∀ n ∈ column, ∀ k ∈ column, Represents n → Represents k → ∀ m m', cast n = .ok m →
    cast k = .ok m' → Returns (do callCmp g F f (← m) (← m')) (compareOf n k)

/-- The plaintext stores the number. -/
def IntImage (n : ℤ) (p : List UInt8) : Prop := bytesInt p = n

/-- The plaintext stores what `pg_float4_in` reads in the decimal text of the number. -/
def FloatImage {F : FloatOps} (R : FloatReader F) (n : ℤ) (p : List UInt8) : Prop :=
  ∃ x, pgFloat4In R (printD n) = .ok x ∧ p = floatBytes x

section Preserving

variable {g : Gcm} {F : FloatOps} {f : Fam}

theorem yields_encryptUnchecked (plaintext : Bytes f.plainSize) :
    Yields g (encryptUnchecked g F f plaintext) plaintext.bytes := by
  intro c
  obtain ⟨served, hcmd, hdel⟩ := answers_enc (F := F) (in_sent (.enc f plaintext) c.process)
  obtain ⟨reply, hsend, -, hresult⟩ := sendRequest_eq (by decide) hcmd
  have hlen : reply.result.length = f.size := by rw [hresult]; exact Mem.length_read ..
  refine ⟨⟨reply.result, hlen⟩, ⟨reply.process, c.sent ++ [.enc f plaintext]⟩, ?_, ?_⟩
  · rw [encryptUnchecked, ExceptT.mk, hsend, Option.bind_eq_bind, Option.bind_some, dif_pos hlen]
  · show g.Decrypts reply.result plaintext.bytes
    rw [hresult]
    exact hdel

section Yields

variable {w : ℕ} {m : Sends (Bytes w)} {p q : List UInt8}

theorem Yields.eq (h : Yields g m p) (h' : Yields g m q) : p = q := by
  obtain ⟨v, c, hv, hp⟩ := h ⟨OpsProcess.zero, []⟩
  obtain ⟨v', c', hv', hq⟩ := h' ⟨OpsProcess.zero, []⟩
  rw [hv] at hv'
  cases hv'
  exact congrArg Prod.snd (hp.symm.trans hq)

theorem Yields.returns_callCmp {m m' : Sends (Bytes f.size)} (h : Yields g m p)
    (h' : Yields g m' q) : Returns (do callCmp g F f (← m) (← m')) (plainCmp F f p q) := by
  intro c
  obtain ⟨v, c₁, hv, hp⟩ := h c
  obtain ⟨v', c₂, hv', hq⟩ := h' c₁
  obtain ⟨c₃, hcmp⟩ := Udf.returns_callCmp (F := F) hp hq c₂
  exact ⟨c₃, by rw [run_bind hv, run_bind hv', hcmp]⟩

end Yields

/-- A cast that never raises an error preserves the numbers whose plaintexts are images. -/
theorem preserves_iff {cast : Cast f} {Image : ℤ → List UInt8 → Prop} {Represents : ℤ → Prop}
    {column : List ℤ} (plaintext : ℤ → List UInt8)
    (hcast : ∀ n ∈ column, ∃ m, cast n = .ok m ∧ Yields g m (plaintext n))
    (hcmp : ∀ n ∈ column, ∀ k ∈ column, ∀ p q, Represents n → Represents k → Image n p →
      Image k q → plainCmp F f p q = compareOf n k) :
    Preserves g F cast Image Represents column ↔ ∀ n ∈ column, Image n (plaintext n) := by
  constructor
  · intro h n hn
    obtain ⟨m, hm, hyields⟩ := hcast n hn
    rcases h.encrypts n hn with ⟨e, he⟩ | ⟨m', p, hm', himage, hyields'⟩
    · rw [hm] at he
      cases he
    · rw [hm] at hm'
      cases hm'
      rwa [hyields.eq hyields']
  · intro h
    refine ⟨fun n hn => ?_, fun n hn k hk hrn hrk m m' hm hm' => ?_⟩
    · obtain ⟨m, hm, hyields⟩ := hcast n hn
      exact .inr ⟨m, _, hm, h n hn, hyields⟩
    · obtain ⟨m₁, hm₁, hyields⟩ := hcast n hn
      obtain ⟨m₂, hm₂, hyields'⟩ := hcast k hk
      rw [hm] at hm₁
      rw [hm'] at hm₂
      cases hm₁
      cases hm₂
      rw [← hcmp n hn k hk _ _ hrn hrk (h n hn) (h k hk)]
      exact hyields.returns_callCmp hyields'

end Preserving

/-! ## Casts to integers -/

section Integers

variable {g : Gcm} {F : FloatOps} {column : List ℤ}

/-- The casts to `enc_int4` are right where the variable holds the number. -/
theorem preserves_int_iff {cast : Cast .int} {w : ℤ → ℤ}
    (hcast : ∀ n, cast n = .ok (encryptInt g F (w n))) (hwrap : ∀ n ∈ column, IsInt (w n)) :
    Preserves g F cast IntImage IsInt column ↔ ∀ n ∈ column, w n = n := by
  rw [preserves_iff fun n => intBytes (w n)]
  · refine forall₂_congr fun n hn => ?_
    rw [IntImage, bytesInt_intBytes (hwrap n hn)]
  · exact fun n _ => ⟨_, hcast n, yields_encryptUnchecked _⟩
  · rintro n - k - p q - - rfl rfl
    rfl

theorem isInt_bmod (n : ℤ) : IsInt (n.bmod (2 ^ 32)) := by
  have hlo := Int.le_bmod (x := n) (m := 2 ^ 32) (by decide)
  have hhi := Int.bmod_lt (x := n) (m := 2 ^ 32) (by decide)
  constructor <;> omega

theorem bmod_eq_self_iff_isInt (n : ℤ) : n.bmod (2 ^ 32) = n ↔ IsInt n := by
  constructor
  · intro h
    rw [← h]
    exact isInt_bmod n
  · rintro ⟨hlo, hhi⟩
    exact Int.bmod_eq_of_le (by omega) (by omega)

end Integers

/-! ## Casts to floats -/

section Floats

variable {g : Gcm} {F : FloatOps} {R : FloatReader F} {column : List ℤ} {n : ℤ}

/-- The casts to `enc_float4` are right where the variable reads like the number. -/
theorem preserves_float_iff {cast : Cast .float} {w : ℤ → ℤ} (hR : R.ReadsIntegers)
    (hcast : ∀ n, cast n = do return encryptFloat g F (← pgFloat4In R (printD (w n))))
    (hcolumn : ∀ n ∈ column, IsInt64 n) (hwrap : ∀ n ∈ column, IsInt64 (w n)) :
    Preserves g F cast (FloatImage R) Representable column ↔
      ∀ n ∈ column, reading R (w n) = reading R n := by
  rw [preserves_iff fun n => floatBytes (reading R (w n))]
  · refine forall₂_congr fun n hn => ?_
    rw [FloatImage, pgFloat4In_printD hR (hcolumn n hn)]
    constructor
    · rintro ⟨x, hx, hbytes⟩
      cases hx
      have := congrArg bytesFloat hbytes
      rwa [bytesFloat_floatBytes, bytesFloat_floatBytes] at this
    · intro h
      exact ⟨_, rfl, congrArg floatBytes h⟩
  · intro n hn
    refine ⟨encryptFloat g F (reading R (w n)), ?_, yields_encryptUnchecked _⟩
    rw [hcast, pgFloat4In_printD hR (hwrap n hn)]
    rfl
  · rintro n hn k hk p q hrn hrk ⟨x, hx, rfl⟩ ⟨y, hy, rfl⟩
    rw [pgFloat4In_printD hR (hcolumn n hn)] at hx
    rw [pgFloat4In_printD hR (hcolumn k hk)] at hy
    cases hx
    cases hy
    rw [plainCmp, bytesFloat_floatBytes, bytesFloat_floatBytes]
    exact plainFloatCmp_reading hR (hcolumn n hn) (hcolumn k hk) hrn hrk

theorem bmod_bounds (n : ℤ) : -128 ≤ n.bmod (2 ^ 8) ∧ n.bmod (2 ^ 8) ≤ 127 := by
  have hlo := Int.le_bmod (x := n) (m := 2 ^ 8) (by decide)
  have hhi := Int.bmod_lt (x := n) (m := 2 ^ 8) (by decide)
  constructor <;> omega

/-- **A number reads like its last eight bits only when it is in their range.** -/
theorem reading_bmod_eq_iff (hR : R.ReadsIntegers) (hn : IsInt64 n) :
    reading R (n.bmod (2 ^ 8)) = reading R n ↔ -128 ≤ n ∧ n ≤ 127 := by
  have hbounds := bmod_bounds n
  constructor
  · intro h
    have hval : value (reading R n) = (n.bmod (2 ^ 8) : ℤ) := by
      rw [← h]
      exact value_reading hR (by omega)
    -- Rounding keeps the order, and the numbers next to the range are exact.
    constructor
    · by_contra hlt
      have hmono : value (reading R n) ≤ value (reading R (-129)) :=
        hR.mono n (-129) hn (isInt64_of_small (by decide)) (by omega)
      rw [hval, value_reading hR (by decide), Int.cast_le] at hmono
      omega
    · by_contra hlt
      have hmono : value (reading R 128) ≤ value (reading R n) :=
        hR.mono 128 n (isInt64_of_small (by decide)) hn (by omega)
      rw [hval, value_reading hR (by decide), Int.cast_le] at hmono
      omega
  · rintro ⟨hlo, hhi⟩
    rw [Int.bmod_eq_of_le (by omega) (by omega)]

end Floats

/-! ## All casts -/

/-- **The casts preserve the numbers that their variables hold.** -/
theorem casts_preserve_iff (g : Gcm) (F : FloatOps) (R : FloatReader F) (hR : R.ReadsIntegers) :
    (∀ column, (∀ n ∈ column, IsInt n) →
      Preserves g F (int4ToEncInt4 g F) IntImage IsInt column ∧
      Preserves g F (int4ToEncFloat4 g R) (FloatImage R) Representable column) ∧
    ∀ column, (∀ n ∈ column, IsInt64 n) →
      (Preserves g F (int8ToEncInt4 g F) IntImage IsInt column ↔ ∀ n ∈ column, IsInt n) ∧
      (Preserves g F (int8ToEncFloat4 g R) (FloatImage R) Representable column ↔
        ∀ n ∈ column, -128 ≤ n ∧ n ≤ 127) := by
  refine ⟨fun column hcolumn => ⟨?_, ?_⟩, fun column hcolumn => ⟨?_, ?_⟩⟩
  · exact (preserves_int_iff (w := id) (fun n => rfl) hcolumn).2 fun n _ => rfl
  · have h64 : ∀ n ∈ column, IsInt64 n := fun n hn => by
      obtain ⟨hlo, hhi⟩ := hcolumn n hn
      constructor <;> omega
    exact (preserves_float_iff (w := id) hR (fun n => rfl) h64 h64).2 fun n _ => rfl
  · have h := preserves_int_iff (g := g) (F := F) (fun n => rfl) fun n (_ : n ∈ column) =>
      isInt_bmod n
    exact h.trans (forall₂_congr fun n _ => bmod_eq_self_iff_isInt n)
  · have hwrap : ∀ n ∈ column, IsInt64 (n.bmod (2 ^ 8)) := fun n _ => by
      have := bmod_bounds n
      exact isInt64_of_small (by omega)
    have h := preserves_float_iff (g := g) hR (fun n => rfl) hcolumn hwrap
    exact h.trans (forall₂_congr fun n hn => reading_bmod_eq_iff hR (hcolumn n hn))

/-- Small numbers survive the casts. -/
theorem casts_preserve_small : floorReader.ReadsIntegers ∧
    Preserves Gcm.identity floorOps (int8ToEncInt4 Gcm.identity floorOps) IntImage IsInt
      [-128, 2 ^ 31 - 1] ∧
    Preserves Gcm.identity floorOps (int8ToEncFloat4 Gcm.identity floorReader)
      (FloatImage floorReader) Representable [-128, 127] := by
  have h := (casts_preserve_iff Gcm.identity floorOps floorReader readsIntegers_floorReader).2
  have hcolumn : ∀ n ∈ [-128, 2 ^ 31 - 1, 127], IsInt64 n ∧ IsInt n := by
    simp only [List.forall_mem_cons, IsInt64, IsInt]
    decide
  refine ⟨readsIntegers_floorReader, (h _ ?_).1.2 ?_, (h _ ?_).2.2 ?_⟩
  · exact fun n hn => (hcolumn n (by simp_all; tauto)).1
  · exact fun n hn => (hcolumn n (by simp_all; tauto)).2
  · exact fun n hn => (hcolumn n (by simp_all; tauto)).1
  · decide

/-- **A cast encrypts another number**: `4294967297` becomes 1 and `300` becomes 44, and the second
is then smaller than the image of 100. -/
theorem cast_wraps : floorReader.ReadsIntegers ∧
    (∃ m, int8ToEncInt4 Gcm.identity floorOps (2 ^ 32 + 1) = .ok m ∧
      Yields Gcm.identity m (intBytes 1)) ∧
    ∃ m m' x, int8ToEncFloat4 Gcm.identity floorReader 300 = .ok m ∧
      int8ToEncFloat4 Gcm.identity floorReader 100 = .ok m' ∧
      value x = 44 ∧ Yields Gcm.identity m (floatBytes x) ∧
      Returns (do callCmp Gcm.identity floorOps .float (← m) (← m')) (-1) := by
  have hR := readsIntegers_floorReader
  have hread : ∀ n : ℤ, n.natAbs < 2 ^ 24 →
      pgFloat4In floorReader (printD n) = .ok (reading floorReader n) := fun n hn =>
    pgFloat4In_printD hR (isInt64_of_small hn)
  have hyields : ∀ n, Yields Gcm.identity (encryptFloat Gcm.identity floorOps
      (reading floorReader n)) (floatBytes (reading floorReader n)) := fun n =>
    yields_encryptUnchecked _
  refine ⟨hR, ⟨_, rfl, yields_encryptUnchecked ⟨intBytes 1, rfl⟩⟩, _,
    encryptFloat Gcm.identity floorOps (reading floorReader 100), reading floorReader 44, ?_, ?_,
    value_reading hR (by decide), hyields 44, ?_⟩
  · rw [int8ToEncFloat4, show (300 : ℤ).bmod (2 ^ 8) = 44 by decide, hread 44 (by decide)]
    rfl
  · rw [int8ToEncFloat4, show (100 : ℤ).bmod (2 ^ 8) = 100 by decide, hread 100 (by decide)]
    rfl
  · have h := (hyields 44).returns_callCmp (F := floorOps) (f := .float) (hyields 100)
    rwa [plainCmp, bytesFloat_floatBytes, bytesFloat_floatBytes,
      plainFloatCmp_reading hR (isInt64_of_small (by decide)) (isInt64_of_small (by decide))
        (exists_value_eq (by decide)) (exists_value_eq (by decide))] at h

end Udf

end HEDB
