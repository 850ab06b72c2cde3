import Mathlib.Tactic

/-!
# Bytes and flat memory

Byte strings are lists of `UInt8`. Machine words are stored little-endian: `leBytes w n` are the
`w` low bytes of `n` and `leNat` reads them back (`leNat_leBytes`, `leBytes_leNat`).

A buffer is a flat memory `Mem`, a byte for every offset. `Mem.read` copies a field out of it and
`Mem.write` copies one in; a field is read back as it was written (`Mem.read_write`), and a write
leaves every field that it does not overlap (`Mem.read_write_of_disjoint`).
-/

namespace HEDB

/-! ## Little-endian words -/

/-- The `w` low bytes of `n`, least significant first. -/
def leBytes : ℕ → ℕ → List UInt8
  | 0, _ => []
  | w + 1, n => UInt8.ofNat n :: leBytes w (n / 256)

/-- The number that a byte string stores, least significant byte first. -/
def leNat : List UInt8 → ℕ
  | [] => 0
  | b :: bs => b.toNat + 256 * leNat bs

@[simp] theorem length_leBytes (w n : ℕ) : (leBytes w n).length = w := by
  induction w generalizing n with
  | zero => rfl
  | succ w ih => simp [leBytes, ih]

theorem leNat_leBytes (w n : ℕ) : leNat (leBytes w n) = n % 256 ^ w := by
  induction w generalizing n with
  | zero => simp [leBytes, leNat, Nat.mod_one]
  | succ w ih =>
    have h : (UInt8.ofNat n).toNat = n % 256 := by simp
    rw [leBytes, leNat, ih, h, pow_succ', Nat.mod_mul]

theorem leNat_lt (bs : List UInt8) : leNat bs < 256 ^ bs.length := by
  induction bs with
  | nil => simp [leNat]
  | cons b bs ih =>
    have hb : b.toNat < 256 := b.toNat_lt
    simp only [leNat, List.length_cons, pow_succ']
    omega

theorem leBytes_leNat (bs : List UInt8) : leBytes bs.length (leNat bs) = bs := by
  induction bs with
  | nil => rfl
  | cons b bs ih =>
    have hb : b.toNat < 256 := b.toNat_lt
    have hdiv : (b.toNat + 256 * leNat bs) / 256 = leNat bs := by omega
    have hmod : UInt8.ofNat (b.toNat + 256 * leNat bs) = b := by
      apply UInt8.toNat_inj.mp
      rw [UInt8.toNat_ofNat']
      omega
    simp only [List.length_cons, leNat, leBytes, hdiv, hmod, ih]

theorem leNat_injective {bs cs : List UInt8} (hl : bs.length = cs.length)
    (h : leNat bs = leNat cs) : bs = cs := by
  rw [← leBytes_leNat bs, ← leBytes_leNat cs, hl, h]

/-! ## The C integer types -/

/-- The bytes of a 32-bit `int`. -/
def intBytes (v : ℤ) : List UInt8 := leBytes 4 (BitVec.ofInt 32 v).toNat

/-- The 32-bit `int` that four bytes store. -/
def bytesInt (bs : List UInt8) : ℤ := (BitVec.ofNat 32 (leNat bs)).toInt

@[simp] theorem length_intBytes (v : ℤ) : (intBytes v).length = 4 := length_leBytes ..

/-- The values of the C type `int`. -/
def IsInt (v : ℤ) : Prop := -2 ^ 31 ≤ v ∧ v < 2 ^ 31

instance (v : ℤ) : Decidable (IsInt v) := inferInstanceAs (Decidable (_ ∧ _))

/-- Four bytes keep a number modulo `2 ^ 32`. -/
theorem bytesInt_intBytes_eq (v : ℤ) : bytesInt (intBytes v) = v.bmod (2 ^ 32) := by
  have hlt : (BitVec.ofInt 32 v).toNat < 256 ^ 4 := (BitVec.ofInt 32 v).isLt
  rw [bytesInt, intBytes, leNat_leBytes, Nat.mod_eq_of_lt hlt, BitVec.ofNat_toNat,
    BitVec.setWidth_eq, BitVec.toInt_ofInt]

theorem bytesInt_intBytes {v : ℤ} (h : IsInt v) : bytesInt (intBytes v) = v := by
  obtain ⟨h₁, h₂⟩ := h
  rw [bytesInt_intBytes_eq]
  exact Int.bmod_eq_of_le (by omega) (by omega)

theorem isInt_toInt (x : BitVec 32) : IsInt x.toInt := by
  have h₁ := BitVec.le_toInt x
  have h₂ := BitVec.toInt_lt (x := x)
  simp only [IsInt]
  norm_num at h₁ h₂ ⊢
  omega

theorem isInt_bytesInt (bs : List UInt8) : IsInt (bytesInt bs) := isInt_toInt _

theorem bytesInt_injective {bs cs : List UInt8} (hb : bs.length = 4) (hc : cs.length = 4)
    (h : bytesInt bs = bytesInt cs) : bs = cs := by
  have hbv := BitVec.eq_of_toInt_eq h
  have hn := congrArg BitVec.toNat hbv
  have hbl : leNat bs < 2 ^ 32 := by simpa [hb] using leNat_lt bs
  have hcl : leNat cs < 2 ^ 32 := by simpa [hc] using leNat_lt cs
  rw [BitVec.toNat_ofNat, BitVec.toNat_ofNat, Nat.mod_eq_of_lt hbl, Nat.mod_eq_of_lt hcl] at hn
  exact leNat_injective (hb.trans hc.symm) hn

theorem intBytes_bytesInt {bs : List UInt8} (h : bs.length = 4) : intBytes (bytesInt bs) = bs :=
  bytesInt_injective (length_intBytes _) h (bytesInt_intBytes (isInt_bytesInt bs))

theorem bytesInt_eq_iff {bs : List UInt8} (h : bs.length = 4) {v : ℤ} (hv : IsInt v) :
    bytesInt bs = v ↔ bs = intBytes v := by
  constructor
  · intro hbs
    apply bytesInt_injective h (length_intBytes v)
    rw [hbs, bytesInt_intBytes hv]
  · rintro rfl
    exact bytesInt_intBytes hv

/-- An `int` whose last byte is 128 is negative. -/
theorem bytesInt_neg {bs : List UInt8} (h : bs.length = 3) : bytesInt (bs ++ [128]) < 0 := by
  obtain ⟨a, b, c, rfl⟩ := List.length_eq_three.mp h
  have ha := a.toNat_lt
  have hb := b.toNat_lt
  have hc := c.toNat_lt
  have hnat : leNat ([a, b, c] ++ [128]) =
      a.toNat + 256 * (b.toNat + 256 * (c.toNat + 256 * 128)) := rfl
  rw [bytesInt, BitVec.toInt_eq_toNat_cond, BitVec.toNat_ofNat, hnat,
    Nat.mod_eq_of_lt (by omega), if_neg (by omega)]
  omega

/-! ## Flat memory -/

/-- A buffer: the byte at every offset. -/
def Mem : Type := ℕ → UInt8

namespace Mem

/-- The buffer that `calloc` returns. -/
def zero : Mem := fun _ => 0

/-- Copy `n` bytes out of the buffer, from offset `o` on. -/
def read (m : Mem) (o n : ℕ) : List UInt8 := (List.range n).map fun i => m (o + i)

/-- Copy `bs` into the buffer at offset `o`. -/
def write (m : Mem) (o : ℕ) (bs : List UInt8) : Mem :=
  fun a => if o ≤ a ∧ a < o + bs.length then bs.getD (a - o) 0 else m a

@[simp] theorem length_read (m : Mem) (o n : ℕ) : (m.read o n).length = n := by simp [read]

@[simp] theorem read_zero (m : Mem) (o : ℕ) : m.read o 0 = [] := rfl

theorem getElem_read (m : Mem) (o n : ℕ) {i : ℕ} (h : i < (m.read o n).length) :
    (m.read o n)[i] = m (o + i) := by
  simp [read]

theorem read_add (m : Mem) (o a b : ℕ) : m.read o (a + b) = m.read o a ++ m.read (o + a) b := by
  simp only [read, List.range_add, List.map_append, List.map_map]
  congr 1
  apply List.map_congr_left
  intro i _
  simp [Nat.add_assoc]

theorem read_congr {m m' : Mem} {o n : ℕ} (h : ∀ i < n, m (o + i) = m' (o + i)) :
    m.read o n = m'.read o n := by
  apply List.map_congr_left
  intro i hi
  exact h i (List.mem_range.mp hi)

theorem read_eq_iff {m m' : Mem} {o n : ℕ} :
    m.read o n = m'.read o n ↔ ∀ i < n, m (o + i) = m' (o + i) := by
  refine ⟨fun h i hi => ?_, read_congr⟩
  have hg := List.getElem_of_eq h (i := i) (by simpa using hi)
  simpa only [getElem_read] using hg

/-- Buffers that agree on a field agree on its parts. -/
theorem read_part {m m' : Mem} {o n p k : ℕ} (h : m.read o n = m'.read o n) (h₁ : o ≤ p)
    (h₂ : p + k ≤ o + n) : m.read p k = m'.read p k := by
  rw [read_eq_iff] at h ⊢
  intro i hi
  have hj := h (p + i - o) (by omega)
  rwa [show o + (p + i - o) = p + i by omega] at hj

theorem write_apply_of_not {m : Mem} {o a : ℕ} {bs : List UInt8}
    (h : ¬ (o ≤ a ∧ a < o + bs.length)) :
    m.write o bs a = m a := if_neg h

theorem write_apply_of_mem {m : Mem} {o i : ℕ} {bs : List UInt8} (h : i < bs.length) :
    m.write o bs (o + i) = bs[i] := by
  rw [write, if_pos ⟨by omega, by omega⟩, Nat.add_sub_cancel_left]
  simp [h]

theorem write_singleton (m : Mem) {o a : ℕ} (b : UInt8) (h : a = o) : m.write o [b] a = b := by
  simp [write, h]

/-- **A field is read back as it was written.** -/
theorem read_write (m : Mem) (o : ℕ) (bs : List UInt8) : (m.write o bs).read o bs.length = bs := by
  apply List.ext_getElem (by simp)
  intro i _ h₂
  rw [getElem_read, write_apply_of_mem h₂]

theorem read_write_of_length (m : Mem) (o n : ℕ) (bs : List UInt8) (h : bs.length = n) :
    (m.write o bs).read o n = bs := by
  subst h
  exact read_write m o bs

/-- **A write leaves the fields that it does not overlap.** -/
theorem read_write_of_disjoint (m : Mem) {o p n : ℕ} {bs : List UInt8}
    (h : p + n ≤ o ∨ o + bs.length ≤ p) : (m.write o bs).read p n = m.read p n :=
  read_congr fun i hi => write_apply_of_not (by omega)

/-- Copying a field from one buffer to another copies its parts. -/
theorem read_write_read (m m' : Mem) {o n p k : ℕ} (h₁ : o ≤ p) (h₂ : p + k ≤ o + n) :
    (m'.write o (m.read o n)).read p k = m.read p k := by
  apply read_congr
  intro i hi
  obtain ⟨j, hj⟩ : ∃ j, p + i = o + j := ⟨p + i - o, by omega⟩
  rw [hj, write_apply_of_mem (by rw [length_read]; omega), getElem_read]

@[simp] theorem write_nil (m : Mem) (o : ℕ) : m.write o [] = m := by
  funext a
  exact write_apply_of_not (by simp)

/-- Two writes next to each other are one. -/
theorem write_write (m : Mem) (o : ℕ) (as bs : List UInt8) :
    (m.write o as).write (o + as.length) bs = m.write o (as ++ bs) := by
  funext a
  unfold write
  rw [List.length_append]
  split_ifs with h₁ h₂ h₂ h₃
  · rw [List.getD_eq_getElem?_getD, List.getD_eq_getElem?_getD,
      List.getElem?_append_right (by omega), Nat.sub_sub]
  · omega
  · rw [List.getD_eq_getElem?_getD, List.getD_eq_getElem?_getD,
      List.getElem?_append_left (by omega)]
  · omega
  · omega
  · rfl

/-! ### Several fields at once -/

/-- Copy a list of fields into the buffer, one after the other. -/
def writeAll (m : Mem) (ws : List (ℕ × List UInt8)) : Mem := ws.foldl (fun m w => m.write w.1 w.2) m

/-- Two fields that do not overlap. -/
def Apart (v w : ℕ × List UInt8) : Prop := v.1 + v.2.length ≤ w.1 ∨ w.1 + w.2.length ≤ v.1

/-- The buffer holds every field of the list. -/
def Holds (m : Mem) (ws : List (ℕ × List UInt8)) : Prop := ∀ w ∈ ws, m.read w.1 w.2.length = w.2

@[simp] theorem writeAll_nil (m : Mem) : m.writeAll [] = m := rfl

@[simp] theorem writeAll_cons (m : Mem) (w : ℕ × List UInt8) (ws : List (ℕ × List UInt8)) :
    m.writeAll (w :: ws) = (m.write w.1 w.2).writeAll ws := rfl

theorem read_writeAll_of_disjoint (m : Mem) {p n : ℕ} {ws : List (ℕ × List UInt8)}
    (h : ∀ w ∈ ws, p + n ≤ w.1 ∨ w.1 + w.2.length ≤ p) : (m.writeAll ws).read p n = m.read p n := by
  induction ws generalizing m with
  | nil => rfl
  | cons w ws ih =>
    rw [writeAll_cons, ih _ fun v hv => h v (List.mem_cons_of_mem _ hv),
      read_write_of_disjoint _ (h w List.mem_cons_self)]

/-- Writing the same fields into two buffers keeps what they agree on. -/
theorem writeAll_congr {m m' : Mem} {a : ℕ} (h : m a = m' a) (ws : List (ℕ × List UInt8)) :
    m.writeAll ws a = m'.writeAll ws a := by
  induction ws generalizing m m' with
  | nil => exact h
  | cons w ws ih =>
    rw [writeAll_cons, writeAll_cons]
    apply ih
    unfold write
    split_ifs
    · rfl
    · exact h

/-- **Fields that are pairwise apart are all held after they are written.** -/
theorem holds_writeAll (m : Mem) {ws : List (ℕ × List UInt8)} (h : ws.Pairwise Apart) :
    (m.writeAll ws).Holds ws := by
  induction ws generalizing m with
  | nil => intro w hw; cases hw
  | cons v ws ih =>
    obtain ⟨hv, hws⟩ := List.pairwise_cons.mp h
    intro w hw
    rcases List.mem_cons.mp hw with rfl | hw
    · rw [writeAll_cons, read_writeAll_of_disjoint _ fun u hu => hv u hu, read_write]
    · exact ih _ hws w hw

/-- A write that is apart from all held fields keeps them. -/
theorem Holds.write {m : Mem} {ws : List (ℕ × List UInt8)} (h : m.Holds ws) {o : ℕ}
    {bs : List UInt8} (ha : ∀ w ∈ ws, Apart w (o, bs)) : (m.write o bs).Holds ws := fun w hw => by
  rw [read_write_of_disjoint _ (ha w hw), h w hw]

/-! ### Words -/

/-- The `int` at offset `o`. -/
def int (m : Mem) (o : ℕ) : ℤ := bytesInt (m.read o 4)

/-- Store an `int` at offset `o`. -/
def setInt (m : Mem) (o : ℕ) (v : ℤ) : Mem := m.write o (intBytes v)

/-- The `uint32_t` at offset `o`. -/
def uint (m : Mem) (o : ℕ) : ℕ := leNat (m.read o 4)

/-- Store a `uint32_t` at offset `o`. -/
def setUint (m : Mem) (o : ℕ) (v : ℕ) : Mem := m.write o (leBytes 4 v)

theorem int_setInt (m : Mem) (o : ℕ) {v : ℤ} (h : IsInt v) : (m.setInt o v).int o = v := by
  rw [int, setInt, read_write_of_length _ _ _ _ (length_intBytes v), bytesInt_intBytes h]

theorem int_setInt_of_disjoint (m : Mem) {o p : ℕ} (v : ℤ) (h : p + 4 ≤ o ∨ o + 4 ≤ p) :
    (m.setInt o v).int p = m.int p := by
  rw [int, setInt, read_write_of_disjoint _ (by rwa [length_intBytes]), int]

theorem uint_setUint (m : Mem) (o : ℕ) {v : ℕ} (h : v < 2 ^ 32) : (m.setUint o v).uint o = v := by
  rw [uint, setUint, read_write_of_length _ _ _ _ (length_leBytes 4 v), leNat_leBytes]
  exact Nat.mod_eq_of_lt h

end Mem

end HEDB
