import HEDB.Foundations.Bytes

/-!
# Files

A file is the list of its bytes. It is written in place (`pwrite`, a store through a shared
mapping), resized (`ftruncate`, which fills with zeros), and read sequentially through a
`Cursor` (`fread`).

`readAll` runs a reader request by request over one cursor. When each request reads exactly the
encoding of one record and produces what that record says (`ReadsRecord`), a whole run over the
concatenated encodings consumes them all and produces what each says, in order (`readAll_spec`):
this is the only induction over logs that readers need.
-/

namespace HEDB

/-! ## Writing in place -/

/-- Set the size of a file, dropping its end or filling with zeros. -/
def ftruncate (file : List UInt8) (n : ℕ) : List UInt8 :=
  file.take n ++ List.replicate (n - file.length) 0

/-- Store `bs` at offset `o` of a file that is long enough. -/
def pwrite (file : List UInt8) (o : ℕ) (bs : List UInt8) : List UInt8 :=
  file.take o ++ bs ++ file.drop (o + bs.length)

@[simp] theorem length_ftruncate (file : List UInt8) (n : ℕ) : (ftruncate file n).length = n := by
  simp only [ftruncate, List.length_append, List.length_take, List.length_replicate]
  omega

theorem take_ftruncate {file : List UInt8} {k n : ℕ} (hk : k ≤ file.length) (hn : k ≤ n) :
    (ftruncate file n).take k = file.take k := by
  rw [ftruncate, List.take_append_of_le_length (by rw [List.length_take]; omega), List.take_take,
    Nat.min_eq_left hn]

theorem length_pwrite {file : List UInt8} {o : ℕ} {bs : List UInt8}
    (h : o + bs.length ≤ file.length) : (pwrite file o bs).length = file.length := by
  simp only [pwrite, List.length_append, List.length_take, List.length_drop]
  omega

theorem take_pwrite {file : List UInt8} {o : ℕ} {bs : List UInt8} (h : o ≤ file.length) :
    (pwrite file o bs).take (o + bs.length) = file.take o ++ bs := by
  rw [pwrite, List.take_append_of_le_length, List.take_of_length_le]
  all_goals
    simp only [List.length_append, List.length_take]
    omega

theorem drop_pwrite {file : List UInt8} {o : ℕ} {bs : List UInt8} (h : o ≤ file.length) :
    (pwrite file o bs).drop (o + bs.length) = file.drop (o + bs.length) := by
  rw [pwrite, List.drop_left' (by simp only [List.length_append, List.length_take]; omega)]

theorem ftruncate_of_le {file : List UInt8} {n : ℕ} (h : file.length ≤ n) :
    ftruncate file n = file ++ List.replicate (n - file.length) 0 := by
  rw [ftruncate, List.take_of_length_le h]

/-- Behind the end of the file there are zeros. -/
theorem drop_ftruncate {file : List UInt8} {k n : ℕ} (hk : file.length ≤ k) :
    (ftruncate file n).drop k = List.replicate (n - k) 0 := by
  rw [ftruncate, List.drop_append, List.drop_eq_nil_of_le (by rw [List.length_take]; omega),
    List.drop_replicate, List.nil_append, List.length_take]
  congr 1
  omega

theorem ftruncate_replicate (m n : ℕ) :
    ftruncate (List.replicate m 0) n = List.replicate n 0 := by
  rw [ftruncate, List.take_replicate, List.length_replicate, List.replicate_append_replicate]
  congr 1
  omega

/-- Items of one width, laid out one after the other. -/
theorem length_flatten_of_forall {w : ℕ} {items : List (List UInt8)}
    (hw : ∀ x ∈ items, x.length = w) : items.flatten.length = items.length * w := by
  rw [List.length_flatten, List.map_congr_left hw, List.map_const', List.sum_replicate,
    smul_eq_mul]

/-! ## Reading through a cursor -/

/-- A file opened for reading: its bytes and the position of the next read. -/
structure Cursor where
  data : List UInt8
  pos : ℕ

namespace Cursor

/-- The bytes that are still to be read. -/
def rest (c : Cursor) : List UInt8 := c.data.drop c.pos

/-- Move the position forward. -/
def advance (c : Cursor) (n : ℕ) : Cursor := { c with pos := c.pos + n }

/-- Read into a destination that holds the bytes `dst`: as many bytes as the file still has, up to
the size of the destination. What the file does not have stays as it was. -/
def fread (c : Cursor) (dst : List UInt8) : List UInt8 × Cursor :=
  let got := c.rest.take dst.length
  (got ++ dst.drop got.length, c.advance got.length)

@[simp] theorem advance_zero (c : Cursor) : c.advance 0 = c := rfl

@[simp] theorem advance_advance (c : Cursor) (a b : ℕ) :
    (c.advance a).advance b = c.advance (a + b) := by
  simp [advance, Nat.add_assoc]

theorem rest_advance_eq (c : Cursor) (n : ℕ) : (c.advance n).rest = c.rest.drop n := by
  simp [rest, advance, List.drop_drop]

theorem length_rest_advance (c : Cursor) (n : ℕ) :
    (c.advance n).rest.length = c.rest.length - n := by
  rw [rest_advance_eq, List.length_drop]

theorem rest_advance {c : Cursor} {bs tl : List UInt8} (h : c.rest = bs ++ tl) :
    (c.advance bs.length).rest = tl := by
  rw [rest_advance_eq, h, List.drop_left]

theorem rest_advance_int {c : Cursor} {v : ℤ} {tl : List UInt8} (h : c.rest = intBytes v ++ tl) :
    (c.advance 4).rest = tl :=
  length_intBytes v ▸ rest_advance h

/-- A read of the size of the next `bs` bytes returns them and moves past them. -/
theorem fread_of_rest {c : Cursor} {bs tl dst : List UInt8} (h : c.rest = bs ++ tl)
    (hl : dst.length = bs.length) : c.fread dst = (bs, c.advance bs.length) := by
  have hgot : c.rest.take dst.length = bs := by rw [h, hl, List.take_left]
  simp only [fread, hgot, ← hl, List.drop_length, List.append_nil]

@[simp] theorem length_fread (c : Cursor) (dst : List UInt8) :
    (c.fread dst).1.length = dst.length := by
  simp only [fread, List.length_append, List.length_drop, List.length_take]
  omega

end Cursor

/-! ## Reading a log record by record -/

section Runs

variable {ι κ σ β : Type*}

/-- Run a reader over a list of requests. The reader threads a state, which holds its cursor. -/
def readAll (step : ι → σ → β × σ) : List ι → σ → List β × σ
  | [], s => ([], s)
  | i :: is, s => ((step i s).1 :: (readAll step is (step i s).2).1,
      (readAll step is (step i s).2).2)

/-- `At s bs` says that a reader in state `s` is about to read the bytes `bs`. On a request that is
related to a recorded item by `R`, the reader consumes exactly the encoding of the item and returns
a value related to it by `Out`, whatever follows in the file. -/
def ReadsRecord (step : ι → σ → β × σ) (enc : κ → List UInt8) (R : κ → ι → Prop)
    (Out : κ → β → Prop) (At : σ → List UInt8 → Prop) : Prop :=
  ∀ k i s tl, R k i → At s (enc k ++ tl) → Out k (step i s).1 ∧ At (step i s).2 tl

/-- **A run of a reader over a whole log**: it consumes all the records and answers each request
from its own record. -/
theorem readAll_spec {step : ι → σ → β × σ} {enc : κ → List UInt8} {R : κ → ι → Prop}
    {Out : κ → β → Prop} {At : σ → List UInt8 → Prop} (hstep : ReadsRecord step enc R Out At)
    {ks : List κ} {is : List ι} (hR : List.Forall₂ R ks is) {s : σ} {tl : List UInt8}
    (hs : At s (ks.flatMap enc ++ tl)) :
    List.Forall₂ Out ks (readAll step is s).1 ∧ At (readAll step is s).2 tl := by
  induction hR generalizing s with
  | nil => exact ⟨.nil, hs⟩
  | @cons k i ks is hki _ ih =>
    rw [List.flatMap_cons, List.append_assoc] at hs
    obtain ⟨hout, hs₁⟩ := hstep k i s _ hki hs
    obtain ⟨houts, hs₂⟩ := ih hs₁
    exact ⟨.cons hout houts, hs₂⟩

/-- A reader gives the same answers from two states that its steps cannot tell apart. -/
theorem readAll_congr {step : ι → σ → β × σ} {S : σ → σ → Prop}
    (hstep : ∀ i s t, S s t → (step i s).1 = (step i t).1 ∧ S (step i s).2 (step i t).2)
    (is : List ι) {s t : σ} (h : S s t) : (readAll step is s).1 = (readAll step is t).1 := by
  induction is generalizing s t with
  | nil => rfl
  | cons i is ih =>
    obtain ⟨hout, hnext⟩ := hstep i s t h
    simp only [readAll, hout, ih hnext]

end Runs

end HEDB
