import HEDB.Foundations.Bytes

/-!
# ktest files

The anonymizer hands plaintext operands to KLEE in a ktest file, a list of named objects. `toFile`
is `kTest_toFile`. Two files of objects with the same names and sizes are equal only if the objects
are (`toFile_inj`).
-/

namespace HEDB

/-- An object: its name and its bytes. -/
structure KTestObject where
  name : String
  bytes : List UInt8
  deriving DecidableEq

namespace KTest

/-- `push_int`, and `push_range` on a value that fits. -/
def pushInt (name : String) (v : ℤ) : KTestObject := ⟨name, intBytes v⟩

/-- `write_uint32`: the most significant byte comes first. -/
def writeUint32 (v : ℕ) : List UInt8 := (leBytes 4 v).reverse

/-- `write_string`. -/
def writeString (s : String) : List UInt8 :=
  writeUint32 s.toUTF8.toList.length ++ s.toUTF8.toList

/-- One round of the loop of `kTest_toFile`. -/
def writeObject (o : KTestObject) : List UInt8 :=
  writeString o.name ++ (writeUint32 o.bytes.length ++ o.bytes)

/-- `kTest_toFile`, for a test that has no arguments. -/
def toFile (objects : List KTestObject) : List UInt8 :=
  "KTEST".toUTF8.toList ++ writeUint32 3 ++ writeUint32 0 ++ writeUint32 0 ++ writeUint32 0 ++
    writeUint32 objects.length ++ objects.flatMap writeObject

/-- Two objects have the same name and the same size. -/
def SameShape (a b : KTestObject) : Prop := a.name = b.name ∧ a.bytes.length = b.bytes.length

theorem SameShape.eq_of_writeObject_append {a b : KTestObject} {as bs : List UInt8}
    (h : SameShape a b) (he : writeObject a ++ as = writeObject b ++ bs) : a = b ∧ as = bs := by
  obtain ⟨name, xs⟩ := a
  obtain ⟨name', ys⟩ := b
  obtain ⟨rfl, hlen⟩ : name = name' ∧ xs.length = ys.length := h
  simp only [writeObject, List.append_assoc, hlen] at he
  obtain ⟨rfl, has⟩ := List.append_inj (List.append_cancel_left (List.append_cancel_left he)) hlen
  exact ⟨rfl, has⟩

/-- **A ktest file determines its objects**, among those of the same names and sizes. -/
theorem toFile_inj {as bs : List KTestObject} (h : List.Forall₂ SameShape as bs)
    (he : toFile as = toFile bs) : as = bs := by
  rw [toFile, toFile, h.length_eq] at he
  replace he := List.append_cancel_left he
  induction h with
  | nil => rfl
  | cons hab _ ih =>
    rw [List.flatMap_cons, List.flatMap_cons] at he
    obtain ⟨rfl, htail⟩ := hab.eq_of_writeObject_append he
    rw [ih htail]

end KTest

end HEDB
