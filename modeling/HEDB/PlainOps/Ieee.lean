import HEDB.Foundations.Arithmetic32
import HEDB.PlainOps.Arithmetic

/-!
# The plain operations in IEEE 754

`FloatOps.ieee` is the arithmetic of binary32. A `double` is the exact number of a sum, which it is
while the sum fits into 53 bits. The format says nothing of `pow`, which answers NaN here.
-/

namespace HEDB

open Binary32

/-- The arithmetic of binary32. -/
def FloatOps.ieee : FloatOps where
  Double := Wide
  eq x y := ¬ IsNaN x ∧ ¬ IsNaN y ∧ key x = key y
  lt x y := ¬ IsNaN x ∧ ¬ IsNaN y ∧ key x < key y
  neg x := signed (!Negative x) (x.toNat % 2 ^ 31)
  add := Binary32.add
  sub := Binary32.sub
  mul := Binary32.mul
  div := Binary32.div
  toInt x := (wide x).truncate.bind checkedInt
  ofInt n := Binary32.narrow (.ofInt n)
  widen := wide
  narrow := Binary32.narrow
  addDouble := Wide.add
  powDouble _ _ := .nan
  doubleOfInt := .ofInt
  doubleToInt x := x.truncate.bind checkedInt
  residue _ _ _ := 0

end HEDB
