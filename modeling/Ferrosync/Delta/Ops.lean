import Ferrosync.Delta.Sum

set_option autoImplicit false

/-! # Diff operations

The operations a matcher emits, and what they mean: `applyDiffops basis ops` is the file they
describe over a basis.
-/

namespace Ferrosync

/-- `BasisRef`: a region of the basis file. -/
structure BasisRef where
  offset : Nat
  length : Nat
  deriving DecidableEq, Repr

def BasisRef.blockIndex (bref : BasisRef) (blength : Nat) : Int :=
  toI32 (bref.offset / blength : Nat)

inductive DiffOp where
  | literal (data : List UInt8)
  | copy (bref : BasisRef)
  deriving DecidableEq, Repr

/-- The bytes `basis[i..min(j, basis.len())]`. -/
def slice (data : List UInt8) (i j : Nat) : List UInt8 := (data.drop i).take (j - i)

/-- What one operation contributes to the file. -/
def DiffOp.bytes (basis : List UInt8) : DiffOp → List UInt8
  | .literal data => data
  | .copy bref =>
    if bref.offset < basis.length then
      slice basis bref.offset (min (bref.offset + bref.length) basis.length)
    else []

def applyDiffops (basis : List UInt8) (ops : List DiffOp) : List UInt8 :=
  ops.flatMap (DiffOp.bytes basis)

@[simp] theorem applyDiffops_append (basis : List UInt8) (ops ops' : List DiffOp) :
    applyDiffops basis (ops ++ ops') = applyDiffops basis ops ++ applyDiffops basis ops' :=
  List.flatMap_append

@[simp] theorem applyDiffops_singleton (basis : List UInt8) (op : DiffOp) :
    applyDiffops basis [op] = op.bytes basis := by
  simp [applyDiffops]

/-! ## Slices -/

theorem slice_length {data : List UInt8} {i j : Nat} (h : j ≤ data.length) :
    (slice data i j).length = j - i := by
  rw [slice, List.length_take, List.length_drop]
  omega

/-- A prefix extended by the slice that follows it. -/
theorem take_append_slice (data : List UInt8) {i j : Nat} (h : i ≤ j) :
    data.take i ++ slice data i j = data.take j := by
  rw [slice, ← List.take_add, Nat.add_sub_cancel' h]

theorem slice_append_slice (data : List UInt8) {i j k : Nat} (hij : i ≤ j) (hjk : j ≤ k) :
    slice data i j ++ slice data j k = slice data i k := by
  have hdrop : data.drop j = (data.drop i).drop (j - i) := by
    rw [List.drop_drop, Nat.add_sub_cancel' hij]
  rw [slice, slice, hdrop, ← List.take_add]
  congr 1
  omega

end Ferrosync
