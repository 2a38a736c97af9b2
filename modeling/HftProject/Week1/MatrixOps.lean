import HftProject.Lib.Counting
import HftProject.Lib.RowMajor
import Mathlib.Algebra.BigOperators.Ring.Finset

/-!
The matrix routines of `phase1`, with `int` arithmetic that overflows and arrays that have ends.
The numbers are those of any semiring, in place of `double`. Dimensions are not negative.

A call either returns, with what it has written to `result`, or throws, with what `result` holds
then, or runs into behaviour that is undefined. The variants that do not inline `check_null` are
the same.
-/

namespace HftProject.Week1

open Counting

/-- The source's behaviour is undefined from here on. -/
inductive Fault where
  | overflow
  | outOfBounds
deriving DecidableEq, Repr

/-! ### Machine integers and arrays -/

def intMax : Nat := 2 ^ 31 - 1

def addInt (a b : Nat) : Except Fault Nat :=
  if a + b ≤ intMax then .ok (a + b) else .error .overflow

def mulInt (a b : Nat) : Except Fault Nat :=
  if a * b ≤ intMax then .ok (a * b) else .error .overflow

/-- `i * cols + j` -/
def index (i cols j : Nat) : Except Fault Nat := do addInt (← mulInt i cols) j

/-- `for (int i = lo; i < hi; ++i)` -/
def count {S : Type} (lo hi : Nat) (body : Nat → S → Except Fault S) (s : S) : Except Fault S :=
  forLoop (fun i => addInt i 1) lo hi body s

section Arrays

variable {R : Type}

def read (array : List R) (i : Nat) : Except Fault R :=
  match array[i]? with
  | some x => .ok x
  | none => .error .outOfBounds

def write (array : List R) (i : Nat) (x : R) : Except Fault (List R) :=
  if i < array.length then .ok (array.set i x) else .error .outOfBounds

/-- `std::fill_n` -/
def fillN (array : List R) (n : Nat) (x : R) : Except Fault (List R) :=
  if n ≤ array.length then .ok (List.replicate n x ++ array.drop n) else .error .outOfBounds

/-- How a call ends. -/
inductive Outcome (R : Type) where
  | returned (result : List R)
  /-- `std::invalid_argument` -/
  | threw (what : String) (result : Option (List R))
  | undefined (fault : Fault)
deriving DecidableEq, Repr

def Outcome.ofRun : Except Fault (List R) → Outcome R
  | .ok result => .returned result
  | .error fault => .undefined fault

/-- `check_null`, and the rest of the call. -/
def checkNull (ptr : Option (List R)) (name : String) (result : Option (List R))
    (rest : List R → Outcome R) : Outcome R :=
  match ptr with
  | none => .threw (name ++ " cannot be null.") result
  | some array => rest array

end Arrays

/-! ### The routines -/

variable {R : Type} [NonUnitalNonAssocSemiring R]

def multiplyMvRowMajor (matrix : Option (List R)) (rows cols : Nat)
    (vector result : Option (List R)) : Outcome R :=
  checkNull matrix "matrix" result fun matrix =>
  checkNull vector "vector" result fun vector =>
  checkNull result "result" result fun result => .ofRun do
    let result ← fillN result rows 0
    count 0 rows (fun i result => do
      let sum ← count 0 cols (fun k sum => do
        return sum + (← read matrix (← index i cols k)) * (← read vector k)) 0
      write result i sum) result

def multiplyMvColMajor (matrix : Option (List R)) (rows cols : Nat)
    (vector result : Option (List R)) : Outcome R :=
  checkNull matrix "matrix" result fun matrix =>
  checkNull vector "vector" result fun vector =>
  checkNull result "result" result fun result => .ofRun do
    let result ← fillN result rows 0
    count 0 cols (fun i => count 0 rows (fun j result => do
      write result j
        ((← read result j) + (← read matrix (← index i rows j)) * (← read vector i)))) result

def multiplyMmNaive (matrixA : Option (List R)) (rowsA colsA : Nat) (matrixB : Option (List R))
    (rowsB colsB : Nat) (result : Option (List R)) : Outcome R :=
  checkNull matrixA "matrixA" result fun matrixA =>
  checkNull matrixB "matrixB" result fun matrixB =>
  checkNull result "result" result fun result =>
  if colsA ≠ rowsB then
    .threw "Incompatible dimensions for matrix multiplication." (some result)
  else .ofRun do
    let result ← fillN result (← mulInt rowsA colsB) 0
    count 0 rowsA (fun i => count 0 colsB (fun j result => do
      let sum ← count 0 colsA (fun k sum => do
        return sum + (← read matrixA (← index i colsA k)) * (← read matrixB (← index k colsB j))) 0
      write result (← index i colsB j) sum)) result

def multiplyMmTransposedB (matrixA : Option (List R)) (rowsA colsA : Nat)
    (matrixBTransposed : Option (List R)) (rowsBT colsBT : Nat) (result : Option (List R)) :
    Outcome R :=
  checkNull matrixA "matrixA" result fun matrixA =>
  checkNull matrixBTransposed "matrixB_transposed" result fun matrixBTransposed =>
  checkNull result "result" result fun result =>
  if colsA ≠ colsBT then
    .threw "Incompatible dimensions for matrix multiplication (A * B^T)." (some result)
  else .ofRun do
    let result ← fillN result (← mulInt rowsA rowsBT) 0
    count 0 rowsA (fun i => count 0 rowsBT (fun j result => do
      let sum ← count 0 colsBT (fun k sum => do
        return sum +
          (← read matrixA (← index i colsA k)) * (← read matrixBTransposed (← index j colsBT k))) 0
      write result (← index i rowsBT j) sum)) result

def blockSize : Nat := 64

/-- `for (int i0 = 0; i0 < hi; i0 += blockSize)` -/
def blocks {S : Type} (hi : Nat) (body : Nat → S → Except Fault S) (s : S) : Except Fault S :=
  forLoop (fun i => addInt i blockSize) 0 hi body s

def multiplyMmOptimized (matrixA : Option (List R)) (rowsA colsA : Nat)
    (matrixB : Option (List R)) (rowsB colsB : Nat) (result : Option (List R)) : Outcome R :=
  checkNull matrixA "matrixA" result fun matrixA =>
  checkNull matrixB "matrixB" result fun matrixB =>
  checkNull result "result" result fun result =>
  if colsA ≠ rowsB then
    .threw "Incompatible dimensions for matrix multiplication." (some result)
  else .ofRun do
    let result ← fillN result (← mulInt rowsA colsB) 0
    blocks rowsA (fun i0 => blocks colsB (fun j0 => blocks colsA (fun k0 result => do
      let iMax := min (← addInt i0 blockSize) rowsA
      let jMax := min (← addInt j0 blockSize) colsB
      let kMax := min (← addInt k0 blockSize) colsA
      count i0 iMax (fun i => count k0 kMax (fun k result => do
        let aik ← read matrixA (← index i colsA k)
        count j0 jMax (fun j result => do
          let p ← index i colsB j
          write result p ((← read result p) + aik * (← read matrixB (← index k colsB j))))
          result)) result))) result

/-- `transpose_matrix` of the tests. -/
def transposeMatrix (matrix : List R) (rows cols : Nat) : Outcome R :=
  if rows = 0 ∨ cols = 0 then .threw "Matrix dimensions must be positive." none
  else
    match mulInt rows cols with
    | .error fault => .undefined fault
    | .ok size =>
        if matrix.length ≠ size then .threw "Matrix data size does not match dimensions." none
        else .ofRun do
          let transposed := List.replicate (← mulInt cols rows) 0
          count 0 rows (fun i => count 0 cols (fun j transposed => do
            let p ← index j rows i
            write transposed p (← read matrix (← index i cols j)))) transposed

/-! ### In range -/

theorem addInt_ok {a b : Nat} (h : a + b ≤ intMax) : addInt a b = .ok (a + b) := if_pos h

theorem mulInt_ok {a b : Nat} (h : a * b ≤ intMax) : mulInt a b = .ok (a * b) := if_pos h

theorem addInt_inv {a b c : Nat} (h : addInt a b = .ok c) : c = a + b ∧ a + b ≤ intMax := by
  rw [addInt] at h
  split at h
  · cases h
    exact ⟨rfl, by assumption⟩
  · cases h

end HftProject.Week1
