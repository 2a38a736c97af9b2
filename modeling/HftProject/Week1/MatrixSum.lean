import HftProject.Week1.MatrixOps
import Mathlib.Algebra.BigOperators.Group.List.Basic

/-!
The sums of `hw1`. The accumulator is a `long long`, but on its way through `add` it is narrowed to
`int`, and `add` returns an `int`: both walks leave what is defined as soon as the sum of the
elements so far, row by row, is not an `int` (`sumMatrix_eq_iff`).
-/

namespace HftProject.Week1.Hw1

open Counting

/-- `SIZE` -/
def size : Nat := 4096

/-- The number is an `int`. -/
def FitsInt (n : Int) : Prop := -2 ^ 31 ≤ n ∧ n < 2 ^ 31

instance (n : Int) : Decidable (FitsInt n) := inferInstanceAs (Decidable (_ ∧ _))

/-- The number is a `long long`. -/
def FitsLongLong (n : Int) : Prop := -2 ^ 63 ≤ n ∧ n < 2 ^ 63

def getElement (matrix : List (List Int32)) (row col : Nat) : Except Fault Int32 := do
  read (← read matrix row) col

def add (a b : Int32) : Except Fault Int32 :=
  if FitsInt (a.toInt + b.toInt) then .ok (a + b) else .error .overflow

def addOptimized (a b : Int32) : Except Fault Int32 :=
  if FitsInt (a.toInt + b.toInt) then .ok (a + b) else .error .overflow

def sumMatrixBasic (matrix : List (List Int32)) : Except Fault Int64 :=
  count 0 size (fun i => count 0 size (fun j sum => do
    let element ← getElement matrix i j
    return (← add sum.toInt32 element).toInt64)) 0

def sumMatrixOptimized (matrix : List (List Int32)) : Except Fault Int64 :=
  count 0 size (fun i sum => do
    let rowPtr ← read matrix i
    count 0 size (fun j sum => do
      let element ← read rowPtr j
      return (← addOptimized sum.toInt32 element).toInt64) sum) 0

/-! ### The walk -/

/-- What a step of either walk does. -/
def accumulate (sum : Int64) (element : Int32) : Except Fault Int64 := do
  return (← add sum.toInt32 element).toInt64

/-- As many rows as columns, `SIZE` of each. -/
structure Square (matrix : List (List Int32)) : Prop where
  rows : matrix.length = size
  cols : ∀ row ∈ matrix, row.length = size

section Walk

variable {matrix : List (List Int32)}

theorem count_foldlM {X S : Type} {n : Nat} {f : S → X → Except Fault S}
    {body : Nat → S → Except Fault S} {xs : List X} (hlength : xs.length = n) (hn : n ≤ intMax)
    (pass : ∀ i (hi : i < xs.length) s, body i s = f s xs[i]) (s : S) :
    count 0 n body s = xs.foldlM f s := by
  subst hlength
  exact forLoop_foldlM (fun i hi => addInt_ok (by omega)) pass s

theorem foldlM_flatten {E S X : Type} (f : S → X → Except E S) (xss : List (List X)) (s : S) :
    xss.foldlM (fun s xs => xs.foldlM f s) s = xss.flatten.foldlM f s := by
  induction xss generalizing s with
  | nil => rfl
  | cons xs xss ih =>
      rw [List.foldlM_cons, List.flatten_cons, List.foldlM_append]
      exact congrArg _ (funext ih)

theorem read_getElem {X : Type} {xs : List X} {i : Nat} (h : i < xs.length) :
    read xs i = .ok xs[i] := by
  rw [read, List.getElem?_eq_getElem h]

theorem sumMatrixOptimized_eq (h : Square matrix) :
    sumMatrixOptimized matrix = matrix.flatten.foldlM accumulate 0 := by
  rw [← foldlM_flatten]
  refine count_foldlM h.rows (by decide) (fun i hi sum => ?_) 0
  rw [read_getElem hi]
  refine count_foldlM (h.cols _ (List.getElem_mem hi)) (by decide) (fun j hj sum => ?_) sum
  rw [read_getElem hj]
  rfl

theorem sumMatrixBasic_eq (h : Square matrix) :
    sumMatrixBasic matrix = matrix.flatten.foldlM accumulate 0 := by
  rw [← foldlM_flatten]
  refine count_foldlM h.rows (by decide) (fun i hi sum => ?_) 0
  refine count_foldlM (h.cols _ (List.getElem_mem hi)) (by decide) (fun j hj sum => ?_) sum
  rw [getElement, read_getElem hi]
  change (read matrix[i] j >>= fun element => _) = _
  rw [read_getElem hj]
  rfl

end Walk

/-! ### Sums so far -/

/-- The exact sum. -/
def total (elements : List Int32) : Int := (elements.map Int32.toInt).sum

theorem total_cons (element : Int32) (elements : List Int32) :
    total (element :: elements) = element.toInt + total elements := List.sum_cons

/-- Every sum of the first elements of the walk is an `int`. -/
def PrefixesFit (matrix : List (List Int32)) : Prop :=
  ∀ n, FitsInt (total (matrix.flatten.take n))

/-- An accumulator that is an `int` is not changed by the narrowing. -/
theorem toInt_narrow {sum : Int64} (h : FitsInt sum.toInt) : sum.toInt32.toInt = sum.toInt := by
  obtain ⟨hlo, hhi⟩ := h
  rw [Int64.toInt_toInt32]
  exact Int.bmod_eq_of_le (by omega) (by omega)

section Accumulate

variable {sum sum' : Int64} {element : Int32}

theorem accumulate_ok (hsum : FitsInt sum.toInt) (h : FitsInt (sum.toInt + element.toInt)) :
    ∃ sum', accumulate sum element = .ok sum' ∧ sum'.toInt = sum.toInt + element.toInt := by
  have hadd : (sum.toInt32 + element).toInt = sum.toInt + element.toInt := by
    obtain ⟨hlo, hhi⟩ := h
    rw [Int32.toInt_add, toInt_narrow hsum]
    exact Int.bmod_eq_of_le (by omega) (by omega)
  refine ⟨(sum.toInt32 + element).toInt64, ?_, by rw [Int32.toInt_toInt64, hadd]⟩
  rw [accumulate, add, if_pos (by rwa [toInt_narrow hsum])]
  rfl

theorem accumulate_inv (hsum : FitsInt sum.toInt) (h : accumulate sum element = .ok sum') :
    FitsInt (sum.toInt + element.toInt) ∧ sum'.toInt = sum.toInt + element.toInt := by
  have hfits : FitsInt (sum.toInt + element.toInt) := by
    obtain ⟨s, hadd, -⟩ := Run.except_bind_inv h
    rw [add, toInt_narrow hsum] at hadd
    split at hadd
    · assumption
    · cases hadd
  obtain ⟨sum'', hok, heq⟩ := accumulate_ok hsum hfits
  obtain rfl := Except.ok.inj (hok.symm.trans h)
  exact ⟨hfits, heq⟩

theorem foldlM_accumulate_iff (elements : List Int32) (hsum : FitsInt sum.toInt) :
    (∃ t, elements.foldlM accumulate sum = .ok t ∧ t.toInt = sum.toInt + total elements) ↔
      ∀ n, FitsInt (sum.toInt + total (elements.take n)) := by
  induction elements generalizing sum with
  | nil =>
      have hzero : sum.toInt + total [] = sum.toInt := Int.add_zero _
      constructor
      · intro _ n
        rw [List.take_nil, hzero]
        exact hsum
      · intro _
        exact ⟨sum, rfl, hzero.symm⟩
  | cons element elements ih =>
      rw [total_cons, ← add_assoc]
      constructor
      · rintro ⟨t, hfold, ht⟩ n
        obtain ⟨sum', hstep, hrest⟩ := Run.except_bind_inv hfold
        obtain ⟨hfits, hsum'⟩ := accumulate_inv hsum hstep
        cases n with
        | zero =>
            rw [List.take_zero]
            exact (Int.add_zero sum.toInt).symm ▸ hsum
        | succ n =>
            rw [List.take_succ_cons, total_cons, ← add_assoc]
            rw [← hsum'] at hfits ht ⊢
            exact (ih hfits).mp ⟨t, hrest, ht⟩ n
      · intro h
        have hrest : ∀ n, FitsInt (sum.toInt + element.toInt + total (elements.take n)) := by
          intro n
          have hn := h (n + 1)
          rwa [List.take_succ_cons, total_cons, ← add_assoc] at hn
        have hfits : FitsInt (sum.toInt + element.toInt) := by
          have hnone := hrest 0
          rwa [List.take_zero, show total [] = 0 from rfl, add_zero] at hnone
        obtain ⟨sum', hstep, hsum'⟩ := accumulate_ok hsum hfits
        rw [← hsum'] at hfits hrest ⊢
        obtain ⟨t, hfold, ht⟩ := (ih hfits).mpr hrest
        refine ⟨t, ?_, ht⟩
        rw [List.foldlM_cons, hstep]
        exact hfold

end Accumulate

/-! ### The sum of all -/

theorem total_bounds (elements : List Int32) :
    -(2 ^ 31 * (elements.length : Int)) ≤ total elements ∧
      total elements ≤ 2 ^ 31 * (elements.length : Int) := by
  induction elements with
  | nil => decide
  | cons element elements ih =>
      have hlo := element.le_toInt
      have hhi := element.toInt_lt
      rw [total_cons, List.length_cons]
      omega

theorem Square.length_flatten {matrix : List (List Int32)} (h : Square matrix) :
    matrix.flatten.length = size * size := by
  have hrows : matrix.map List.length = List.replicate size size := by
    refine List.eq_replicate_iff.mpr ⟨by rw [List.length_map, h.rows], fun n hn => ?_⟩
    obtain ⟨row, hrow, rfl⟩ := List.mem_map.mp hn
    exact h.cols row hrow
  rw [List.length_flatten, hrows, List.sum_replicate_nat]

/-- Any sum of so many elements is a `long long`. -/
theorem Square.fitsLongLong {matrix : List (List Int32)} (h : Square matrix) :
    FitsLongLong (total matrix.flatten) := by
  obtain ⟨hlo, hhi⟩ := total_bounds matrix.flatten
  rw [h.length_flatten, size] at hlo hhi
  constructor <;> omega

theorem walk_iff (matrix : List (List Int32)) :
    (∃ sum, matrix.flatten.foldlM accumulate 0 = .ok sum ∧ sum.toInt = total matrix.flatten) ↔
      PrefixesFit matrix := by
  have hzero : FitsInt (0 : Int64).toInt := by decide
  have hiff := foldlM_accumulate_iff matrix.flatten hzero
  simp only [Int64.toInt_zero, zero_add] at hiff
  exact hiff

/-- Either walk returns the sum of all elements exactly if every sum on the way is an `int`. -/
theorem sumMatrix_eq_iff {matrix : List (List Int32)} (h : Square matrix) :
    FitsLongLong (total matrix.flatten) ∧
      ((∃ sum, sumMatrixBasic matrix = .ok sum ∧ sum.toInt = total matrix.flatten) ↔
        PrefixesFit matrix) ∧
      ((∃ sum, sumMatrixOptimized matrix = .ok sum ∧ sum.toInt = total matrix.flatten) ↔
        PrefixesFit matrix) := by
  rw [sumMatrixBasic_eq h, sumMatrixOptimized_eq h]
  exact ⟨h.fitsLongLong, walk_iff matrix, walk_iff matrix⟩

theorem square_replicate (element : Int32) :
    Square (List.replicate size (List.replicate size element)) := by
  refine ⟨List.length_replicate, fun row hrow => ?_⟩
  rw [List.eq_of_mem_replicate hrow, List.length_replicate]

theorem total_take_replicate (n : Nat) (element : Int32) :
    total ((List.replicate size (List.replicate size element)).flatten.take n) =
      (min n (size * size) : Nat) * element.toInt := by
  rw [List.flatten_replicate_replicate, List.take_replicate, total, List.map_replicate,
    List.sum_replicate_int]

theorem sumMatrix_eq_iff_zero :
    ∃ sum, sumMatrixBasic (List.replicate size (List.replicate size 0)) = .ok sum ∧
      sum.toInt = total (List.replicate size (List.replicate size 0)).flatten := by
  refine (sumMatrix_eq_iff (square_replicate 0)).2.1.mpr fun n => ?_
  rw [total_take_replicate, Int32.toInt_zero, Int.mul_zero]
  decide

/-- Every element is `2 ^ 31 - 1`: the sum of the first two is no `int`. -/
theorem sumMatrix_overflows :
    (¬ ∃ sum, sumMatrixBasic (List.replicate size (List.replicate size Int32.maxValue)) = .ok sum ∧
      sum.toInt = total (List.replicate size (List.replicate size Int32.maxValue)).flatten) ∧
    ¬ ∃ sum, sumMatrixOptimized (List.replicate size (List.replicate size Int32.maxValue)) =
        .ok sum ∧
      sum.toInt = total (List.replicate size (List.replicate size Int32.maxValue)).flatten := by
  have hover : ¬ PrefixesFit (List.replicate size (List.replicate size Int32.maxValue)) := by
    intro hfit
    have htwo := hfit 2
    rw [total_take_replicate] at htwo
    exact absurd htwo (by decide)
  rw [sumMatrixBasic_eq (square_replicate _), sumMatrixOptimized_eq (square_replicate _)]
  exact ⟨fun h => hover ((walk_iff _).mp h), fun h => hover ((walk_iff _).mp h)⟩

end HftProject.Week1.Hw1
