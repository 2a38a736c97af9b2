import Mathlib.Algebra.Order.Ring.Nat
import Mathlib.Data.List.GetD

/-!
Tables in row-major order: entry `(i, j)` of a table with `cols` columns stands at `i * cols + j`.
A list is determined by the table it holds (`Tabulates.unique`).
-/

namespace HftProject.RowMajor

variable {R : Type} {rows cols i i' j j' : Nat} {f : Nat → Nat → R} {xs ys : List R}

theorem index_lt (hi : i < rows) (hj : j < cols) : i * cols + j < rows * cols := by
  have hrow := Nat.mul_le_mul_right cols (Nat.succ_le_of_lt hi)
  rw [Nat.succ_mul] at hrow
  omega

theorem index_div (hj : j < cols) : (i * cols + j) / cols = i := by
  rw [Nat.mul_comm, Nat.mul_add_div (by omega), Nat.div_eq_of_lt hj, Nat.add_zero]

/-- Different entries stand in different places. -/
theorem index_inj (hj : j < cols) (hj' : j' < cols) (h : i * cols + j = i' * cols + j') :
    i = i' ∧ j = j' := by
  have hrow := congrArg (· / cols) h
  simp only [index_div hj, index_div hj'] at hrow
  subst hrow
  exact ⟨rfl, by omega⟩

/-- Every place is that of an entry. -/
theorem exists_index {p : Nat} (hp : p < rows * cols) :
    ∃ i < rows, ∃ j < cols, p = i * cols + j := by
  have hcols : 0 < cols := by
    by_contra hzero
    rw [Nat.eq_zero_of_not_pos hzero, Nat.mul_zero] at hp
    exact absurd hp (Nat.not_lt_zero p)
  refine ⟨p / cols, (Nat.div_lt_iff_lt_mul hcols).mpr hp, p % cols, Nat.mod_lt p hcols, ?_⟩
  rw [Nat.mul_comm]
  exact (Nat.div_add_mod p cols).symm

/-- The list holds the table `f`. -/
structure Tabulates (rows cols : Nat) (f : Nat → Nat → R) (xs : List R) : Prop where
  length : xs.length = rows * cols
  entry : ∀ i < rows, ∀ j < cols, xs[i * cols + j]? = some (f i j)

theorem Tabulates.unique (h : Tabulates rows cols f xs) (h' : Tabulates rows cols f ys) :
    xs = ys := by
  refine List.ext_getElem? fun p => ?_
  by_cases hp : p < rows * cols
  · obtain ⟨i, hi, j, hj, rfl⟩ := exists_index hp
    rw [h.entry i hi j hj, h'.entry i hi j hj]
  · rw [List.getElem?_eq_none (by rw [h.length]; omega),
      List.getElem?_eq_none (by rw [h'.length]; omega)]

theorem Tabulates.congr {g : Nat → Nat → R} (h : Tabulates rows cols f xs)
    (hfg : ∀ i < rows, ∀ j < cols, f i j = g i j) : Tabulates rows cols g xs where
  length := h.length
  entry i hi j hj := by rw [h.entry i hi j hj, hfg i hi j hj]

/-- Any list of the right length holds a table. -/
theorem tabulates_getD (d : R) (h : xs.length = rows * cols) :
    Tabulates rows cols (fun i j => xs.getD (i * cols + j) d) xs where
  length := h
  entry i hi j hj := by
    have hp : i * cols + j < xs.length := h ▸ index_lt hi hj
    rw [List.getD_eq_getElem _ _ hp, List.getElem?_eq_getElem hp]

end HftProject.RowMajor
