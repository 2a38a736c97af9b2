import HftProject.Week1.MatrixBlocks

/-!
The validation of `transpose_matrix` on a machine whose `int` wraps. The check, the allocation and
the indices use the same wrapped product: where it is the product, a call that does not throw
stays inside both vectors; where it is not, a vector of the wrapped size passes the check
(`transposeMatrix_sound_iff`).
-/

namespace HftProject.Week1.Wrapping

open Counting RowMajor

variable {R : Type} [NonUnitalNonAssocSemiring R]

/-- `static_cast<size_t>` -/
def toSize (n : Int32) : Nat := (n.toInt % 2 ^ 64).toNat

/-- `max_size()` of a vector of `double`. -/
def maxSize : Nat := (2 ^ 63 - 1) / 8

/-- `i * cols + j`, as an index of a vector. -/
def index (i : Nat) (cols : Int32) (j : Nat) : Nat :=
  toSize (Int32.ofNat i * cols + Int32.ofNat j)

def transposeMatrix (matrix : List R) (rows cols : Int32) : Outcome R :=
  if rows ≤ 0 ∨ cols ≤ 0 then .threw "Matrix dimensions must be positive." none
  else if matrix.length ≠ toSize (rows * cols) then
    .threw "Matrix data size does not match dimensions." none
  else if maxSize < toSize (cols * rows) then
    -- `std::length_error` of the constructor
    .threw "cannot create std::vector larger than max_size()" none
  else .ofRun <|
    count 0 rows.toInt.toNat (fun i => count 0 cols.toInt.toNat (fun j transposed => do
      write transposed (index j rows i) (← read matrix (index i cols j))))
      (List.replicate (toSize (cols * rows)) 0)

/-- The indices of the loops are inside the two vectors. -/
def IndicesInside (matrix : List R) (rows cols : Int32) : Prop :=
  ∀ i < rows.toInt.toNat, ∀ j < cols.toInt.toNat,
    index i cols j < matrix.length ∧ index j rows i < toSize (cols * rows)

/-! ### Products that are not wrapped -/

theorem toSize_eq {n : Int32} {k : Nat} (h : n.toInt = k) : toSize n = k := by
  have hlt := n.toInt_lt
  rw [toSize, h]
  omega

theorem pos_iff {n : Int32} : 0 < n ↔ 0 < n.toInt := by
  rw [Int32.lt_iff_toInt_lt, Int32.toInt_zero]

theorem not_le_zero {a b : Int32} (ha : 0 < a) (hb : 0 < b) : ¬ (a ≤ 0 ∨ b ≤ 0) :=
  not_or.mpr ⟨Int32.not_le.mpr ha, Int32.not_le.mpr hb⟩

theorem toNat_le_intMax (n : Int32) : n.toInt.toNat ≤ intMax := by
  have hlt := n.toInt_lt
  rw [intMax]
  omega

theorem toInt_mul_eq {a b : Int32} {m n : Nat} (ha : a.toInt = m) (hb : b.toInt = n)
    (h : m * n ≤ intMax) : (a * b).toInt = (m * n : Nat) := by
  rw [Int32.toInt_mul, ha, hb, ← Int.natCast_mul]
  rw [intMax] at h
  exact Int.bmod_eq_of_le (by omega) (by omega)

theorem index_eq {a : Int32} {i j rows cols : Nat} (ha : a.toInt = cols) (hi : i < rows)
    (hj : j < cols) (h : rows * cols ≤ intMax) : index i a j = i * cols + j := by
  have hlt := index_lt hi hj
  have hrows : rows ≤ rows * cols := Nat.le_mul_of_pos_right rows (Nat.zero_lt_of_lt hj)
  have hcols : cols ≤ rows * cols := Nat.le_mul_of_pos_left cols (Nat.zero_lt_of_lt hi)
  have hi' : (Int32.ofNat i).toInt = i := Int32.toInt_ofNat_of_lt (by rw [intMax] at h; omega)
  have hj' : (Int32.ofNat j).toInt = j := Int32.toInt_ofNat_of_lt (by rw [intMax] at h; omega)
  refine toSize_eq ?_
  rw [Int32.toInt_add, toInt_mul_eq hi' ha (by omega), hj', ← Int.natCast_add]
  rw [intMax] at h
  exact Int.bmod_eq_of_le (by omega) (by omega)

/-- Within `int` this is `transpose_matrix` as on any machine. -/
theorem transposeMatrix_eq (matrix : List R) {a b : Int32} {rows cols : Nat} (ha : a.toInt = rows)
    (hb : b.toInt = cols) (hrows : 0 < a) (hcols : 0 < b) (h : rows * cols ≤ intMax) :
    transposeMatrix matrix a b = Week1.transposeMatrix matrix rows cols := by
  have h' : cols * rows ≤ intMax := by rwa [Nat.mul_comm]
  have hpos : ¬ (rows = 0 ∨ cols = 0) := by
    have := pos_iff.mp hrows
    have := pos_iff.mp hcols
    omega
  have hsize : toSize (a * b) = rows * cols := toSize_eq (toInt_mul_eq ha hb h)
  have hsize' : toSize (b * a) = cols * rows := toSize_eq (toInt_mul_eq hb ha h')
  have hmax : ¬ maxSize < cols * rows := by
    rw [intMax] at h'
    rw [maxSize]
    omega
  rw [transposeMatrix, Week1.transposeMatrix, if_neg (not_le_zero hrows hcols),
    if_neg hpos, mulInt_ok h, hsize, hsize', if_neg hmax, ha, hb]
  simp only [mulInt_ok h', Int.toNat_natCast]
  refine if_congr Iff.rfl rfl (congrArg Outcome.ofRun ?_)
  refine forLoop_congr fun i transposed hi => forLoop_congr fun j transposed hj => ?_
  rw [index_eq hb hi hj h, index_eq ha hj hi h', Week1.index_ok hi hj h, Week1.index_ok hj hi h']
  rfl

/-! ### Loops that copy -/

/-- What the inner loop does in one pass. -/
def copyEntry (matrix : List R) (p q : Nat) (transposed : List R) : Except Fault (List R) := do
  write transposed q (← read matrix p)

variable {matrix array t : List R}

theorem copyEntry_ok {p q : Nat} (hp : p < matrix.length) (hq : q < array.length) :
    copyEntry matrix p q array = .ok (array.set q (cell matrix p)) := by
  simp only [copyEntry, bind, Except.bind, read_ok hp]
  exact write_ok hq _

omit [NonUnitalNonAssocSemiring R] in
theorem copyEntry_inv {p q : Nat} (h : copyEntry matrix p q array = .ok t) :
    p < matrix.length ∧ q < array.length ∧ t.length = array.length := by
  obtain ⟨x, hread, hwrite⟩ := Run.except_bind_inv h
  obtain ⟨hq, rfl⟩ := write_inv hwrite
  exact ⟨read_inv hread, hq, List.length_set⟩

section Copying

variable {m n : Nat} {p q : Nat → Nat → Nat}

omit [NonUnitalNonAssocSemiring R] in
/-- A row that has been copied was inside, and has left the array as long as it was. -/
theorem copyRow_inv {i : Nat}
    (h : count 0 n (fun j => copyEntry matrix (p i j) (q i j)) array = .ok t) :
    t.length = array.length ∧ ∀ j < n, p i j < matrix.length ∧ q i j < array.length := by
  obtain ⟨ht, hpasses⟩ := forLoop_inv (P := fun s => s.length = array.length)
    (fun i j hj => (addInt_inv hj).1) Nat.one_pos
    (fun j s s' h hs => (copyEntry_inv h).2.2.trans hs) h rfl
  refine ⟨ht, fun j hj => ?_⟩
  obtain ⟨⟨s, s', hs, hpass⟩, -⟩ := hpasses j (by omega)
  rw [Nat.zero_add, Nat.mul_one] at hpass
  obtain ⟨hp, hq, -⟩ := copyEntry_inv hpass
  exact ⟨hp, hs ▸ hq⟩

/-- Loops that copy come to their end if and only if all their places are inside. -/
theorem copy_ok_iff (matrix array : List R) (p q : Nat → Nat → Nat) (hm : m ≤ intMax)
    (hn : n ≤ intMax) :
    (∃ t, count 0 m (fun i => count 0 n (fun j => copyEntry matrix (p i j) (q i j))) array =
        .ok t) ↔
      ∀ i < m, ∀ j < n, p i j < matrix.length ∧ q i j < array.length := by
  constructor
  · rintro ⟨t, h⟩ i hi
    obtain ⟨-, hpasses⟩ := forLoop_inv (P := fun s => s.length = array.length)
      (fun i j hj => (addInt_inv hj).1) Nat.one_pos
      (fun i s s' h hs => (copyRow_inv h).1.trans hs) h rfl
    obtain ⟨⟨s, s', hs, hpass⟩, -⟩ := hpasses i (by omega)
    rw [Nat.zero_add, Nat.mul_one] at hpass
    exact hs ▸ (copyRow_inv hpass).2
  · intro h
    have hrow : ∀ i s, 0 ≤ i → i < m → s.length = array.length →
        ∃ s', count 0 n (fun j => copyEntry matrix (p i j) (q i j)) s = .ok s' ∧
          s'.length = array.length := by
      intro i s _ hi hs
      refine count_rule (P := fun _ (s : List R) => s.length = array.length) hn ?_
        (Nat.zero_le n) hs
      intro j s _ hj hs
      obtain ⟨hp, hq⟩ := h i hi j hj
      exact ⟨_, copyEntry_ok hp (hs ▸ hq), List.length_set.trans hs⟩
    obtain ⟨t, hloop, -⟩ := count_rule (P := fun _ (s : List R) => s.length = array.length) hm
      hrow (Nat.zero_le m) rfl
    exact ⟨t, hloop⟩

end Copying

/-! ### What the check says -/

/-- A negative product is no size of a vector. -/
theorem toSize_le_maxSize {n : Int32} : toSize n ≤ maxSize ↔ 0 ≤ n.toInt := by
  have hle := n.le_toInt
  have hlt := n.toInt_lt
  rw [toSize, maxSize]
  omega

variable {rows cols : Int32}

/-- The loops, where the check passes. -/
theorem transposeMatrix_run (hrows : 0 < rows) (hcols : 0 < cols)
    (hlength : (matrix.length : Int) = (rows * cols).toInt) :
    transposeMatrix matrix rows cols = .ofRun (count 0 rows.toInt.toNat (fun i =>
      count 0 cols.toInt.toNat (fun j => copyEntry matrix (index i cols j) (index j rows i)))
      (List.replicate (toSize (cols * rows)) 0)) := by
  have hsize : toSize (rows * cols) = matrix.length := toSize_eq hlength.symm
  have hmax : toSize (cols * rows) ≤ maxSize := by
    rw [Int32.mul_comm, toSize_le_maxSize]
    omega
  rw [transposeMatrix, if_neg (not_le_zero hrows hcols), if_neg (not_not_intro hsize.symm),
    if_neg (Nat.not_lt.mpr hmax)]
  rfl

theorem not_threw_iff (hrows : 0 < rows) (hcols : 0 < cols) :
    (∀ what result, transposeMatrix matrix rows cols ≠ .threw what result) ↔
      (matrix.length : Int) = (rows * cols).toInt := by
  constructor
  · intro h
    rw [transposeMatrix, if_neg (not_le_zero hrows hcols)] at h
    split at h
    · exact absurd rfl (h _ _)
    · split at h
      · exact absurd rfl (h _ _)
      · rename_i hsize hmax
        rw [Nat.not_lt, Int32.mul_comm, toSize_le_maxSize] at hmax
        obtain ⟨size, heq⟩ := Int.eq_ofNat_of_zero_le hmax
        rw [not_not.mp hsize, toSize_eq heq, heq]
  · intro hlength what result h
    rw [transposeMatrix_run hrows hcols hlength] at h
    revert h
    generalize count _ _ _ _ = run
    cases run with
    | error fault => exact nofun
    | ok t => exact nofun

/-- A call returns exactly if it does not throw and its loops stay inside. -/
theorem transposeMatrix_returned_iff (hrows : 0 < rows) (hcols : 0 < cols) :
    (∃ t, transposeMatrix matrix rows cols = .returned t) ↔
      (matrix.length : Int) = (rows * cols).toInt ∧ IndicesInside matrix rows cols := by
  have hcopy := copy_ok_iff matrix (List.replicate (toSize (cols * rows)) 0)
    (fun i j => index i cols j) (fun i j => index j rows i) (toNat_le_intMax rows)
    (toNat_le_intMax cols)
  rw [List.length_replicate] at hcopy
  constructor
  · rintro ⟨t, h⟩
    have hlength := (not_threw_iff hrows hcols).mp fun what result h' => by
      rw [h] at h'
      cases h'
    rw [transposeMatrix_run hrows hcols hlength] at h
    exact ⟨hlength, hcopy.mp ⟨t, Outcome.ofRun_inv h⟩⟩
  · rintro ⟨hlength, hinside⟩
    obtain ⟨t, hloop⟩ := hcopy.mpr hinside
    exact ⟨t, by rw [transposeMatrix_run hrows hcols hlength, hloop]; rfl⟩

/-- Within `int` a vector of the right size is transposed, so that the indices are inside. -/
theorem indicesInside_of_fits {m n : Nat} (hrows : 0 < rows) (hcols : 0 < cols)
    (hm : rows.toInt = m) (hn : cols.toInt = n) (hmn : m * n ≤ intMax)
    (hmatrix : matrix.length = m * n) : IndicesInside matrix rows cols := by
  have hm' := hm ▸ toNat_le_intMax rows
  have hn' := hn ▸ toNat_le_intMax cols
  have hmpos := hm ▸ pos_iff.mp hrows
  have hnpos := hn ▸ pos_iff.mp hcols
  obtain ⟨t, hrun, -⟩ := Week1.transposeMatrix_eq hmatrix (Int.natCast_pos.mp hmpos)
    (Int.natCast_pos.mp hnpos) hm' hn' hmn
  rw [← transposeMatrix_eq matrix hm hn hrows hcols hmn] at hrun
  exact ((transposeMatrix_returned_iff hrows hcols).mp ⟨t, hrun⟩).2

/-- A size that the wrapped product can be, and is. -/
theorem eq_toInt_mul_iff {size : Nat} :
    (size : Int) = (rows * cols).toInt ↔
      size < 2 ^ 31 ∧ rows.toInt * cols.toInt % 2 ^ 32 = size := by
  rw [Int32.toInt_mul, Int.bmod_def]
  split <;> omega

/-- A call that does not throw has a vector of `rows * cols` numbers and stays inside it and its
own, except where the product is not within `int` and the vector has the size that wrapping leaves
of it. -/
theorem transposeMatrix_sound_iff (matrix : List R) {rows cols : Int32} (hrows : 0 < rows)
    (hcols : 0 < cols) :
    ((∀ what result, transposeMatrix matrix rows cols ≠ .threw what result) →
        (matrix.length : Int) = rows.toInt * cols.toInt ∧ IndicesInside matrix rows cols) ↔
      rows.toInt * cols.toInt < 2 ^ 31 ∨ 2 ^ 31 ≤ matrix.length ∨
        rows.toInt * cols.toInt % 2 ^ 32 ≠ matrix.length := by
  rw [not_threw_iff hrows hcols]
  constructor
  · intro h
    by_contra hwrapped
    obtain ⟨hbig, hleft⟩ := not_or.mp hwrapped
    obtain ⟨hsize, hmod⟩ := not_or.mp hleft
    obtain ⟨hproduct, -⟩ := h (eq_toInt_mul_iff.mpr ⟨by omega, not_not.mp hmod⟩)
    omega
  · intro h hlength
    obtain ⟨hsize, hmod⟩ := eq_toInt_mul_iff.mp hlength
    have hfits : rows.toInt * cols.toInt < 2 ^ 31 := by
      rcases h with hfits | hbig | hne
      · exact hfits
      · omega
      · exact absurd hmod hne
    obtain ⟨m, hm⟩ := Int.eq_ofNat_of_zero_le (pos_iff.mp hrows).le
    obtain ⟨n, hn⟩ := Int.eq_ofNat_of_zero_le (pos_iff.mp hcols).le
    rw [hm, hn, ← Int.natCast_mul] at hfits
    have hmn : m * n ≤ intMax := by
      rw [intMax]
      omega
    have hmatrix : matrix.length = m * n := by
      rwa [toInt_mul_eq hm hn hmn, Int.natCast_inj] at hlength
    refine ⟨by rw [hmatrix, hm, hn, Int.natCast_mul], ?_⟩
    exact indicesInside_of_fits hrows hcols hm hn hmn hmatrix

theorem transposeMatrix_two_three :
    transposeMatrix [1, 2, 3, 4, 5, 6] 2 3 = .returned [1, 4, 2, 5, 3, 6] ∧
      IndicesInside [1, 2, 3, 4, 5, 6] 2 3 := by
  have hrun : transposeMatrix [1, 2, 3, 4, 5, 6] 2 3 = .returned [1, 4, 2, 5, 3, 6] := by
    rfl
  have hsound := (transposeMatrix_sound_iff [1, 2, 3, 4, 5, 6] (by decide : (0 : Int32) < 2)
    (by decide : (0 : Int32) < 3)).mpr (.inl (by decide))
  exact ⟨hrun, (hsound fun what result h => by rw [hrun] at h; cases h).2⟩

/-- The wrapped product of `2^16` and `2^16` is `0`. -/
theorem transposeMatrix_wraps :
    transposeMatrix ([] : List Nat) 65536 65536 = .undefined .outOfBounds ∧
      ¬ ((∀ what result, transposeMatrix ([] : List Nat) 65536 65536 ≠ .threw what result) →
        (([] : List Nat).length : Int) = (65536 : Int32).toInt * (65536 : Int32).toInt ∧
          IndicesInside ([] : List Nat) 65536 65536) := by
  have hrun : transposeMatrix ([] : List Nat) 65536 65536 = .undefined .outOfBounds := by
    rfl
  refine ⟨hrun, fun h => ?_⟩
  have hlength := (h fun what result h' => by rw [hrun] at h'; cases h').1
  exact absurd hlength (by decide)

end HftProject.Week1.Wrapping
