import HftProject.Week1.MatrixOps

/-!
What the matrix routines compute, for dimensions whose products are within `int` and arrays of
matching sizes: `multiply_mm_naive` the table of all sums over `k`, and the other layouts the same
of transposed matrices (`layouts_agree`). Every index is within its array.
-/

namespace HftProject.Week1

open Counting RowMajor

/-! ### Indices -/

theorem index_ok {rows cols i j : Nat} (hi : i < rows) (hj : j < cols)
    (hsize : rows * cols ≤ intMax) : index i cols j = .ok (i * cols + j) := by
  have hlt := index_lt hi hj
  rw [index, mulInt_ok (by omega)]
  exact addInt_ok (by omega)

section Loops

variable {S : Type} {lo hi : Nat} {body : Nat → S → Except Fault S} {s : S}

theorem addInt_one (hhi : hi ≤ intMax) : ∀ i < hi, addInt i 1 = .ok (i + 1) :=
  fun _ hi => addInt_ok (by omega)

theorem count_rule {P : Nat → S → Prop} (hhi : hi ≤ intMax)
    (pass : ∀ i s, lo ≤ i → i < hi → P i s → ∃ s', body i s = .ok s' ∧ P (i + 1) s')
    (hle : lo ≤ hi) (h : P lo s) : ∃ t, count lo hi body s = .ok t ∧ P hi t :=
  forLoop_rule (addInt_one hhi) pass hle h

end Loops

variable {R : Type} [NonUnitalNonAssocSemiring R]

/-! ### Arrays -/

/-- The number at a place of an array. -/
def cell (array : List R) (p : Nat) : R := array.getD p 0

theorem cell_eq (array : List R) (p : Nat) : cell array p = array[p]?.getD 0 :=
  List.getD_eq_getElem?_getD

theorem read_ok {array : List R} {p : Nat} (h : p < array.length) :
    read array p = .ok (cell array p) := by
  rw [read, List.getElem?_eq_getElem h, cell, List.getD_eq_getElem _ _ h]

omit [NonUnitalNonAssocSemiring R] in
theorem write_ok {array : List R} {p : Nat} (h : p < array.length) (x : R) :
    write array p x = .ok (array.set p x) := if_pos h

omit [NonUnitalNonAssocSemiring R] in
theorem read_inv {array : List R} {p : Nat} {x : R} (h : read array p = .ok x) :
    p < array.length := by
  rw [read] at h
  split at h
  · exact (List.getElem?_eq_some_iff.mp (by assumption)).1
  · cases h

omit [NonUnitalNonAssocSemiring R] in
theorem write_inv {array array' : List R} {p : Nat} {x : R} (h : write array p x = .ok array') :
    p < array.length ∧ array' = array.set p x := by
  rw [write] at h
  split at h
  · cases h
    exact ⟨by assumption, rfl⟩
  · cases h

theorem fillN_ok {array : List R} {n : Nat} (h : array.length = n) :
    fillN array n (0 : R) = .ok (List.replicate n 0) := by
  rw [fillN, if_pos (le_of_eq h.symm), ← h, List.drop_length, List.append_nil]

/-- A loop that adds a number in each pass. -/
theorem count_sum {hi : Nat} (hhi : hi ≤ intMax) {body : Nat → R → Except Fault R} {f : Nat → R}
    (pass : ∀ k < hi, ∀ sum, body k sum = .ok (sum + f k)) (s : R) :
    count 0 hi body s = .ok (s + ∑ k ∈ Finset.range hi, f k) := by
  obtain ⟨t, hloop, rfl⟩ := count_rule (P := fun i t => t = s + ∑ k ∈ Finset.range i, f k) hhi
    (fun i t _ hi h => ⟨_, pass i hi t, by rw [h, Finset.sum_range_succ, add_assoc]⟩)
    (Nat.zero_le hi) (s := s) (by simp)
  exact hloop

omit [NonUnitalNonAssocSemiring R] in
/-- Two nested loops that write each entry of a table once, each in its own place. -/
theorem count_table {rows cols size : Nat} (hrows : rows ≤ intMax) (hcols : cols ≤ intMax)
    (place : Nat → Nat → Nat) (value : Nat → Nat → R)
    (body : Nat → Nat → List R → Except Fault (List R))
    (hplace : ∀ i < rows, ∀ j < cols, place i j < size)
    (hinj : ∀ i < rows, ∀ j < cols, ∀ i' < rows, ∀ j' < cols, place i j = place i' j' →
      i = i' ∧ j = j')
    (pass : ∀ i < rows, ∀ j < cols, ∀ array : List R, array.length = size →
      body i j array = .ok (array.set (place i j) (value i j)))
    {array : List R} (h : array.length = size) :
    ∃ t, count 0 rows (fun i => count 0 cols (body i)) array = .ok t ∧ t.length = size ∧
      ∀ i < rows, ∀ j < cols, t[place i j]? = some (value i j) := by
  -- what has been written before the pass `(i, j)`
  let Written : Nat → Nat → List R → Prop := fun i j t => t.length = size ∧
    ∀ i' < rows, ∀ j' < cols, i' < i ∨ i' = i ∧ j' < j → t[place i' j']? = some (value i' j')
  have hinner : ∀ i j t, i < rows → j < cols → Written i j t →
      ∃ t', body i j t = .ok t' ∧ Written i (j + 1) t' := by
    rintro i j t hi hj ⟨hlength, hwritten⟩
    refine ⟨_, pass i hi j hj t hlength, by rw [List.length_set, hlength], ?_⟩
    intro i' hi' j' hj' hbefore
    by_cases hsame : place i j = place i' j'
    · obtain ⟨rfl, rfl⟩ := hinj i hi j hj i' hi' j' hj' hsame
      rw [List.getElem?_set_self (by rw [hlength]; exact hplace i hi j hj)]
    · rw [List.getElem?_set_ne hsame]
      refine hwritten i' hi' j' hj' ?_
      rcases hbefore with hlt | ⟨rfl, hlt⟩
      · exact .inl hlt
      · refine .inr ⟨rfl, ?_⟩
        rcases Nat.lt_succ_iff_lt_or_eq.mp hlt with hlt | rfl
        · exact hlt
        · exact absurd rfl hsame
  obtain ⟨t, hloop, hlength, hwritten⟩ := count_rule (P := fun i t => Written i 0 t) hrows
    (fun i t _ hi ht => by
      obtain ⟨t', hrow, hlength, hwritten⟩ := count_rule (P := fun j t => Written i j t) hcols
        (fun j t _ hj ht => hinner i j t hi hj ht) (Nat.zero_le cols) ht
      refine ⟨t', hrow, hlength, fun i' hi' j' hj' hbefore => hwritten i' hi' j' hj' ?_⟩
      rcases hbefore with hlt | ⟨-, hlt⟩
      · rcases Nat.lt_succ_iff_lt_or_eq.mp hlt with hlt | rfl
        · exact .inl hlt
        · exact .inr ⟨rfl, hj'⟩
      · exact absurd hlt (Nat.not_lt_zero j'))
    (Nat.zero_le rows) (s := array)
    ⟨h, fun i' _ j' _ hbefore => by omega⟩
  exact ⟨t, hloop, hlength, fun i hi j hj => hwritten i hi j hj (.inl hi)⟩

/-! ### Products of matrices -/

/-- Entry `(i, j)` of the product of two tables, `inner` the columns of the first and `cols` those
of the second. -/
def productEntry (matrixA matrixB : List R) (inner cols i j : Nat) : R :=
  ∑ k ∈ Finset.range inner, cell matrixA (i * inner + k) * cell matrixB (k * cols + j)

variable {matrixA matrixB result : List R} {rowsA colsA rowsB colsB : Nat}

/-- The loop over `k`, and the entry that it gives. -/
theorem count_dot {inner : Nat} (hinner : inner ≤ intMax) {xs ys : List R}
    {f g : Nat → Except Fault Nat} {p q : Nat → Nat}
    (hplace : ∀ k < inner, f k = .ok (p k) ∧ p k < xs.length)
    (hplace' : ∀ k < inner, g k = .ok (q k) ∧ q k < ys.length) :
    count 0 inner (fun k sum => do
        return sum + (← read xs (← f k)) * (← read ys (← g k))) (0 : R) =
      .ok (∑ k ∈ Finset.range inner, cell xs (p k) * cell ys (q k)) := by
  rw [count_sum hinner (f := fun k => cell xs (p k) * cell ys (q k)), zero_add]
  intro k hk sum
  obtain ⟨hp, hlt⟩ := hplace k hk
  obtain ⟨hq, hlt'⟩ := hplace' k hk
  simp only [bind, Except.bind, hp, hq, read_ok hlt, read_ok hlt']
  rfl

/-- The loops over `i` and `j` around it: `q` is where the second factor of a term stands. -/
theorem count_products {rows inner cols : Nat} {xs ys : List R} {g : Nat → Nat → Except Fault Nat}
    {q : Nat → Nat → Nat} (hxs : xs.length = rows * inner) (hrows : rows ≤ intMax)
    (hinner : inner ≤ intMax) (hcols : cols ≤ intMax) (hsize : rows * inner ≤ intMax)
    (hsize' : rows * cols ≤ intMax)
    (hg : ∀ j < cols, ∀ k < inner, g j k = .ok (q j k) ∧ q j k < ys.length) :
    ∃ t, count 0 rows (fun i => count 0 cols (fun j result => do
        let sum ← count 0 inner (fun k sum => do
          return sum + (← read xs (← index i inner k)) * (← read ys (← g j k))) 0
        write result (← index i cols j) sum)) (List.replicate (rows * cols) 0) = .ok t ∧
      Tabulates rows cols (fun i j => ∑ k ∈ Finset.range inner,
        cell xs (i * inner + k) * cell ys (q j k)) t := by
  obtain ⟨t, hloop, hlength, hentry⟩ := count_table hrows hcols (fun i j => i * cols + j)
    (fun i j => ∑ k ∈ Finset.range inner, cell xs (i * inner + k) * cell ys (q j k))
    (fun i j result => do
      let sum ← count 0 inner (fun k sum => do
        return sum + (← read xs (← index i inner k)) * (← read ys (← g j k))) 0
      write result (← index i cols j) sum)
    (fun i hi j hj => index_lt hi hj)
    (fun i _ j hj i' _ j' hj' => index_inj hj hj')
    (fun i hi j hj array harray => by
      rw [count_dot hinner (p := fun k => i * inner + k) (q := q j)
        (fun k hk => ⟨index_ok hi hk hsize, hxs ▸ index_lt hi hk⟩) (hg j hj)]
      simp only [bind, Except.bind, index_ok hi hj hsize']
      exact write_ok (harray ▸ index_lt hi hj) _)
    (List.length_replicate (n := rows * cols) (a := (0 : R)))
  exact ⟨t, hloop, hlength, hentry⟩

theorem multiplyMmNaive_eq (hA : matrixA.length = rowsA * colsA)
    (hB : matrixB.length = colsA * colsB) (hresult : result.length = rowsA * colsB)
    (hrowsA : rowsA ≤ intMax) (hcolsA : colsA ≤ intMax) (hcolsB : colsB ≤ intMax)
    (hsizeA : rowsA * colsA ≤ intMax) (hsizeB : colsA * colsB ≤ intMax)
    (hsize : rowsA * colsB ≤ intMax) :
    ∃ t, multiplyMmNaive (some matrixA) rowsA colsA (some matrixB) colsA colsB (some result) =
        .returned t ∧
      Tabulates rowsA colsB (productEntry matrixA matrixB colsA colsB) t := by
  obtain ⟨t, hloop, htable⟩ := count_products (g := fun j k => index k colsB j)
    (q := fun j k => k * colsB + j) hA hrowsA hcolsA hcolsB hsizeA hsize
    (fun j hj k hk => ⟨index_ok hk hj hsizeB, hB ▸ index_lt hk hj⟩)
  refine ⟨t, ?_, htable⟩
  simp only [multiplyMmNaive, checkNull, ne_eq, not_true_eq_false, if_false, bind, Except.bind,
    mulInt_ok hsize, fillN_ok hresult] at hloop ⊢
  rw [hloop]
  rfl

theorem multiplyMmTransposedB_eq {matrixBT : List R} {rowsBT : Nat}
    (hA : matrixA.length = rowsA * colsA) (hB : matrixBT.length = rowsBT * colsA)
    (hresult : result.length = rowsA * rowsBT) (hrowsA : rowsA ≤ intMax) (hcolsA : colsA ≤ intMax)
    (hrowsBT : rowsBT ≤ intMax) (hsizeA : rowsA * colsA ≤ intMax)
    (hsizeB : rowsBT * colsA ≤ intMax) (hsize : rowsA * rowsBT ≤ intMax) :
    ∃ t, multiplyMmTransposedB (some matrixA) rowsA colsA (some matrixBT) rowsBT colsA
        (some result) = .returned t ∧
      Tabulates rowsA rowsBT (fun i j => ∑ k ∈ Finset.range colsA,
        cell matrixA (i * colsA + k) * cell matrixBT (j * colsA + k)) t := by
  obtain ⟨t, hloop, htable⟩ := count_products (g := fun j k => index j colsA k)
    (q := fun j k => j * colsA + k) hA hrowsA hcolsA hrowsBT hsizeA hsize
    (fun j hj k hk => ⟨index_ok hj hk hsizeB, hB ▸ index_lt hj hk⟩)
  refine ⟨t, ?_, htable⟩
  simp only [multiplyMmTransposedB, checkNull, ne_eq, not_true_eq_false, if_false, bind,
    Except.bind, mulInt_ok hsize, fillN_ok hresult] at hloop ⊢
  rw [hloop]
  rfl

/-! ### Transposing -/

section Transposing

variable {matrix : List R} {rows cols : Nat}

/-- Column by column of the transposed matrix. -/
theorem transposeMatrix_eq (hmatrix : matrix.length = rows * cols) (hrows : 0 < rows)
    (hcols : 0 < cols) (hrows' : rows ≤ intMax) (hcols' : cols ≤ intMax)
    (hsize : rows * cols ≤ intMax) :
    ∃ t, transposeMatrix matrix rows cols = .returned t ∧
      Tabulates cols rows (fun j i => cell matrix (i * cols + j)) t := by
  have hsize' : cols * rows ≤ intMax := by rwa [Nat.mul_comm]
  obtain ⟨t, hloop, hlength, hentry⟩ := count_table hrows' hcols'
    (fun i j => j * rows + i) (fun i j => cell matrix (i * cols + j))
    (fun i j transposed => do
      let p ← index j rows i
      write transposed p (← read matrix (← index i cols j)))
    (fun i hi j hj => index_lt hj hi)
    (fun i hi j _ i' hi' j' _ h => (index_inj hi hi' h).symm)
    (fun i hi j hj array harray => by
      simp only [bind, Except.bind, index_ok hj hi hsize', index_ok hi hj hsize,
        read_ok (hmatrix ▸ index_lt hi hj : i * cols + j < matrix.length)]
      exact write_ok (harray ▸ index_lt hj hi) _)
    (List.length_replicate (n := cols * rows) (a := (0 : R)))
  refine ⟨t, ?_, hlength, fun j hj i hi => hentry i hi j hj⟩
  simp only [transposeMatrix, if_neg (show ¬ (rows = 0 ∨ cols = 0) by omega), mulInt_ok hsize,
    hmatrix, ne_eq, not_true_eq_false, if_false, bind, Except.bind, mulInt_ok hsize'] at hloop ⊢
  rw [hloop]
  rfl

/-- Entries of a table that a list holds. -/
theorem cell_tabulates {f : Nat → Nat → R} {xs : List R} (h : Tabulates rows cols f xs)
    {i j : Nat} (hi : i < rows) (hj : j < cols) : cell xs (i * cols + j) = f i j := by
  rw [cell_eq, h.entry i hi j hj, Option.getD_some]

end Transposing

/-! ### Products with a vector -/

section Vectors

variable {matrix vector : List R} {rows cols : Nat}

theorem multiplyMvRowMajor_eq (hmatrix : matrix.length = rows * cols)
    (hvector : vector.length = cols) (hresult : result.length = rows) (hrows : rows ≤ intMax)
    (hcols : cols ≤ intMax) (hsize : rows * cols ≤ intMax) :
    multiplyMvRowMajor (some matrix) rows cols (some vector) (some result) =
      .returned ((List.range rows).map fun i =>
        ∑ k ∈ Finset.range cols, cell matrix (i * cols + k) * cell vector k) := by
  have hdot : ∀ i < rows, count 0 cols (fun k sum => do
      return sum + (← read matrix (← index i cols k)) * (← read vector k)) (0 : R) =
        .ok (∑ k ∈ Finset.range cols, cell matrix (i * cols + k) * cell vector k) := by
    intro i hi
    exact count_dot hcols (p := fun k => i * cols + k) (q := fun k => k)
      (g := fun k => .ok k)
      (fun k hk => ⟨index_ok hi hk hsize, hmatrix ▸ index_lt hi hk⟩)
      (fun k hk => ⟨rfl, hvector ▸ hk⟩)
  have hloop : count 0 rows (fun i (result : List R) => do
      let sum ← count 0 cols (fun k sum => do
        return sum + (← read matrix (← index i cols k)) * (← read vector k)) 0
      write result i sum) (List.replicate rows 0) = _ :=
    forLoop_map_range (addInt_one hrows)
      (fun i hi t hlength => by
        rw [hdot i hi]
        exact write_ok (hlength ▸ hi) _) List.length_replicate
  simp only [multiplyMvRowMajor, checkNull, bind, Except.bind, fillN_ok hresult] at hloop ⊢
  rw [hloop]
  rfl

/-- Before the pass `(i, j)` the sums have `i` or, before `j`, `i + 1` terms. -/
theorem multiplyMvColMajor_eq (hmatrix : matrix.length = cols * rows)
    (hvector : vector.length = cols) (hresult : result.length = rows) (hrows : rows ≤ intMax)
    (hcols : cols ≤ intMax) (hsize : cols * rows ≤ intMax) :
    multiplyMvColMajor (some matrix) rows cols (some vector) (some result) =
      .returned ((List.range rows).map fun j =>
        ∑ k ∈ Finset.range cols, cell matrix (k * rows + j) * cell vector k) := by
  let term : Nat → Nat → R := fun j k => cell matrix (k * rows + j) * cell vector k
  let Summed : Nat → Nat → List R → Prop := fun i j t => t.length = rows ∧ ∀ p < rows, t[p]? =
    some (∑ k ∈ Finset.range (if p < j then i + 1 else i), term p k)
  have hpass : ∀ i j t, i < cols → j < rows → Summed i j t →
      ∃ t', (do write t j ((← read t j) + (← read matrix (← index i rows j)) * (← read vector i)) :
        Except Fault (List R)) = .ok t' ∧ Summed i (j + 1) t' := by
    rintro i j t hi hj ⟨hlength, hsum⟩
    have hin : j < t.length := hlength ▸ hj
    have hcell : cell t j = ∑ k ∈ Finset.range i, term j k := by
      rw [cell_eq, hsum j hj, if_neg (lt_irrefl j), Option.getD_some]
    simp only [bind, Except.bind, index_ok hi hj hsize, read_ok hin,
      read_ok (hmatrix ▸ index_lt hi hj : i * rows + j < matrix.length),
      read_ok (hvector ▸ hi : i < vector.length)]
    refine ⟨_, write_ok hin _, by rw [List.length_set, hlength], fun p hp => ?_⟩
    rcases lt_trichotomy p j with hlt | rfl | hgt
    · rw [List.getElem?_set_ne (by omega), hsum p hp, if_pos hlt, if_pos (by omega)]
    · rw [List.getElem?_set_self hin, if_pos (Nat.lt_succ_self p), Finset.sum_range_succ, hcell]
    · rw [List.getElem?_set_ne (by omega), hsum p hp, if_neg (by omega), if_neg (by omega)]
  obtain ⟨t, hloop, hlength, hsum⟩ : ∃ t, count 0 cols (fun i => count 0 rows (fun j result => do
      write result j
        ((← read result j) + (← read matrix (← index i rows j)) * (← read vector i))))
      (List.replicate rows 0) = .ok t ∧ Summed cols 0 t := count_rule
    (P := fun i t => Summed i 0 t) hcols
    (fun i t _ hi ht => by
      obtain ⟨t', hrow, hlength, hsum⟩ := count_rule (P := fun j t => Summed i j t) hrows
        (fun j t _ hj ht => hpass i j t hi hj ht) (Nat.zero_le rows) ht
      refine ⟨t', hrow, hlength, fun p hp => ?_⟩
      rw [hsum p hp, if_pos hp, if_neg (Nat.not_lt_zero p)])
    (Nat.zero_le cols)
    ⟨List.length_replicate, fun p hp => by
      rw [List.getElem?_replicate, if_pos hp, if_neg (Nat.not_lt_zero p), Finset.range_zero,
        Finset.sum_empty]⟩
  have hentry : ∀ p < rows, t[p]? = some (∑ k ∈ Finset.range cols, term p k) := by
    intro p hp
    rw [hsum p hp, if_neg (Nat.not_lt_zero p)]
  rw [← eq_map_range hlength hentry]
  simp only [multiplyMvColMajor, checkNull, bind, Except.bind, fillN_ok hresult] at hloop ⊢
  rw [hloop]
  rfl

end Vectors

/-! ### The layouts agree -/

section Layouts

variable {matrixAT matrixBT : List R}

/-- `multiply_mm_transposed_b` of a matrix and of the transpose of another. -/
theorem multiplyMmTransposedB_transpose (hA : matrixA.length = rowsA * colsA)
    (hB : matrixB.length = colsA * colsB) (hresult : result.length = rowsA * colsB)
    (hrowsA : rowsA ≤ intMax) (hcolsA : colsA ≤ intMax) (hcolsB : colsB ≤ intMax)
    (hsizeA : rowsA * colsA ≤ intMax) (hsizeB : colsA * colsB ≤ intMax)
    (hsize : rowsA * colsB ≤ intMax)
    (hBT : Tabulates colsB colsA (fun j k => cell matrixB (k * colsB + j)) matrixBT) :
    ∃ product,
      multiplyMmTransposedB (some matrixA) rowsA colsA (some matrixBT) colsB colsA
        (some result) = .returned product ∧
      multiplyMmNaive (some matrixA) rowsA colsA (some matrixB) colsA colsB (some result) =
        .returned product := by
  obtain ⟨product, hnaive, htable⟩ :=
    multiplyMmNaive_eq hA hB hresult hrowsA hcolsA hcolsB hsizeA hsizeB hsize
  obtain ⟨product', hrun, htable'⟩ := multiplyMmTransposedB_eq hA hBT.length hresult hrowsA hcolsA
    hcolsB hsizeA (by rwa [Nat.mul_comm]) hsize
  have hentries : ∀ i < rowsA, ∀ j < colsB,
      ∑ k ∈ Finset.range colsA, cell matrixA (i * colsA + k) * cell matrixBT (j * colsA + k) =
        productEntry matrixA matrixB colsA colsB i j := by
    intro i _ j hj
    refine Finset.sum_congr rfl fun k hk => ?_
    rw [cell_tabulates hBT hj (Finset.mem_range.mp hk)]
  obtain rfl := (htable'.congr hentries).unique htable
  exact ⟨product', hrun, hnaive⟩

/-- `multiply_mv_col_major` of the transpose of a matrix. -/
theorem multiplyMvColMajor_transpose {vector : List R} (hA : matrixA.length = rowsA * colsA)
    (hvector : vector.length = colsA) (hresult : result.length = rowsA)
    (hrowsA : rowsA ≤ intMax) (hcolsA : colsA ≤ intMax) (hsizeA : rowsA * colsA ≤ intMax)
    (hAT : Tabulates colsA rowsA (fun j i => cell matrixA (i * colsA + j)) matrixAT) :
    multiplyMvColMajor (some matrixAT) rowsA colsA (some vector) (some result) =
      multiplyMvRowMajor (some matrixA) rowsA colsA (some vector) (some result) := by
  rw [multiplyMvColMajor_eq hAT.length hvector hresult hrowsA hcolsA (by rwa [Nat.mul_comm]),
    multiplyMvRowMajor_eq hA hvector hresult hrowsA hcolsA hsizeA]
  refine congrArg Outcome.returned (List.map_congr_left fun i hi => ?_)
  refine Finset.sum_congr rfl fun k hk => ?_
  rw [cell_tabulates hAT (Finset.mem_range.mp hk) (List.mem_range.mp hi)]

theorem transposeMatrix_transpose (hA : matrixA.length = rowsA * colsA) (hrowsA : 0 < rowsA)
    (hcolsA : 0 < colsA) (hrowsA' : rowsA ≤ intMax) (hcolsA' : colsA ≤ intMax)
    (hsizeA : rowsA * colsA ≤ intMax)
    (hAT : Tabulates colsA rowsA (fun j i => cell matrixA (i * colsA + j)) matrixAT) :
    transposeMatrix matrixAT colsA rowsA = .returned matrixA := by
  obtain ⟨again, hrun, htable⟩ := transposeMatrix_eq hAT.length hcolsA hrowsA hcolsA' hrowsA'
    (by rwa [Nat.mul_comm])
  have hagain : Tabulates rowsA colsA (fun i j => cell matrixA (i * colsA + j)) again :=
    htable.congr fun i hi j hj => cell_tabulates hAT hj hi
  rw [hrun, hagain.unique (tabulates_getD 0 hA)]

/-- Over a transposed matrix, each layout gives what the plain one does. Where the dimensions do
not match, the products of matrices throw, each with its own text. -/
theorem layouts_agree {vector resultV : List R} (hrowsA : 0 < rowsA) (hcolsA : 0 < colsA)
    (hrowsB : 0 < rowsB) (hcolsB : 0 < colsB) (hsizeA : rowsA * colsA ≤ intMax)
    (hsizeB : rowsB * colsB ≤ intMax) (hsize : rowsA * colsB ≤ intMax)
    (hA : matrixA.length = rowsA * colsA) (hB : matrixB.length = rowsB * colsB)
    (hresult : result.length = rowsA * colsB) (hvector : vector.length = colsA)
    (hresultV : resultV.length = rowsA) :
    ∃ matrixAT matrixBT, transposeMatrix matrixA rowsA colsA = .returned matrixAT ∧
      transposeMatrix matrixB rowsB colsB = .returned matrixBT ∧
      (colsA = rowsB → ∃ product,
        multiplyMmTransposedB (some matrixA) rowsA colsA (some matrixBT) colsB rowsB
          (some result) = .returned product ∧
        multiplyMmNaive (some matrixA) rowsA colsA (some matrixB) rowsB colsB (some result) =
          .returned product) ∧
      (colsA ≠ rowsB →
        multiplyMmTransposedB (some matrixA) rowsA colsA (some matrixBT) colsB rowsB
          (some result) =
            .threw "Incompatible dimensions for matrix multiplication (A * B^T)." (some result) ∧
        multiplyMmNaive (some matrixA) rowsA colsA (some matrixB) rowsB colsB (some result) =
          .threw "Incompatible dimensions for matrix multiplication." (some result)) ∧
      (∃ product,
        multiplyMvColMajor (some matrixAT) rowsA colsA (some vector) (some resultV) =
          .returned product ∧
        multiplyMvRowMajor (some matrixA) rowsA colsA (some vector) (some resultV) =
          .returned product) ∧
      transposeMatrix matrixAT colsA rowsA = .returned matrixA := by
  have hrowsA' : rowsA ≤ intMax := (Nat.le_mul_of_pos_right rowsA hcolsA).trans hsizeA
  have hcolsA' : colsA ≤ intMax := (Nat.le_mul_of_pos_left colsA hrowsA).trans hsizeA
  have hrowsB' : rowsB ≤ intMax := (Nat.le_mul_of_pos_right rowsB hcolsB).trans hsizeB
  have hcolsB' : colsB ≤ intMax := (Nat.le_mul_of_pos_left colsB hrowsB).trans hsizeB
  obtain ⟨matrixAT, hrunA, hAT⟩ := transposeMatrix_eq hA hrowsA hcolsA hrowsA' hcolsA' hsizeA
  obtain ⟨matrixBT, hrunB, hBT⟩ := transposeMatrix_eq hB hrowsB hcolsB hrowsB' hcolsB' hsizeB
  refine ⟨matrixAT, matrixBT, hrunA, hrunB, ?_, ?_, ?_, ?_⟩
  · rintro rfl
    exact multiplyMmTransposedB_transpose hA hB hresult hrowsA' hcolsA' hcolsB' hsizeA hsizeB hsize
      hBT
  · intro hne
    exact ⟨if_pos hne, if_pos hne⟩
  · rw [multiplyMvColMajor_transpose hA hvector hresultV hrowsA' hcolsA' hsizeA hAT]
    exact ⟨_, multiplyMvRowMajor_eq hA hvector hresultV hrowsA' hcolsA' hsizeA,
      multiplyMvRowMajor_eq hA hvector hresultV hrowsA' hcolsA' hsizeA⟩
  · exact transposeMatrix_transpose hA hrowsA hcolsA hrowsA' hcolsA' hsizeA hAT

theorem layouts_agree_two_by_three :
    ∃ matrixBT : List Nat, transposeMatrix [7, 8, 9, 10, 11, 12] 3 2 = .returned matrixBT ∧
      ∃ product,
        multiplyMmTransposedB (some [1, 2, 3, 4, 5, 6]) 2 3 (some matrixBT) 2 3
          (some [0, 0, 0, 0]) = .returned product ∧
        multiplyMmNaive (some [1, 2, 3, 4, 5, 6]) 2 3 (some [7, 8, 9, 10, 11, 12]) 3 2
          (some [0, 0, 0, 0]) = .returned product := by
  obtain ⟨-, matrixBT, -, hBT, hproduct, -⟩ :=
    layouts_agree (R := Nat) (by decide : 0 < 2) (by decide : 0 < 3) (by decide : 0 < 3)
      (by decide : 0 < 2) (by decide) (by decide) (by decide)
      (rfl : [1, 2, 3, 4, 5, 6].length = _) (rfl : [7, 8, 9, 10, 11, 12].length = _)
      (rfl : [0, 0, 0, 0].length = _) (rfl : [1, 2, 3].length = _) (rfl : [0, 0].length = _)
  exact ⟨matrixBT, hBT, hproduct rfl⟩

end Layouts

end HftProject.Week1
