import HftProject.Week1.MatrixProducts
import Mathlib.Algebra.BigOperators.Pi

/-!
`multiply_mm_optimized` against `multiply_mm_naive`. The blocks cover each `(i, k, j)` once, so
that each entry receives all terms of its sum. But the step from one block to the next, and the
end of a block before it is cut at the edge, are numbers up to 63 above the dimension: the two
agree exactly if these are within `int` (`multiplyMmOptimized_naive_iff`).
-/

namespace HftProject.Week1

open Counting RowMajor

variable {R : Type} [NonUnitalNonAssocSemiring R]

/-! ### Arrays that grow -/

/-- Every place has grown by what `f` has there. -/
structure AddsTo (f : Nat → R) (s t : List R) : Prop where
  length : t.length = s.length
  cell : ∀ p, cell t p = cell s p + f p

theorem AddsTo.zero (s : List R) : AddsTo 0 s s where
  length := rfl
  cell p := by rw [Pi.zero_apply, add_zero]

theorem AddsTo.add (f g : Nat → R) (s t u : List R) (h : AddsTo f s t) (h' : AddsTo g t u) :
    AddsTo (f + g) s u where
  length := h'.length.trans h.length
  cell p := by rw [h'.cell, h.cell, Pi.add_apply, add_assoc]

/-- `array[p] += x` -/
theorem addsTo_set {array : List R} {p : Nat} (hp : p < array.length) (x : R) :
    AddsTo (Pi.single p x) array (array.set p (cell array p + x)) where
  length := List.length_set
  cell q := by
    by_cases hq : p = q
    · subst hq
      rw [Pi.single_eq_same, cell_eq, List.getElem?_set_self hp, Option.getD_some]
    · rw [Pi.single_eq_of_ne (Ne.symm hq), add_zero, cell_eq _ q, cell_eq _ q,
        List.getElem?_set_ne hq]

section Loops

variable {size lo hi : Nat} {s : List R} {body : Nat → List R → Except Fault (List R)}

theorem count_adds {f : Nat → Nat → R} (hhi : hi ≤ intMax)
    (pass : ∀ i s, lo ≤ i → i < hi → s.length = size → ∃ t, body i s = .ok t ∧ AddsTo (f i) s t)
    (h : s.length = size) :
    ∃ t, count lo hi body s = .ok t ∧ AddsTo (∑ i ∈ Finset.Ico lo hi, f i) s t := by
  obtain ⟨t, hloop, -, hadds⟩ := forLoop_adds_one (I := fun s : List R => s.length = size)
    AddsTo.zero AddsTo.add (addInt_one hhi)
    (fun i s hlo hi h => by
      obtain ⟨t, hbody, hadds⟩ := pass i s hlo hi h
      exact ⟨t, hbody, hadds.length.trans h, hadds⟩) h
  exact ⟨t, hloop, hadds⟩

omit [NonUnitalNonAssocSemiring R] in
theorem addInt_blockSize (hhi : hi + 63 ≤ intMax) :
    ∀ i < hi, addInt i blockSize = .ok (i + blockSize) :=
  fun i hi => addInt_ok (by rw [blockSize]; omega)

theorem blocks_adds (body : Nat → List R → Except Fault (List R)) {f : Nat → Nat → R}
    (hhi : hi + 63 ≤ intMax)
    (pass : ∀ b s, b * blockSize < hi → s.length = size →
      ∃ t, body (b * blockSize) s = .ok t ∧ AddsTo (f b) s t)
    (h : s.length = size) :
    ∃ t, blocks hi body s = .ok t ∧
      AddsTo (∑ b ∈ Finset.range (passes blockSize 0 hi), f b) s t := by
  obtain ⟨t, hloop, -, hadds⟩ : ∃ t, blocks hi body s = .ok t ∧ t.length = size ∧
      AddsTo (∑ b ∈ Finset.range (passes blockSize 0 hi), f b) s t := forLoop_adds
    (I := fun s : List R => s.length = size) AddsTo.zero AddsTo.add (by decide)
    (addInt_blockSize hhi)
    (fun b s hlt h => by
      rw [Nat.zero_add] at hlt ⊢
      obtain ⟨t, hbody, hadds⟩ := pass b s hlt h
      exact ⟨t, hbody, hadds.length.trans h, hadds⟩) h
  exact ⟨t, hloop, hadds⟩

omit [NonUnitalNonAssocSemiring R] in
/-- Blocks that came to their end have their last step within `int`. -/
theorem blocks_inv {t : List R} (h : blocks hi body s = .ok t) :
    hi + 63 ≤ intMax ∧ (0 < hi → ∃ s s', body 0 s = .ok s') := by
  have hinv : ∀ b, b * blockSize < hi →
      (∃ s s', body (b * blockSize) s = .ok s') ∧
        ∃ j, addInt (b * blockSize) blockSize = .ok j := by
    intro b hb
    obtain ⟨-, hpasses⟩ := forLoop_inv (P := fun _ => True) (fun i j hj => (addInt_inv hj).1)
      (by decide : 0 < blockSize) (fun _ _ _ _ hs => hs) h trivial
    obtain ⟨⟨s, s', -, hbody⟩, hj⟩ := hpasses b (by rwa [Nat.zero_add])
    rw [Nat.zero_add] at hbody hj
    exact ⟨⟨s, s', hbody⟩, hj⟩
  constructor
  · by_contra hover
    have hlast : (hi - 1) / blockSize * blockSize < hi := by
      rw [blockSize, intMax] at *
      omega
    obtain ⟨-, j, hj⟩ := hinv _ hlast
    have hle := (addInt_inv hj).2
    rw [blockSize, intMax] at *
    omega
  · intro hpos
    have hfirst := (hinv 0 (by rwa [Nat.zero_mul])).1
    rwa [Nat.zero_mul] at hfirst

end Loops

theorem Outcome.ofRun_inv {R : Type} {run : Except Fault (List R)} {t : List R}
    (h : Outcome.ofRun run = .returned t) : run = .ok t := by
  cases run with
  | error fault => cases h
  | ok result =>
      cases h
      rfl

/-! ### The blocks of a product -/

section Blocks

variable {matrixA matrixB result : List R} {rowsA colsA colsB : Nat}

/-- What the three outer loops do for each block. -/
def multiplyBlock (matrixA matrixB : List R) (rowsA colsA colsB i0 j0 k0 : Nat)
    (result : List R) : Except Fault (List R) := do
  let iMax := min (← addInt i0 blockSize) rowsA
  let jMax := min (← addInt j0 blockSize) colsB
  let kMax := min (← addInt k0 blockSize) colsA
  count i0 iMax (fun i => count k0 kMax (fun k result => do
    let aik ← read matrixA (← index i colsA k)
    count j0 jMax (fun j result => do
      let p ← index i colsB j
      write result p ((← read result p) + aik * (← read matrixB (← index k colsB j))))
      result)) result

theorem multiplyMmOptimized_blocks (hresult : result.length = rowsA * colsB)
    (hsize : rowsA * colsB ≤ intMax) :
    multiplyMmOptimized (some matrixA) rowsA colsA (some matrixB) colsA colsB (some result) =
      .ofRun (blocks rowsA (fun i0 => blocks colsB (fun j0 => blocks colsA (fun k0 =>
        multiplyBlock matrixA matrixB rowsA colsA colsB i0 j0 k0)))
          (List.replicate (rowsA * colsB) 0)) := by
  simp only [multiplyMmOptimized, checkNull, ne_eq, not_true_eq_false, if_false, bind, Except.bind,
    mulInt_ok hsize, fillN_ok hresult]
  rfl

/-- A term of an entry, at the place of the entry. -/
def term (matrixA matrixB : List R) (colsA colsB i k j : Nat) : Nat → R :=
  Pi.single (i * colsB + j) (cell matrixA (i * colsA + k) * cell matrixB (k * colsB + j))

theorem multiplyBlock_adds (hA : matrixA.length = rowsA * colsA)
    (hB : matrixB.length = colsA * colsB) (hsizeA : rowsA * colsA ≤ intMax)
    (hsizeB : colsA * colsB ≤ intMax) (hsize : rowsA * colsB ≤ intMax) {i0 j0 k0 : Nat}
    (hi0 : i0 + blockSize ≤ intMax) (hj0 : j0 + blockSize ≤ intMax)
    (hk0 : k0 + blockSize ≤ intMax) (hresult : result.length = rowsA * colsB) :
    ∃ t, multiplyBlock matrixA matrixB rowsA colsA colsB i0 j0 k0 result = .ok t ∧
      AddsTo (∑ i ∈ Finset.Ico i0 (min (i0 + blockSize) rowsA),
        ∑ k ∈ Finset.Ico k0 (min (k0 + blockSize) colsA),
          ∑ j ∈ Finset.Ico j0 (min (j0 + blockSize) colsB),
            term matrixA matrixB colsA colsB i k j) result t := by
  simp only [multiplyBlock, bind, Except.bind, addInt_ok hi0, addInt_ok hj0, addInt_ok hk0]
  refine count_adds ((min_le_left _ _).trans hi0) (fun i result _ hi hresult => ?_) hresult
  refine count_adds ((min_le_left _ _).trans hk0) (fun k result _ hk hresult => ?_) hresult
  have hi := hi.trans_le (min_le_right _ _)
  have hk := hk.trans_le (min_le_right _ _)
  simp only [index_ok hi hk hsizeA,
    read_ok (hA ▸ index_lt hi hk : i * colsA + k < matrixA.length)]
  refine count_adds ((min_le_left _ _).trans hj0) (fun j result _ hj hresult => ?_) hresult
  have hj := hj.trans_le (min_le_right _ _)
  have hp : i * colsB + j < result.length := hresult ▸ index_lt hi hj
  simp only [index_ok hi hj hsize, index_ok hk hj hsizeB, read_ok hp,
    read_ok (hB ▸ index_lt hk hj : k * colsB + j < matrixB.length)]
  exact ⟨_, write_ok hp _, addsTo_set hp _⟩

/-- The dimensions with the steps of the blocks. -/
def BlocksFit (rowsA colsA colsB : Nat) : Prop :=
  rowsA + 63 ≤ intMax ∧
    (0 < rowsA → colsB + 63 ≤ intMax ∧ (0 < colsB → colsA + 63 ≤ intMax))

/-- All terms at the place of an entry. -/
theorem sum_term {i j : Nat} (hi : i < rowsA) (hj : j < colsB) :
    (∑ i ∈ Finset.range rowsA, ∑ j ∈ Finset.range colsB, ∑ k ∈ Finset.range colsA,
      term matrixA matrixB colsA colsB i k j) (i * colsB + j) =
      productEntry matrixA matrixB colsA colsB i j := by
  have hother : ∀ i' j' k, j' < colsB → ¬ (i' = i ∧ j' = j) →
      term matrixA matrixB colsA colsB i' k j' (i * colsB + j) = 0 := by
    intro i' j' k hj' hne
    refine Pi.single_eq_of_ne (fun heq => hne ?_) _
    obtain ⟨rfl, rfl⟩ := index_inj hj hj' heq
    exact ⟨rfl, rfl⟩
  simp only [Finset.sum_apply]
  rw [Finset.sum_eq_single_of_mem i (Finset.mem_range.mpr hi),
    Finset.sum_eq_single_of_mem j (Finset.mem_range.mpr hj)]
  · exact Finset.sum_congr rfl fun k _ => Pi.single_eq_same _ _
  · intro j' hj' hne
    exact Finset.sum_eq_zero fun k _ =>
      hother i j' k (Finset.mem_range.mp hj') fun h => hne h.2
  · intro i' _ hne
    exact Finset.sum_eq_zero fun j' hj' => Finset.sum_eq_zero fun k _ =>
      hother i' j' k (Finset.mem_range.mp hj') fun h => hne h.1

theorem multiplyMmOptimized_eq (hA : matrixA.length = rowsA * colsA)
    (hB : matrixB.length = colsA * colsB) (hresult : result.length = rowsA * colsB)
    (hsizeA : rowsA * colsA ≤ intMax) (hsizeB : colsA * colsB ≤ intMax)
    (hsize : rowsA * colsB ≤ intMax) (hfit : BlocksFit rowsA colsA colsB) :
    ∃ t, multiplyMmOptimized (some matrixA) rowsA colsA (some matrixB) colsA colsB
        (some result) = .returned t ∧
      Tabulates rowsA colsB (productEntry matrixA matrixB colsA colsB) t := by
  have hend : ∀ {b hi}, hi + 63 ≤ intMax → b * blockSize < hi →
      b * blockSize + blockSize ≤ intMax := by
    intro b hi hhi hb
    rw [blockSize] at *
    omega
  let tile : Nat → Nat → Nat → Nat → R := fun a b c =>
    ∑ i ∈ Finset.Ico (a * blockSize) (min (a * blockSize + blockSize) rowsA),
      ∑ k ∈ Finset.Ico (c * blockSize) (min (c * blockSize + blockSize) colsA),
        ∑ j ∈ Finset.Ico (b * blockSize) (min (b * blockSize + blockSize) colsB),
          term matrixA matrixB colsA colsB i k j
  obtain ⟨t, hrun, hadds⟩ := blocks_adds
    (fun i0 => blocks colsB (fun j0 => blocks colsA (fun k0 =>
      multiplyBlock matrixA matrixB rowsA colsA colsB i0 j0 k0)))
    (f := fun a => ∑ b ∈ Finset.range (passes blockSize 0 colsB),
      ∑ c ∈ Finset.range (passes blockSize 0 colsA), tile a b c) hfit.1
    (fun a result ha hresult => by
      obtain ⟨hcolsB, hcolsA⟩ := hfit.2 (Nat.zero_lt_of_lt ha)
      refine blocks_adds _ hcolsB (fun b result hb hresult => ?_) hresult
      have hcolsA := hcolsA (Nat.zero_lt_of_lt hb)
      refine blocks_adds _ hcolsA (fun c result hc hresult => ?_) hresult
      exact multiplyBlock_adds hA hB hsizeA hsizeB hsize (hend hfit.1 ha) (hend hcolsB hb)
        (hend hcolsA hc) hresult)
    (List.length_replicate (n := rowsA * colsB) (a := (0 : R)))
  rw [sum_tiles (by decide)] at hadds
  have hlength : t.length = rowsA * colsB := hadds.length.trans List.length_replicate
  refine ⟨t, by rw [multiplyMmOptimized_blocks hresult hsize, hrun]; rfl, hlength, ?_⟩
  intro i hi j hj
  have hp : i * colsB + j < t.length := hlength ▸ index_lt hi hj
  have hzero : cell (List.replicate (rowsA * colsB) (0 : R)) (i * colsB + j) = 0 := by
    rw [cell_eq, List.getElem?_replicate, if_pos (hlength ▸ hp), Option.getD_some]
  have hcell := hadds.cell (i * colsB + j)
  rw [hzero, zero_add, sum_term hi hj] at hcell
  rw [List.getElem?_eq_getElem hp, ← hcell, cell, List.getD_eq_getElem _ _ hp]

theorem multiplyMmOptimized_inv {t : List R} (hresult : result.length = rowsA * colsB)
    (hsize : rowsA * colsB ≤ intMax)
    (h : multiplyMmOptimized (some matrixA) rowsA colsA (some matrixB) colsA colsB
      (some result) = .returned t) : BlocksFit rowsA colsA colsB := by
  rw [multiplyMmOptimized_blocks hresult hsize] at h
  obtain ⟨hrowsA, hrow⟩ := blocks_inv (Outcome.ofRun_inv h)
  refine ⟨hrowsA, fun hpos => ?_⟩
  obtain ⟨s, s', hrow⟩ := hrow hpos
  obtain ⟨hcolsB, hblock⟩ := blocks_inv hrow
  refine ⟨hcolsB, fun hpos => ?_⟩
  obtain ⟨s, s', hblock⟩ := hblock hpos
  exact (blocks_inv hblock).1

/-! ### Blocked and naive -/

/-- The two write the same table, of all sums over `k`, exactly if the steps of the blocks are
within `int`. Where the dimensions do not match, both throw. -/
theorem multiplyMmOptimized_naive_iff {rowsB : Nat} (hrowsA : rowsA ≤ intMax)
    (hcolsA : colsA ≤ intMax) (hcolsB : colsB ≤ intMax) (hsizeA : rowsA * colsA ≤ intMax)
    (hsizeB : rowsB * colsB ≤ intMax) (hsize : rowsA * colsB ≤ intMax)
    (hA : matrixA.length = rowsA * colsA) (hB : matrixB.length = rowsB * colsB)
    (hresult : result.length = rowsA * colsB) :
    ((colsA = rowsB → ∃ product,
        multiplyMmOptimized (some matrixA) rowsA colsA (some matrixB) rowsB colsB (some result) =
          .returned product ∧
        multiplyMmNaive (some matrixA) rowsA colsA (some matrixB) rowsB colsB (some result) =
          .returned product ∧
        Tabulates rowsA colsB (productEntry matrixA matrixB colsA colsB) product) ∧
      (colsA ≠ rowsB →
        multiplyMmOptimized (some matrixA) rowsA colsA (some matrixB) rowsB colsB (some result) =
          .threw "Incompatible dimensions for matrix multiplication." (some result) ∧
        multiplyMmNaive (some matrixA) rowsA colsA (some matrixB) rowsB colsB (some result) =
          .threw "Incompatible dimensions for matrix multiplication." (some result))) ↔
      (colsA = rowsB → BlocksFit rowsA colsA colsB) := by
  constructor
  · rintro ⟨hagree, -⟩ rfl
    obtain ⟨product, hrun, -⟩ := hagree rfl
    exact multiplyMmOptimized_inv hresult hsize hrun
  · intro hfit
    refine ⟨?_, fun hne => ⟨if_pos hne, if_pos hne⟩⟩
    rintro rfl
    obtain ⟨product, hrun, htable⟩ :=
      multiplyMmOptimized_eq hA hB hresult hsizeA hsizeB hsize (hfit rfl)
    obtain ⟨product', hnaive, htable'⟩ :=
      multiplyMmNaive_eq hA hB hresult hrowsA hcolsA hcolsB hsizeA hsizeB hsize
    obtain rfl := htable'.unique htable
    exact ⟨product', hrun, hnaive, htable⟩

theorem multiplyMmOptimized_naive_two_by_two :
    ∃ product : List Nat,
      multiplyMmOptimized (some [1, 2, 3, 4]) 2 2 (some [5, 6, 7, 8]) 2 2 (some [9, 9, 9, 9]) =
        .returned product ∧
      multiplyMmNaive (some [1, 2, 3, 4]) 2 2 (some [5, 6, 7, 8]) 2 2 (some [9, 9, 9, 9]) =
        .returned product := by
  have hiff := multiplyMmOptimized_naive_iff (R := Nat) (by decide : 2 ≤ intMax)
    (by decide : 2 ≤ intMax) (by decide : 2 ≤ intMax) (by decide) (by decide : 2 * 2 ≤ intMax)
    (by decide) (rfl : [1, 2, 3, 4].length = _) (rfl : [5, 6, 7, 8].length = _)
    (rfl : [9, 9, 9, 9].length = _)
  have hfit : BlocksFit 2 2 2 := ⟨by decide, fun _ => ⟨by decide, fun _ => by decide⟩⟩
  obtain ⟨product, hrun, hnaive, -⟩ := (hiff.mpr fun _ => hfit).1 rfl
  exact ⟨product, hrun, hnaive⟩

/-- A number by a row of `2 ^ 31 - 1` numbers: the step from the last block of columns overflows. -/
theorem multiplyMmOptimized_overflows :
    (∃ product, multiplyMmNaive (some [1]) 1 1 (some (List.replicate intMax 1)) 1 intMax
        (some (List.replicate intMax 0)) = .returned (R := Nat) product) ∧
      ∀ product, multiplyMmOptimized (some [1]) 1 1 (some (List.replicate intMax 1)) 1 intMax
        (some (List.replicate intMax 0)) ≠ .returned (R := Nat) product := by
  have hsize : 1 * intMax ≤ intMax := le_of_eq (Nat.one_mul intMax)
  have hlength : ∀ x : Nat, (List.replicate intMax x).length = 1 * intMax := fun x => by
    rw [List.length_replicate, Nat.one_mul]
  constructor
  · obtain ⟨product, hnaive, -⟩ := multiplyMmNaive_eq (rfl : [1].length = 1 * 1) (hlength 1)
      (hlength 0) (by decide) (by decide) (le_refl intMax) (by decide) hsize hsize
    exact ⟨product, hnaive⟩
  · intro product hrun
    have hover := ((multiplyMmOptimized_inv (hlength 0) hsize hrun).2 Nat.one_pos).1
    rw [intMax] at hover
    omega

end Blocks

end HftProject.Week1
