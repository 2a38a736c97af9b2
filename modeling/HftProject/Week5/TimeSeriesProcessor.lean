import HftProject.Lib.Counting
import Mathlib.Algebra.BigOperators.Group.List.Basic
import Mathlib.Algebra.Field.Rat

/-!
Moving averages over a window of prices, one sum for each offset, in the plain form and with two
lanes. The numbers are rational, in place of `double`, and the intrinsics work lane by lane. No
vector is so long that a size or an index would wrap.

Between passes the lanes and the tail together hold the sum of the part of the window that has
been read, so that both forms give the means of the windows (`movingAverages_agree`).
-/

namespace HftProject.Week5

open Counting

structure TimeSeriesProcessor where
  windowSize : Nat
  pos : 0 < windowSize

namespace TimeSeriesProcessor

/-- An index that is not within its vector. -/
structure OutOfBounds where
  index : Nat
deriving DecidableEq, Repr

def construct (windowSize : Nat) : Except String TimeSeriesProcessor :=
  if h : windowSize = 0 then .error "Window size must be greater than 0"
  else .ok ⟨windowSize, Nat.pos_of_ne_zero h⟩

/-- There is one processor for each window size that is not 0. -/
theorem construct_iff {windowSize : Nat} {processor : TimeSeriesProcessor} :
    construct windowSize = .ok processor ↔ processor.windowSize = windowSize := by
  rw [construct]
  constructor
  · intro h
    split at h
    · cases h
    · cases h
      rfl
  · rintro rfl
    exact dif_neg processor.pos.ne'

def load (prices : List ℚ) (p : Nat) : Except OutOfBounds ℚ :=
  match prices[p]? with
  | some price => .ok price
  | none => .error ⟨p⟩

def store (result : List ℚ) (p : Nat) (x : ℚ) : Except OutOfBounds (List ℚ) :=
  if p < result.length then .ok (result.set p x) else .error ⟨p⟩

/-- `++i` -/
def increment (i : Nat) : Except OutOfBounds Nat := .ok (i + 1)

def computeMovingAverageStandard (processor : TimeSeriesProcessor) (prices : List ℚ) :
    Except OutOfBounds (List ℚ) :=
  if prices.length < processor.windowSize then .ok []
  else
    -- `i <= prices.size() - window_size_`
    forLoop increment 0 (prices.length - processor.windowSize + 1) (fun i result => do
      let sum ← forLoop increment 0 processor.windowSize (fun j sum => do
        return sum + (← load prices (i + j))) 0
      store result i (sum / processor.windowSize))
      (List.replicate (prices.length - processor.windowSize + 1) 0)

/-! ### Two lanes -/

structure Float64x2 where
  lane0 : ℚ
  lane1 : ℚ
deriving DecidableEq, Repr

def vdupqN (x : ℚ) : Float64x2 := ⟨x, x⟩

/-- The price at `p` and the one after it. -/
def vld1q (prices : List ℚ) (p : Nat) : Except OutOfBounds Float64x2 :=
  return ⟨← load prices p, ← load prices (p + 1)⟩

def vaddq (x y : Float64x2) : Float64x2 := ⟨x.lane0 + y.lane0, x.lane1 + y.lane1⟩

def vst1q (x : Float64x2) : ℚ × ℚ := (x.lane0, x.lane1)

def computeMovingAverageSimd (processor : TimeSeriesProcessor) (prices : List ℚ) :
    Except OutOfBounds (List ℚ) :=
  if prices.length < processor.windowSize then .ok []
  else
    let resultSize := prices.length - processor.windowSize + 1
    forLoop increment 0 resultSize (fun i result => do
      let (j, sum) ← loop (fun j => decide (j + 2 ≤ processor.windowSize)) (fun j => .ok (j + 2))
        (fun j sum => do
          let window ← vld1q prices (i + j)
          return vaddq sum window) processor.windowSize 0 (vdupqN 0)
      let remainingSum ← forLoop increment j processor.windowSize (fun j remainingSum => do
        return remainingSum + (← load prices (i + j))) 0
      let sumArray := vst1q sum
      store result i ((sumArray.1 + sumArray.2 + remainingSum) / processor.windowSize))
      (List.replicate resultSize 0)

/-! ### Means of windows -/

def mean (window : List ℚ) : ℚ := window.sum / window.length

/-- The window at an offset. -/
def window (prices : List ℚ) (i w : Nat) : List ℚ := (prices.drop i).take w

/-- One mean for each offset at which the window is within the prices. -/
def movingAverages (prices : List ℚ) (w : Nat) : List ℚ :=
  if prices.length < w then []
  else (List.range (prices.length - w + 1)).map fun i => mean (window prices i w)

section Windows

variable {prices : List ℚ} {i j w : Nat}

theorem length_window (h : i + w ≤ prices.length) : (window prices i w).length = w := by
  rw [window, List.length_take, List.length_drop]
  omega

@[simp] theorem window_zero : window prices i 0 = [] := List.take_zero

/-- A price that is read is the next one of the window. -/
theorem load_window {prices : List ℚ} {i j : Nat} (h : i + j < prices.length) :
    ∃ price, load prices (i + j) = .ok price ∧
      (window prices i (j + 1)).sum = (window prices i j).sum + price := by
  have hj : j < (prices.drop i).length := by
    rw [List.length_drop]
    omega
  refine ⟨(prices.drop i)[j], ?_, List.sum_take_succ _ j hj⟩
  rw [load, List.getElem_drop, List.getElem?_eq_getElem h]

/-- Prices read one after the other, on top of what `base` has of the window. -/
theorem forLoop_window {lo : Nat} (base : ℚ) {x : ℚ} (hlo : lo ≤ w) (h : i + w ≤ prices.length)
    (hsum : base + x = (window prices i lo).sum) :
    ∃ sum, forLoop increment lo w (fun j sum => do return sum + (← load prices (i + j))) x =
        .ok sum ∧ base + sum = (window prices i w).sum := by
  refine forLoop_rule (P := fun j sum => base + sum = (window prices i j).sum) (fun _ _ => rfl)
    (fun j sum _ hj hsum => ?_) hlo hsum
  have hin : i + j < prices.length := by omega
  obtain ⟨price, hprice, hnext⟩ := load_window hin
  simp only [hprice, bind, Except.bind]
  exact ⟨sum + price, rfl, by rw [hnext, ← hsum, add_assoc]⟩

/-- Prices read in pairs, until at most one is left. -/
theorem loop_window (h : i + w ≤ prices.length) :
    ∃ j sum, loop (fun j => decide (j + 2 ≤ w)) (fun j => .ok (j + 2))
        (fun j sum => do
          let window ← vld1q prices (i + j)
          return vaddq sum window) w 0 (vdupqN 0) = .ok (j, sum) ∧
      j ≤ w ∧ sum.lane0 + sum.lane1 = (window prices i j).sum := by
  obtain ⟨j, sum, hloop, -, hle, hsum⟩ := loop_rule (fun j => decide (j + 2 ≤ w))
    (fun j => .ok (j + 2))
    (fun j sum => do
      let window ← vld1q prices (i + j)
      return vaddq sum window)
    (fun j (sum : Float64x2) => j ≤ w ∧ sum.lane0 + sum.lane1 = (window prices i j).sum)
    (fun j hj => (by
      have := of_decide_eq_true hj
      omega : j < w))
    (fun j sum hj ⟨_, hsum⟩ => by
      have hle := of_decide_eq_true hj
      have hin : i + (j + 1) < prices.length := by omega
      obtain ⟨price, hprice, hnext⟩ := load_window (Nat.lt_of_succ_lt hin)
      obtain ⟨price', hprice', hnext'⟩ := load_window hin
      rw [← Nat.add_assoc] at hprice'
      refine ⟨j + 2, vaddq sum ⟨price, price'⟩, ?_, rfl, by omega, hle, ?_⟩
      · simp only [vld1q, hprice, hprice', bind, Except.bind]
        rfl
      · rw [hnext', hnext, ← hsum]
        exact (add_add_add_comm _ _ _ _).trans (add_assoc _ _ _).symm)
    (le_refl (w - 0)) (s := vdupqN 0) ⟨Nat.zero_le w, by simp [vdupqN]⟩
  exact ⟨j, sum, hloop, hle, hsum⟩

/-- The mean as the quotient that both forms compute. -/
theorem mean_window (h : i + w ≤ prices.length) :
    mean (window prices i w) = (window prices i w).sum / w := by
  rw [mean, length_window h]

end Windows

/-! ### The two forms -/

theorem store_ok {result : List ℚ} {p : Nat} (h : p < result.length) (x : ℚ) :
    store result p x = .ok (result.set p x) := if_pos h

variable (processor : TimeSeriesProcessor) (prices : List ℚ)

theorem computeMovingAverageStandard_eq :
    computeMovingAverageStandard processor prices =
      .ok (movingAverages prices processor.windowSize) := by
  rw [computeMovingAverageStandard, movingAverages]
  by_cases hshort : prices.length < processor.windowSize
  · rw [if_pos hshort, if_pos hshort]
  rw [if_neg hshort, if_neg hshort]
  refine forLoop_map_range (fun _ _ => rfl) (fun i hi result hresult => ?_) List.length_replicate
  have hin : i + processor.windowSize ≤ prices.length := by omega
  obtain ⟨sum, hloop, hsum⟩ := forLoop_window 0 (x := 0) (Nat.zero_le _) hin (by simp)
  rw [zero_add] at hsum
  rw [hloop, mean_window hin, ← hsum]
  exact store_ok (hresult ▸ hi) _

theorem computeMovingAverageSimd_eq :
    computeMovingAverageSimd processor prices =
      .ok (movingAverages prices processor.windowSize) := by
  rw [computeMovingAverageSimd, movingAverages]
  by_cases hshort : prices.length < processor.windowSize
  · rw [if_pos hshort, if_pos hshort]
  rw [if_neg hshort, if_neg hshort]
  refine forLoop_map_range (fun _ _ => rfl) (fun i hi result hresult => ?_) List.length_replicate
  have hin : i + processor.windowSize ≤ prices.length := by omega
  obtain ⟨j, lanes, hlanes, hle, hlanesSum⟩ := loop_window hin
  obtain ⟨remainingSum, hloop, hsum⟩ := forLoop_window _ (x := 0) hle hin
    ((add_zero _).trans hlanesSum)
  rw [hlanes]
  simp only [bind, Except.bind, vst1q] at hloop ⊢
  rw [hloop, mean_window hin, ← hsum]
  exact store_ok (hresult ▸ hi) _

/-- Both forms return the same list, without reading beyond the prices: nothing if the window is
longer than they are, otherwise the mean of each window. -/
theorem movingAverages_agree : ∃ averages,
    computeMovingAverageStandard processor prices = .ok averages ∧
      computeMovingAverageSimd processor prices = .ok averages ∧
      (prices.length < processor.windowSize → averages = []) ∧
      (processor.windowSize ≤ prices.length →
        averages.length = prices.length - processor.windowSize + 1 ∧
        ∀ i < prices.length - processor.windowSize + 1,
          averages[i]? = some (mean ((prices.drop i).take processor.windowSize))) := by
  refine ⟨_, computeMovingAverageStandard_eq processor prices,
    computeMovingAverageSimd_eq processor prices, fun hshort => if_pos hshort, fun hle => ?_⟩
  rw [movingAverages, if_neg (not_lt.mpr hle)]
  refine ⟨by rw [List.length_map, List.length_range], fun i hi => ?_⟩
  rw [List.getElem?_map, List.getElem?_range hi]
  rfl

example : movingAverages [1, 2, 3, 6] 3 = [2, 11 / 3] := by decide +kernel

end TimeSeriesProcessor

end HftProject.Week5
