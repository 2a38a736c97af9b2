import Mathlib.Algebra.Group.Int.Even
import Mathlib.Algebra.Order.Floor.Ring
import Mathlib.Data.Int.Log
import Mathlib.Tactic.FieldSimp
import Mathlib.Tactic.Linarith
import Mathlib.Tactic.Ring

/-!
Rounding to the nearest integer, and to the nearest binary number of a given precision. A tie
goes to the even neighbour. Exponents are not bounded.
-/

namespace HftProject.Rounding

variable {R : Type} [Field R] [LinearOrder R] [IsStrictOrderedRing R] [FloorRing R]

/-! ### Integers -/

def roundHalfEven (x : R) : Int :=
  if Int.fract x < 1 / 2 then ⌊x⌋
  else if 1 / 2 < Int.fract x then ⌊x⌋ + 1
  else if Even ⌊x⌋ then ⌊x⌋
  else ⌊x⌋ + 1

omit [IsStrictOrderedRing R] in
/-- Either neighbour is taken only if it is not the farther one. -/
theorem roundHalfEven_cases (x : R) :
    (roundHalfEven x = ⌊x⌋ ∧ Int.fract x ≤ 1 / 2) ∨
      (roundHalfEven x = ⌊x⌋ + 1 ∧ 1 / 2 ≤ Int.fract x) := by
  rw [roundHalfEven]
  split
  · rename_i hless
    exact .inl ⟨rfl, hless.le⟩
  · rename_i hge
    split
    · rename_i hmore
      exact .inr ⟨rfl, hmore.le⟩
    · rename_i hle
      split
      · exact .inl ⟨rfl, not_lt.mp hle⟩
      · exact .inr ⟨rfl, not_lt.mp hge⟩

theorem abs_sub_roundHalfEven_le (x : R) : |x - roundHalfEven x| ≤ 1 / 2 := by
  have hfloor := Int.floor_add_fract x
  have hnonneg := Int.fract_nonneg x
  have hlt := Int.fract_lt_one x
  rcases roundHalfEven_cases x with ⟨heq, hhalf⟩ | ⟨heq, hhalf⟩
  · rw [heq, abs_le]
    constructor <;> linarith
  · rw [heq, abs_le]
    push_cast
    constructor <;> linarith

@[simp] theorem roundHalfEven_intCast (n : Int) : roundHalfEven (n : R) = n := by
  rw [roundHalfEven, Int.fract_intCast, if_pos (by norm_num), Int.floor_intCast]

omit [IsStrictOrderedRing R] in
theorem le_roundHalfEven {n : Int} {x : R} (h : (n : R) ≤ x) : n ≤ roundHalfEven x := by
  have hfloor := Int.le_floor.mpr h
  rcases roundHalfEven_cases x with ⟨heq, -⟩ | ⟨heq, -⟩ <;> omega

theorem roundHalfEven_le {n : Int} {x : R} (h : x ≤ n) : roundHalfEven x ≤ n := by
  rcases h.eq_or_lt with rfl | hlt
  · rw [roundHalfEven_intCast]
  · have hfloor := Int.floor_lt.mpr hlt
    rcases roundHalfEven_cases x with ⟨heq, -⟩ | ⟨heq, -⟩ <;> omega

theorem roundHalfEven_eq {n : Int} {x : R} (h : |x - n| < 1 / 2) : roundHalfEven x = n := by
  have hround := abs_le.mp (abs_sub_roundHalfEven_le x)
  have hnear := abs_lt.mp h
  have hless : (roundHalfEven x : R) < ((n + 1 : Int) : R) := by
    push_cast
    linarith
  have hmore : ((n - 1 : Int) : R) < (roundHalfEven x : R) := by
    push_cast
    linarith
  have := Int.cast_lt.mp hless
  have := Int.cast_lt.mp hmore
  omega

/-! ### Binary numbers -/

/-- The distance between neighbours of `precision` bits next to `x`. -/
def ulp (precision : Nat) (x : R) : R := 2 ^ (Int.log 2 |x| + 1 - precision)

def roundBinary (precision : Nat) (x : R) : R :=
  if x = 0 then 0 else roundHalfEven (x / ulp precision x) * ulp precision x

theorem ulp_pos (precision : Nat) (x : R) : 0 < ulp precision x := zpow_pos two_pos _

theorem log_lt_of_lt {precision : Nat} {x : R} (hpos : 0 < x) (h : x < 2 ^ precision) :
    Int.log 2 |x| + 1 ≤ precision := by
  rw [abs_of_pos hpos]
  have hlog : Int.log 2 x < precision := by
    rw [← Int.lt_zpow_iff_log_lt (by norm_num) hpos]
    exact_mod_cast h
  omega

/-- A natural number is a whole number of units where the unit is not greater than 1. -/
theorem natCast_eq_mul_ulp (n : Nat) {precision : Nat} {x : R}
    (h : Int.log 2 |x| + 1 ≤ precision) : ∃ k : Nat, (n : R) = k * ulp precision x := by
  obtain ⟨d, hd⟩ := Int.le.dest h
  refine ⟨n * 2 ^ d, ?_⟩
  rw [ulp, show Int.log 2 |x| + 1 - precision = -(d : Int) by omega, zpow_neg, zpow_natCast]
  push_cast
  rw [mul_assoc, mul_inv_cancel₀ (by positivity), mul_one]

theorem natCast_le_roundBinary {n precision : Nat} {x : R} (h : (n : R) ≤ x)
    (hx : x < 2 ^ precision) : (n : R) ≤ roundBinary precision x := by
  rw [roundBinary]
  split
  · rename_i hzero
    exact h.trans hzero.le
  · rename_i hne
    have hpos : 0 < x := lt_of_le_of_ne ((Nat.cast_nonneg n).trans h) (Ne.symm hne)
    obtain ⟨k, hk⟩ := natCast_eq_mul_ulp n (log_lt_of_lt hpos hx)
    have hulp := ulp_pos precision x
    have hunits : ((k : Int) : R) ≤ x / ulp precision x := by
      rw [le_div_iff₀ hulp, Int.cast_natCast, ← hk]
      exact h
    have hround : ((k : Int) : R) ≤ roundHalfEven (x / ulp precision x) :=
      Int.cast_le.mpr (le_roundHalfEven hunits)
    calc (n : R) = ((k : Int) : R) * ulp precision x := by rw [Int.cast_natCast, ← hk]
      _ ≤ roundHalfEven (x / ulp precision x) * ulp precision x :=
          mul_le_mul_of_nonneg_right hround hulp.le

theorem roundBinary_le_natCast {n precision : Nat} {x : R} (hpos : 0 < x) (h : x ≤ n)
    (hx : x < 2 ^ precision) : roundBinary precision x ≤ n := by
  rw [roundBinary, if_neg hpos.ne']
  obtain ⟨k, hk⟩ := natCast_eq_mul_ulp n (log_lt_of_lt hpos hx)
  have hulp := ulp_pos precision x
  have hunits : x / ulp precision x ≤ ((k : Int) : R) := by
    rw [div_le_iff₀ hulp, Int.cast_natCast, ← hk]
    exact h
  have hround : (roundHalfEven (x / ulp precision x) : R) ≤ ((k : Int) : R) :=
    Int.cast_le.mpr (roundHalfEven_le hunits)
  calc roundHalfEven (x / ulp precision x) * ulp precision x
      ≤ ((k : Int) : R) * ulp precision x := mul_le_mul_of_nonneg_right hround hulp.le
    _ = n := by rw [Int.cast_natCast, ← hk]

/-- Natural numbers below `2 ^ precision` are represented. -/
theorem roundBinary_natCast {n precision : Nat} (h : n < 2 ^ precision) :
    roundBinary precision (n : R) = n := by
  have hx : (n : R) < 2 ^ precision := by exact_mod_cast h
  rcases Nat.eq_zero_or_pos n with rfl | hpos
  · rw [roundBinary, if_pos Nat.cast_zero, Nat.cast_zero]
  · exact le_antisymm (roundBinary_le_natCast (Nat.cast_pos.mpr hpos) le_rfl hx)
      (natCast_le_roundBinary le_rfl hx)

theorem abs_sub_roundBinary_le (precision : Nat) (x : R) :
    |x - roundBinary precision x| ≤ ulp precision x / 2 := by
  have hulp := ulp_pos precision x
  rw [roundBinary]
  split
  · rename_i hzero
    rw [hzero, sub_zero, abs_zero]
    exact (half_pos (ulp_pos precision 0)).le
  · have hunits := abs_sub_roundHalfEven_le (x / ulp precision x)
    calc |x - roundHalfEven (x / ulp precision x) * ulp precision x|
        = |(x / ulp precision x - roundHalfEven (x / ulp precision x)) * ulp precision x| := by
          rw [sub_mul, div_mul_cancel₀ x hulp.ne']
      _ = |x / ulp precision x - roundHalfEven (x / ulp precision x)| * ulp precision x := by
          rw [abs_mul, abs_of_pos hulp]
      _ ≤ 1 / 2 * ulp precision x := mul_le_mul_of_nonneg_right hunits hulp.le
      _ = ulp precision x / 2 := by ring

theorem ulp_eq (precision : Nat) (x : R) :
    ulp precision x = 2 ^ (Int.log 2 |x| + 1) / 2 ^ precision := by
  have hne : (2 : R) ≠ 0 := two_pos.ne'
  rw [ulp, zpow_sub₀ hne, zpow_natCast]

theorem ulp_of_mem {precision : Nat} {e : Int} {x : R} (hlow : 2 ^ e ≤ x)
    (hhigh : x < 2 ^ (e + 1)) :
    ulp precision x = 2 ^ (e + 1 - precision) := by
  have hpos : 0 < x := (zpow_pos two_pos e).trans_le hlow
  have hge : e ≤ Int.log 2 x := by
    rw [← Int.zpow_le_iff_le_log one_lt_two hpos]
    exact_mod_cast hlow
  have hlt : Int.log 2 x < e + 1 := by
    rw [← Int.lt_zpow_iff_log_lt one_lt_two hpos]
    exact_mod_cast hhigh
  rw [ulp, abs_of_pos hpos, show Int.log 2 x = e by omega]

theorem ulp_le (precision : Nat) {x : R} (hpos : 0 < x) :
    ulp precision x ≤ 2 * x / 2 ^ precision := by
  have hlog : (2 : R) ^ Int.log 2 |x| ≤ x := by
    rw [abs_of_pos hpos]
    exact_mod_cast Int.zpow_log_le_self (b := 2) one_lt_two hpos
  rw [ulp_eq, zpow_add_one₀ two_ne_zero]
  have hscale : (0 : R) < 2 ^ precision := by positivity
  refine div_le_div_of_nonneg_right ?_ hscale.le
  linarith

/-- The relative error of a rounding. -/
theorem abs_sub_roundBinary_le_div (precision : Nat) {x : R} (hpos : 0 < x) :
    |x - roundBinary precision x| ≤ x / 2 ^ precision := by
  have hulp := ulp_le precision hpos
  have h := abs_sub_roundBinary_le precision x
  calc |x - roundBinary precision x| ≤ ulp precision x / 2 := h
    _ ≤ 2 * x / 2 ^ precision / 2 := by linarith
    _ = x / 2 ^ precision := by ring

/-- What is nearer to a natural number than half a unit is rounded to it. Below a power of two the
units are half as large, which the bound takes into account. -/
theorem roundBinary_eq_natCast {n precision : Nat} {x : R} (hpos : 0 < n) (hn : n < 2 ^ precision)
    (h : |x - n| < n / 2 ^ (precision + 1)) : roundBinary precision x = n := by
  have hone : (1 : R) ≤ n := Nat.one_le_cast.mpr hpos
  have hscale : (0 : R) < 2 ^ precision := by positivity
  have hlast : (n : R) + 1 ≤ 2 ^ precision := by exact_mod_cast hn
  have hhalf : (n : R) / 2 ^ (precision + 1) < 1 / 2 := by
    rw [pow_succ, div_lt_div_iff₀ (by positivity) two_pos]
    linarith
  have hnear := abs_lt.mp h
  have hx : 0 < x := by linarith
  have hless : x < 2 ^ precision := by linarith
  obtain ⟨k, hk⟩ := natCast_eq_mul_ulp n (log_lt_of_lt hx hless)
  have hulp := ulp_pos precision x
  have hunit : |x - n| < ulp precision x / 2 := by
    have htop : x < 2 ^ (Int.log 2 |x| + 1) := by
      rw [abs_of_pos hx]
      exact_mod_cast Int.lt_zpow_succ_log_self (b := 2) one_lt_two x
    rcases le_or_gt (n : R) (2 ^ (Int.log 2 |x| + 1)) with hle | hgt
    · calc |x - n| < n / 2 ^ (precision + 1) := h
        _ ≤ 2 ^ (Int.log 2 |x| + 1) / 2 ^ (precision + 1) :=
            div_le_div_of_nonneg_right hle (by positivity)
        _ = ulp precision x / 2 := by
            rw [ulp_eq, pow_succ]
            field_simp
    · -- the power of two is a natural number below `n`, so `x` is farther away than 1
      have hexponent : 0 ≤ Int.log 2 |x| + 1 := by
        have hmin : (((2 : Nat) : R)) ^ (-1 : Int) ≤ |x| := by
          rw [abs_of_pos hx, zpow_neg_one]
          push_cast
          linarith
        have hlog := (Int.zpow_le_iff_le_log one_lt_two (abs_pos.mpr hx.ne')).mp hmin
        omega
      obtain ⟨d, hd⟩ := Int.eq_ofNat_of_zero_le hexponent
      rw [hd, zpow_natCast] at hgt htop
      have hnat : (2 : R) ^ d + 1 ≤ n := by exact_mod_cast hgt
      linarith
  have hunits : |x / ulp precision x - ((k : Int) : R)| < 1 / 2 := by
    rw [Int.cast_natCast, ← mul_div_cancel_right₀ (k : R) hulp.ne', ← hk, ← sub_div, abs_div,
      abs_of_pos hulp, div_lt_iff₀ hulp]
    linarith
  rw [roundBinary, if_neg hx.ne', roundHalfEven_eq hunits, Int.cast_natCast, ← hk]

end HftProject.Rounding
