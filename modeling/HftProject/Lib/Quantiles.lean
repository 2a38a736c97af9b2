import Mathlib.Data.List.Count
import Mathlib.Data.List.Sort
import Mathlib.Data.Rat.Cast.Order
import Mathlib.Order.Basic
import Mathlib.Tactic.Linarith

/-!
Quantiles of finitely many values. The value at a share of the length of the sorted values is the
quantile of that share. A quantile is unique, does not depend on the order of the values, and grows
with its share.
-/

namespace HftProject.Quantiles

variable {A : Type} [LinearOrder A]

/-- Of the values at most the share `p` is less than `v`, and more than the share `p` is not
greater. -/
structure Quantile (p : ℚ) (values : List A) (v : A) : Prop where
  mem : v ∈ values
  below : (values.countP (· < v) : ℚ) ≤ p * values.length
  above : p * values.length < values.countP (· ≤ v)

namespace Quantile

variable {p q : ℚ} {values values' : List A} {v w : A}

theorem perm (h : Quantile p values v) (hperm : values.Perm values') : Quantile p values' v :=
  ⟨hperm.mem_iff.mp h.mem, by rw [← hperm.countP_eq, ← hperm.length_eq]; exact h.below,
    by rw [← hperm.countP_eq, ← hperm.length_eq]; exact h.above⟩

theorem mono (hv : Quantile p values v) (hw : Quantile q values w) (hpq : p ≤ q) : v ≤ w := by
  by_contra hless
  have hcount : values.countP (· ≤ w) ≤ values.countP (· < v) := by
    refine List.countP_mono_left fun x _ hx => ?_
    exact decide_eq_true ((of_decide_eq_true hx).trans_lt (not_le.mp hless))
  have hscale : p * values.length ≤ q * values.length :=
    mul_le_mul_of_nonneg_right hpq (Nat.cast_nonneg _)
  have := hv.below
  have := hw.above
  have : ((values.countP (· ≤ w) : Nat) : ℚ) ≤ (values.countP (· < v) : Nat) :=
    Nat.cast_le.mpr hcount
  linarith

theorem unique (hv : Quantile p values v) (hw : Quantile p values w) : v = w :=
  le_antisymm (hv.mono hw le_rfl) (hw.mono hv le_rfl)

/-- The values before the place are not greater than the one there, and those after it are not
less. -/
theorem of_sorted (hsorted : values.Pairwise (· ≤ ·)) {i : Nat} (hi : i < values.length)
    (hlow : (i : ℚ) ≤ p * values.length) (hhigh : p * values.length < i + 1) :
    Quantile p values values[i] := by
  have hbefore : ∀ x ∈ values.take (i + 1), x ≤ values[i] := by
    intro x hx
    obtain ⟨j, hj, rfl⟩ := List.mem_take_iff_getElem.mp hx
    rcases Nat.lt_or_ge j i with hlt | hge
    · exact List.pairwise_iff_getElem.mp hsorted j i _ hi hlt
    · have heq : j = i := by omega
      subst heq
      exact le_rfl
  have hafter : ∀ x ∈ values.drop i, values[i] ≤ x := by
    intro x hx
    obtain ⟨j, hj, rfl⟩ := List.mem_drop_iff_getElem.mp hx
    rcases Nat.eq_zero_or_pos j with rfl | hpos
    · exact le_rfl
    · exact List.pairwise_iff_getElem.mp hsorted i (i + j) hi _ (by omega)
  have hnone : (values.drop i).countP (· < values[i]) = 0 :=
    List.countP_eq_zero.mpr fun x hx hlt =>
      absurd (of_decide_eq_true hlt) (not_lt.mpr (hafter x hx))
  have hall : (values.take (i + 1)).countP (· ≤ values[i]) = (values.take (i + 1)).length :=
    List.countP_eq_length.mpr fun x hx => decide_eq_true (hbefore x hx)
  refine ⟨List.getElem_mem hi, le_trans (Nat.cast_le.mpr ?_) hlow, hhigh.trans_le ?_⟩
  · calc values.countP (· < values[i])
        = (values.take i).countP (· < values[i]) + (values.drop i).countP (· < values[i]) := by
          rw [← List.countP_append, List.take_append_drop]
      _ = (values.take i).countP (· < values[i]) := by rw [hnone, Nat.add_zero]
      _ ≤ (values.take i).length := List.countP_le_length
      _ ≤ i := List.length_take_le i values
  · have hcount := (List.take_sublist (i + 1) values).countP_le (p := fun x => x ≤ values[i])
    rw [hall, List.length_take, Nat.min_eq_left hi] at hcount
    exact_mod_cast hcount

end Quantile

end HftProject.Quantiles
