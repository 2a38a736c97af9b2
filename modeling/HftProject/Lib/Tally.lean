import Mathlib.Algebra.BigOperators.Group.List.Lemmas
import Mathlib.Algebra.GroupWithZero.Nat
import Std.Data.ExtTreeMap.Lemmas

/-!
Counting occurrences in a sorted map. A key is entered with its first occurrence, so the entries
are the keys that occur, in order, each with the number of times that it does.
-/

namespace HftProject.Tally

open Std

variable {K : Type} [Ord K] [TransOrd K] [LawfulEqOrd K] [DecidableEq K]

def count (keys : List K) : ExtTreeMap K Nat :=
  keys.foldl (fun counts key => counts.insert key ((counts[key]?).getD 0 + 1)) ∅

theorem getElem?_count (keys : List K) (key : K) :
    (count keys)[key]? = if key ∈ keys then some (keys.count key) else none := by
  induction keys using List.reverseRecOn with
  | nil => simp [count]
  | append_singleton keys last ih =>
      have hlast : count (keys ++ [last]) =
          (count keys).insert last (((count keys)[last]?).getD 0 + 1) := by
        rw [count, List.foldl_append]
        rfl
      rw [hlast, ExtTreeMap.getElem?_insert]
      by_cases hkey : last = key
      · subst hkey
        rw [if_pos compare_self, if_pos (by simp), ih, List.count_append]
        by_cases hmem : last ∈ keys
        · simp [hmem]
        · simp [hmem, List.count_eq_zero_of_not_mem hmem]
      · rw [if_neg (by simpa using hkey), ih]
        simp [Ne.symm hkey, List.count_append, hkey]

/-- The entries are the keys that occur, with their numbers. -/
theorem mem_toList_count (keys : List K) (key : K) (n : Nat) :
    (key, n) ∈ (count keys).toList ↔ 0 < n ∧ keys.count key = n := by
  rw [ExtTreeMap.mem_toList_iff_getElem?_eq_some, getElem?_count]
  by_cases hmem : key ∈ keys
  · rw [if_pos hmem, Option.some.injEq]
    constructor
    · rintro rfl
      exact ⟨List.count_pos_iff.mpr hmem, rfl⟩
    · exact And.right
  · rw [if_neg hmem, List.count_eq_zero_of_not_mem hmem]
    constructor
    · intro h
      cases h
    · rintro ⟨hpos, rfl⟩
      exact absurd hpos (Nat.lt_irrefl 0)

/-- Every occurrence is counted once. -/
theorem sum_toList_count (keys : List K) : ((count keys).toList.map (·.2)).sum = keys.length := by
  have hnumbers : (count keys).toList.map (·.2) =
      ((count keys).toList.map (·.1)).map fun key => keys.count key := by
    rw [List.map_map]
    refine List.map_congr_left ?_
    rintro ⟨key, n⟩ hentry
    exact ((mem_toList_count keys key n).mp hentry).2.symm
  have hnodup : ((count keys).toList.map (·.1)).Nodup := by
    rw [List.Nodup, List.pairwise_map]
    refine (ExtTreeMap.ordered_keys_toList (t := count keys)).imp ?_
    intro a b hlt heq
    rw [heq, compare_self] at hlt
    cases hlt
  have hperm : ((count keys).toList.map (·.1)).Perm keys.dedup := by
    rw [List.perm_ext_iff_of_nodup hnodup keys.nodup_dedup]
    intro key
    rw [List.mem_dedup, List.mem_map]
    constructor
    · rintro ⟨⟨k, n⟩, hentry, rfl⟩
      obtain ⟨hpos, hcount⟩ := (mem_toList_count keys k n).mp hentry
      exact List.count_pos_iff.mp (hcount ▸ hpos)
    · intro hmem
      exact ⟨(key, keys.count key),
        (mem_toList_count keys key _).mpr ⟨List.count_pos_iff.mpr hmem, rfl⟩, rfl⟩
  rw [hnumbers, (hperm.map _).sum_eq, List.sum_map_count_dedup_eq_length]

end HftProject.Tally
