import Mathlib.Data.Nat.Find
import Mathlib.Data.Nat.ModEq

/-!
Linear probing in a ring of `n` slots. A probe starts at the home slot of a key and
goes on to the next slot, from the last to the first. `Path full n home d` says that
the first `d` slots it comes to satisfy `full`, which may depend on how far from home
the slot is. Within `n` steps no slot is visited twice (`slot_inj`) and every slot is
visited (`exists_slot`), so a probe ends at the first slot that is not full
(`exists_end`).
-/

namespace HftProject.Probing

/-- The slot that a probe from `home` comes to after `i` steps. -/
def slot (n home i : Nat) : Nat := (home + i) % n

/-- The first `d` slots from `home` are full; `full b j` is asked of the slot `b` that
is `j` steps away. -/
def Path (full : Nat → Nat → Prop) (n home d : Nat) : Prop := ∀ j < d, full (slot n home j) j

variable {n home i j d : Nat} {full full' : Nat → Nat → Prop}

theorem slot_lt (hn : 0 < n) : slot n home i < n := Nat.mod_lt _ hn

theorem slot_zero (h : home < n) : slot n home 0 = home := Nat.mod_eq_of_lt h

/-- One step on. -/
theorem slot_succ : (slot n home i + 1) % n = slot n home (i + 1) := by
  rw [slot, slot, Nat.mod_add_mod, Nat.add_assoc]

/-- A probe of less than a round visits no slot twice. -/
theorem slot_inj (hi : i < n) (hj : j < n) (h : slot n home i = slot n home j) : i = j := by
  have hmod : i % n = j % n := Nat.ModEq.add_left_cancel' home h
  rwa [Nat.mod_eq_of_lt hi, Nat.mod_eq_of_lt hj] at hmod

/-- A probe of a whole round visits every slot. -/
theorem exists_slot (hhome : home < n) {b : Nat} (hb : b < n) : ∃ i < n, slot n home i = b := by
  by_cases hle : home ≤ b
  · refine ⟨b - home, by omega, ?_⟩
    rw [slot, Nat.add_sub_cancel' hle, Nat.mod_eq_of_lt hb]
  · refine ⟨n - home + b, by omega, ?_⟩
    have hround : home + (n - home + b) = b + n := by omega
    rw [slot, hround, Nat.add_mod_right, Nat.mod_eq_of_lt hb]

/-- How many steps a probe takes from `home` to slot `b`. -/
def distance (n home b : Nat) : Nat := (b + n - home) % n

theorem distance_slot (hhome : home < n) (hi : i < n) : distance n home (slot n home i) = i := by
  rw [distance, slot]
  by_cases hlt : home + i < n
  · rw [Nat.mod_eq_of_lt hlt, show home + i + n - home = i + n by omega, Nat.add_mod_right,
      Nat.mod_eq_of_lt hi]
  · have hwrap : (home + i) % n = home + i - n := by
      rw [Nat.mod_eq_sub_mod (not_lt.mp hlt), Nat.mod_eq_of_lt (by omega)]
    rw [hwrap, show home + i - n + n - home = i by omega, Nat.mod_eq_of_lt hi]

/-- Where there is a slot that does not satisfy `p`, a probe comes to a first one. -/
theorem exists_end {p : Nat → Prop} (hhome : home < n) {b : Nat} (hb : b < n) (hnot : ¬ p b) :
    ∃ d < n, ¬ p (slot n home d) ∧ ∀ i < d, p (slot n home i) := by
  classical
  obtain ⟨i, hi, rfl⟩ := exists_slot hhome hb
  have hex : ∃ d, ¬ p (slot n home d) := ⟨i, hnot⟩
  refine ⟨Nat.find hex, lt_of_le_of_lt (Nat.find_min' hex hnot) hi, Nat.find_spec hex, ?_⟩
  intro j hj
  exact not_not.mp (Nat.find_min hex hj)

theorem Path.zero : Path full n home 0 := fun j hj => absurd hj (Nat.not_lt_zero j)

theorem Path.succ (h : Path full n home d) (hd : full (slot n home d) d) :
    Path full n home (d + 1) := by
  intro j hj
  rcases Nat.lt_succ_iff_lt_or_eq.mp hj with hj | rfl
  · exact h j hj
  · exact hd

theorem Path.le (h : Path full n home d) (hi : i ≤ d) : Path full n home i :=
  fun j hj => h j (lt_of_lt_of_le hj hi)

theorem Path.mono (h : Path full n home d) (himp : ∀ b j, full b j → full' b j) :
    Path full' n home d :=
  fun j hj => himp _ _ (h j hj)

end HftProject.Probing
