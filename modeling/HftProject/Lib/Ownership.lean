import Mathlib.Logic.Function.Basic

/-!
Unique ownership. An owner holds one resource at most; a resource is live exactly while some owner
holds it, and no two owners hold the same one. Taking a fresh resource, giving one back and moving
one from an owner to another keep it so.
-/

namespace HftProject.Ownership

variable {ι A : Type} [DecidableEq ι]

/-- Each live resource has exactly one owner. -/
structure Owned (holds : ι → Option A) (live : A → Prop) : Prop where
  unique : ∀ i j a, holds i = some a → holds j = some a → i = j
  live_iff : ∀ a, live a ↔ ∃ i, holds i = some a

namespace Owned

variable {holds : ι → Option A} {live live' : A → Prop} {i j : ι} {a : A}

omit [DecidableEq ι] in
theorem congr (h : Owned holds live) (hlive : ∀ a, live' a ↔ live a) : Owned holds live' :=
  ⟨h.unique, fun a => (hlive a).trans (h.live_iff a)⟩

/-- The owner takes a resource that nobody has. -/
theorem acquire (h : Owned holds live) (hi : holds i = none) (ha : ¬ live a) :
    Owned (Function.update holds i (some a)) fun b => b = a ∨ live b := by
  have hother : ∀ j, j ≠ i → holds j ≠ some a := fun j _ hj =>
    ha ((h.live_iff a).mpr ⟨j, hj⟩)
  constructor
  · intro j k b hj hk
    by_cases hji : j = i <;> by_cases hki : k = i
    · rw [hji, hki]
    · rw [hji, Function.update_self] at hj
      rw [Function.update_of_ne hki, ← hj] at hk
      exact absurd hk (hother k hki)
    · rw [hki, Function.update_self] at hk
      rw [Function.update_of_ne hji, ← hk] at hj
      exact absurd hj (hother j hji)
    · rw [Function.update_of_ne hji] at hj
      rw [Function.update_of_ne hki] at hk
      exact h.unique j k b hj hk
  · intro b
    constructor
    · rintro (rfl | hb)
      · exact ⟨i, Function.update_self ..⟩
      · obtain ⟨j, hj⟩ := (h.live_iff b).mp hb
        have hji : j ≠ i := fun heq => by
          rw [heq, hi] at hj
          cases hj
        exact ⟨j, (Function.update_of_ne hji _ _).trans hj⟩
    · rintro ⟨j, hj⟩
      by_cases hji : j = i
      · rw [hji, Function.update_self] at hj
        exact .inl (Option.some.inj hj).symm
      · rw [Function.update_of_ne hji] at hj
        exact .inr ((h.live_iff b).mpr ⟨j, hj⟩)

/-- The owner gives its resource back. -/
theorem release (h : Owned holds live) (hi : holds i = some a) :
    Owned (Function.update holds i none) fun b => live b ∧ b ≠ a := by
  have hkept : ∀ {j b}, Function.update holds i none j = some b → j ≠ i ∧ holds j = some b := by
    intro j b hj
    by_cases hji : j = i
    · rw [hji, Function.update_self] at hj
      cases hj
    · exact ⟨hji, by rwa [Function.update_of_ne hji] at hj⟩
  constructor
  · intro j k b hj hk
    exact h.unique j k b (hkept hj).2 (hkept hk).2
  · intro b
    constructor
    · rintro ⟨hb, hba⟩
      obtain ⟨j, hj⟩ := (h.live_iff b).mp hb
      have hji : j ≠ i := fun heq => by
        rw [heq, hi] at hj
        exact hba (Option.some.inj hj).symm
      exact ⟨j, (Function.update_of_ne hji _ _).trans hj⟩
    · rintro ⟨j, hj⟩
      obtain ⟨hji, hj⟩ := hkept hj
      refine ⟨(h.live_iff b).mpr ⟨j, hj⟩, fun hba => hji ?_⟩
      exact h.unique j i a (hba ▸ hj) hi

/-- The resource of one owner goes to another, which has none. -/
theorem move (h : Owned holds live) (hi : holds i = none) :
    Owned (Function.update (Function.update holds j none) i (holds j)) live := by
  have hback : ∀ {k b}, Function.update (Function.update holds j none) i (holds j) k = some b →
      (k = i ∧ holds j = some b) ∨ (k ≠ i ∧ k ≠ j ∧ holds k = some b) := by
    intro k b hk
    by_cases hki : k = i
    · rw [hki, Function.update_self] at hk
      exact .inl ⟨hki, hk⟩
    · rw [Function.update_of_ne hki] at hk
      by_cases hkj : k = j
      · rw [hkj, Function.update_self] at hk
        cases hk
      · rw [Function.update_of_ne hkj] at hk
        exact .inr ⟨hki, hkj, hk⟩
  constructor
  · intro k l b hk hl
    rcases hback hk with ⟨hki, hj⟩ | ⟨-, hkj, hk⟩
    · rcases hback hl with ⟨hli, -⟩ | ⟨-, hlj, hl⟩
      · rw [hki, hli]
      · exact absurd (h.unique l j b hl hj) hlj
    · rcases hback hl with ⟨-, hj⟩ | ⟨-, -, hl⟩
      · exact absurd (h.unique k j b hk hj) hkj
      · exact h.unique k l b hk hl
  · intro b
    rw [h.live_iff]
    constructor
    · rintro ⟨k, hk⟩
      by_cases hkj : k = j
      · exact ⟨i, by rw [Function.update_self, ← hkj, hk]⟩
      · have hki : k ≠ i := fun heq => by
          rw [heq, hi] at hk
          cases hk
        exact ⟨k, by rw [Function.update_of_ne hki, Function.update_of_ne hkj, hk]⟩
    · rintro ⟨k, hk⟩
      rcases hback hk with ⟨-, hj⟩ | ⟨-, -, hk⟩
      · exact ⟨j, hj⟩
      · exact ⟨k, hk⟩

end Owned

end HftProject.Ownership
