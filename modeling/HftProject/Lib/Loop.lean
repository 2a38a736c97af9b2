import Mathlib.Data.List.Chain

/-!
Loops. `pass` is one pass of a loop, or `none` where the loop ends; `Passes` is a whole
loop with the state that each pass leaves. A loop whose passes decrease a variant comes to
its end, after no more passes than the variant of its first state (`exists_passes`).
-/

namespace HftProject.Loop

variable {S E : Type}

/-- From the first state the loop comes to its end in the last, through these states. -/
inductive Passes (pass : S → Except E (Option S)) : S → List S → S → Prop where
  | exit {s : S} : pass s = .ok none → Passes pass s [] s
  | again {s m t : S} {states : List S} :
      pass s = .ok (some m) → Passes pass m states t → Passes pass s (m :: states) t

variable {pass : S → Except E (Option S)}

theorem Passes.target {s t : S} {states : List S} (h : Passes pass s states t) :
    pass t = .ok none := by
  induction h with
  | exit hexit => exact hexit
  | again _ _ ih => exact ih

/-- A chain that descends from a state is no longer than its variant. -/
theorem length_le_variant {μ : S → Nat} {s : S} {states : List S}
    (h : List.IsChain (fun a b => μ b < μ a) (s :: states)) : states.length ≤ μ s := by
  induction states generalizing s with
  | nil => exact Nat.zero_le _
  | cons m states ih =>
      obtain ⟨hlt, hrest⟩ := List.isChain_cons_cons.mp h
      exact Nat.lt_of_le_of_lt (ih hrest) hlt

/-- When a pass from an invariant state ends the loop, or keeps the invariant, stands in `R`
to its state and decreases the variant, the loop comes to its end. -/
theorem exists_passes {I : S → Prop} {R : S → S → Prop} {μ : S → Nat}
    (passes : ∀ s, I s → pass s = .ok none ∨ ∃ m, pass s = .ok (some m) ∧ I m ∧ R s m)
    (decreases : ∀ s m, R s m → μ m < μ s) {s : S} (init : I s) :
    ∃ states t, Passes pass s states t ∧ I t ∧ List.IsChain R (s :: states) ∧
      states.length ≤ μ s := by
  have hloop : ∃ states t, Passes pass s states t ∧ I t ∧ List.IsChain R (s :: states) := by
    induction hn : μ s using Nat.strong_induction_on generalizing s with
    | _ n ih =>
      rcases passes s init with hexit | ⟨m, hpass, hI, hR⟩
      · exact ⟨[], s, .exit hexit, init, List.isChain_singleton s⟩
      · obtain ⟨states, t, hrest, hIt, hchain⟩ := ih (μ m) (hn ▸ decreases s m hR) hI rfl
        exact ⟨m :: states, t, .again hpass hrest, hIt, List.isChain_cons_cons.mpr ⟨hR, hchain⟩⟩
  obtain ⟨states, t, hrun, hI, hchain⟩ := hloop
  exact ⟨states, t, hrun, hI, hchain, length_le_variant (hchain.imp decreases)⟩

end HftProject.Loop
