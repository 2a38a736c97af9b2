import HftProject.Lib.Run
import Mathlib.Algebra.BigOperators.Group.Finset.Piecewise
import Mathlib.Tactic.Abel

/-!
Conservation of what passes through the hands of finitely many agents. Each agent is in a
state; a measure of the states with values in a cancellative commutative monoid is summed
over the agents. When one agent changes its state, the sum changes by what that agent gains
or loses. Over a run a measure grows by what the steps give out, and all agents get where each
can be brought. Where every step that costs is paid for by the potential, by some operations or by
what is given out, so is the run (`run_pays`).
-/

namespace HftProject.Conservation

variable {ι S M : Type} [Fintype ι] [DecidableEq ι] [AddCancelCommMonoid M]

/-- What all agents hold. -/
def total (measure : ι → S → M) (agents : ι → S) : M := ∑ i, measure i (agents i)

omit [DecidableEq ι] in
theorem total_zero {measure : ι → S → M} {agents : ι → S} (h : ∀ i, measure i (agents i) = 0) :
    total measure agents = 0 := Finset.sum_eq_zero fun i _ => h i

variable (measure : ι → S → M) (agents : ι → S) (i : ι) (s : S)

theorem total_split : ∃ rest, total measure agents = measure i (agents i) + rest :=
  ⟨_, (Finset.add_sum_erase _ (fun j => measure j (agents j)) (Finset.mem_univ i)).symm⟩

theorem total_update :
    total measure (Function.update agents i s) + measure i (agents i) =
      total measure agents + measure i s := by
  have hrest : ∑ j ∈ Finset.univ.erase i, measure j (Function.update agents i s j) =
      ∑ j ∈ Finset.univ.erase i, measure j (agents j) := by
    apply Finset.sum_congr rfl
    intro j hj
    rw [Function.update_of_ne (Finset.ne_of_mem_erase hj)]
  rw [total, total, ← Finset.add_sum_erase _ _ (Finset.mem_univ i),
    ← Finset.add_sum_erase _ (fun j => measure j (agents j)) (Finset.mem_univ i), hrest,
    Function.update_self]
  abel

variable {measure agents i s}

/-- The agent holds the same before and after. -/
theorem total_update_same (h : measure i s = measure i (agents i)) :
    total measure (Function.update agents i s) = total measure agents := by
  have hupdate := total_update measure agents i s
  rw [h] at hupdate
  exact add_right_cancel hupdate

/-- An agent with empty hands takes something. -/
theorem total_update_gain (h : measure i (agents i) = 0) :
    total measure (Function.update agents i s) = total measure agents + measure i s := by
  have hupdate := total_update measure agents i s
  rwa [h, add_zero] at hupdate

/-- What is accounted for stays so when the agent's change is made up for. -/
theorem balance_update {account account' whole whole' : M}
    (h : account + total measure agents = whole)
    (hbalance : account' + measure i s + whole = account + measure i (agents i) + whole') :
    account' + total measure (Function.update agents i s) = whole' := by
  have hupdate := total_update measure agents i s
  have hsum : account' + total measure (Function.update agents i s) +
      (measure i (agents i) + whole) = whole' + (measure i (agents i) + whole) := by
    calc account' + total measure (Function.update agents i s) + (measure i (agents i) + whole)
      _ = account' + (total measure (Function.update agents i s) + measure i (agents i)) +
          whole := by abel
      _ = account' + measure i s + whole + total measure agents := by rw [hupdate]; abel
      _ = account + total measure agents + measure i (agents i) + whole' := by
          rw [hbalance]; abel
      _ = whole' + (measure i (agents i) + whole) := by rw [h]; abel
  exact add_right_cancel hsum

/-! ### Over a run -/

/-- When each agent can be brought to a place without moving those that are there, all can be
brought there. -/
theorem reaches_forall {Op State E : Type} {step : Op → State → Except E State}
    {I : State → Prop} {P : ι → State → Prop}
    (bring : ∀ s, I s → ∀ i, ∃ s', Run.Reaches step s s' ∧ I s' ∧ P i s' ∧ ∀ j, P j s → P j s')
    {s : State} (init : I s) : ∃ s', Run.Reaches step s s' ∧ I s' ∧ ∀ i, P i s' := by
  have hsome : ∀ agents : Finset ι,
      ∃ s', Run.Reaches step s s' ∧ I s' ∧ ∀ i ∈ agents, P i s' := by
    intro agents
    induction agents using Finset.induction_on with
    | empty => exact ⟨s, .refl s, init, fun i hi => absurd hi (Finset.notMem_empty i)⟩
    | insert i agents _ ih =>
        obtain ⟨m, hm, hI, hagents⟩ := ih
        obtain ⟨t, ht, hI', hthere, hkept⟩ := bring m hI i
        refine ⟨t, hm.trans ht, hI', fun j hj => ?_⟩
        rcases Finset.mem_insert.mp hj with rfl | hj
        · exact hthere
        · exact hkept j (hagents j hj)
  obtain ⟨t, ht, hI, hall⟩ := hsome Finset.univ
  exact ⟨t, ht, hI, fun i => hall i (Finset.mem_univ i)⟩

/-- A measure that every step raises by the weight of what the step gives out. -/
theorem outputs_weigh {Op State E B M : Type} [AddCommMonoid M]
    {step : Op → State → Except E State} {out : Op → State → Option B} {w : B → M}
    {μ : State → M} {I : State → Prop}
    (kept : ∀ op s s', I s → step op s = .ok s' →
      I s' ∧ μ s' = μ s + ((out op s).toList.map w).sum)
    {ops : List Op} {s t : State} (init : I s) (h : Run.run step ops s = .ok t) :
    μ t = μ s + ((Run.outputs step out ops s).map w).sum := by
  induction ops generalizing s with
  | nil =>
      cases h
      simp
  | cons op ops ih =>
      obtain ⟨s', hs, hrun⟩ := Run.run_cons_inv h
      obtain ⟨hI, hstep⟩ := kept op s s' init hs
      rw [Run.outputs_cons_ok hs, List.map_append, List.sum_append, ← add_assoc, ← hstep]
      exact ih hI hrun

/-- Each step that costs is paid for: by the potential, or with `grant` by the operation, or with
`earning` by what the step gives out. So are those of a run. -/
theorem run_pays {Op State E B : Type} {step : Op → State → Except E State}
    {out : Op → State → Option B} {Φ : State → Nat} {I : State → Prop} {costs grants : Op → Bool}
    {earns : B → Bool} {grant earning : Nat}
    (kept : ∀ op s s', I s → step op s = .ok s' → I s' ∧
      Φ s' + (if costs op then 1 else 0) ≤
        Φ s + (if grants op then grant else 0) + if (out op s).any earns then earning else 0)
    {ops : List Op} {s t : State} (init : I s) (h : Run.run step ops s = .ok t) :
    Φ t + ops.countP costs ≤
      Φ s + grant * ops.countP grants + earning * (Run.outputs step out ops s).countP earns := by
  induction ops generalizing s with
  | nil =>
      cases h
      simp
  | cons op ops ih =>
      obtain ⟨s', hs, hrun⟩ := Run.run_cons_inv h
      obtain ⟨hI, hstep⟩ := kept op s s' init hs
      have hrest := ih hI hrun
      have hgrants : grant * (op :: ops).countP grants =
          grant * ops.countP grants + if grants op then grant else 0 := by
        rw [List.countP_cons, Nat.mul_add, mul_ite, Nat.mul_one, Nat.mul_zero]
      have hearns : earning * ((out op s).toList ++ Run.outputs step out ops s').countP earns =
          (if (out op s).any earns then earning else 0) +
            earning * (Run.outputs step out ops s').countP earns := by
        rw [List.countP_append, Nat.mul_add]
        cases out op s with
        | none => rfl
        | some b =>
            change earning * [b].countP earns + _ = _
            rw [List.countP_singleton, mul_ite, Nat.mul_one, Nat.mul_zero]
            rfl
      rw [Run.outputs_cons_ok hs, hgrants, hearns, List.countP_cons]
      omega

end HftProject.Conservation
