import Mathlib.Data.List.Basic
import Mathlib.Data.List.Infix

/-!
Runs of a fallible step function. A state machine whose operations may fail is
a function `step : Op → S → Except E S`; a run feeds it a list of operations
and stops at the first failure. `Always` speaks about every state a run
reaches, the initial one included, and `Steps` about every operation together
with the state it is applied to. `always_iff_steps` is the rule for an
invariant that holds exactly as long as every step meets a condition.
-/

namespace HftProject.Run

variable {S Op E : Type}

/-! ### Steps made of steps -/

theorem except_bind_inv {A B : Type} {x : Except E A} {f : A → Except E B} {b : B}
    (h : (x >>= f) = .ok b) : ∃ a, x = .ok a ∧ f a = .ok b := by
  cases x with
  | error e => cases h
  | ok a => exact ⟨a, rfl, h⟩

theorem except_map_inv {A B : Type} {x : Except E A} {f : A → B} {b : B}
    (h : f <$> x = .ok b) : ∃ a, x = .ok a ∧ f a = b := by
  cases x with
  | error e => cases h
  | ok a => exact ⟨a, rfl, Except.ok.inj h⟩

/-! ### Runs -/

/-- Apply the operations in order, stopping at the first failure. -/
def run (step : Op → S → Except E S) : List Op → S → Except E S
  | [], s => .ok s
  | op :: ops, s =>
      match step op s with
      | .ok s' => run step ops s'
      | .error e => .error e

variable {step : Op → S → Except E S}

@[simp] theorem run_nil (s : S) : run step [] s = .ok s := rfl

theorem run_cons_ok {op : Op} {ops : List Op} {s s' : S} (h : step op s = .ok s') :
    run step (op :: ops) s = run step ops s' := by
  simp [run, h]

theorem run_cons_error {op : Op} {ops : List Op} {s : S} {e : E} (h : step op s = .error e) :
    run step (op :: ops) s = .error e := by
  simp [run, h]

/-- A run of a nonempty list succeeds through its first step. -/
theorem run_cons_inv {op : Op} {ops : List Op} {s t : S} (h : run step (op :: ops) s = .ok t) :
    ∃ s', step op s = .ok s' ∧ run step ops s' = .ok t := by
  cases hs : step op s with
  | error e => rw [run_cons_error hs] at h; cases h
  | ok s' => exact ⟨s', rfl, by rwa [run_cons_ok hs] at h⟩

/-- A run splits at any point. -/
theorem run_append {ops ops' : List Op} {s t : S} :
    run step (ops ++ ops') s = .ok t ↔ ∃ m, run step ops s = .ok m ∧ run step ops' m = .ok t := by
  induction ops generalizing s with
  | nil => simp
  | cons op ops ih =>
      cases hs : step op s with
      | error e => simp [run_cons_error hs]
      | ok s' => simpa [run_cons_ok hs] using ih

/-- A run is a monadic fold. -/
theorem foldlM_eq_run (f : S → Op → Except E S) (ops : List Op) (s : S) :
    ops.foldlM f s = run (fun op s => f s op) ops s := by
  induction ops generalizing s with
  | nil => rfl
  | cons op ops ih =>
      rw [List.foldlM_cons]
      cases hs : f s op with
      | error e => rw [run_cons_error hs]; rfl
      | ok s' =>
          simp only [run, hs]
          exact ih s'

/-- When every step from an invariant state succeeds and keeps the invariant,
every run succeeds and keeps it. -/
theorem run_total {I : S → Prop} (progress : ∀ op s, I s → ∃ s', step op s = .ok s' ∧ I s')
    {ops : List Op} {s : S} (init : I s) : ∃ t, run step ops s = .ok t ∧ I t := by
  induction ops generalizing s with
  | nil => exact ⟨s, rfl, init⟩
  | cons op ops ih =>
      obtain ⟨s', hs, hI⟩ := progress op s init
      rw [run_cons_ok hs]
      exact ih hI

/-- Steps that refine an abstract operation make runs that refine its iteration. -/
theorem run_refines {A : Type} {R : A → S → Prop} {f : A → Op → A}
    (progress : ∀ op a s, R a s → ∃ s', step op s = .ok s' ∧ R (f a op) s') {ops : List Op} {a : A}
    {s : S} (init : R a s) : ∃ t, run step ops s = .ok t ∧ R (ops.foldl f a) t := by
  induction ops generalizing a s with
  | nil => exact ⟨s, rfl, init⟩
  | cons op ops ih =>
      obtain ⟨s', hs, hR⟩ := progress op a s init
      rw [run_cons_ok hs, List.foldl_cons]
      exact ih hR

/-- What every step that succeeds keeps, a run that succeeds keeps. -/
theorem run_invariant {I : S → Prop} (kept : ∀ op s s', I s → step op s = .ok s' → I s')
    {ops : List Op} {s t : S} (init : I s) (h : run step ops s = .ok t) : I t := by
  induction ops generalizing s with
  | nil =>
      cases h
      exact init
  | cons op ops ih =>
      obtain ⟨s', hs, hrun⟩ := run_cons_inv h
      exact ih (kept op s s' init hs) hrun

/-- What every allowed step keeps, a run of such steps keeps. -/
theorem run_invariant_on {I : S → Prop} {Allowed : Op → Prop}
    (kept : ∀ op s s', Allowed op → I s → step op s = .ok s' → I s') {ops : List Op}
    (hops : ∀ op ∈ ops, Allowed op) {s t : S} (init : I s) (h : run step ops s = .ok t) : I t := by
  induction ops generalizing s with
  | nil =>
      cases h
      exact init
  | cons op ops ih =>
      obtain ⟨s', hs, hrun⟩ := run_cons_inv h
      exact ih (fun op' hop' => hops op' (List.mem_cons_of_mem op hop'))
        (kept op s s' (hops op List.mem_cons_self) init hs) hrun

/-- When every step that succeeds is one of an abstract machine, so is every run that succeeds. -/
theorem run_simulates {A E' : Type} {R : A → S → Prop} {abstractStep : Op → A → Except E' A}
    (sim : ∀ op a s s', R a s → step op s = .ok s' →
      ∃ a', abstractStep op a = .ok a' ∧ R a' s')
    {ops : List Op} {a : A} {s t : S} (init : R a s) (h : run step ops s = .ok t) :
    ∃ b, run abstractStep ops a = .ok b ∧ R b t := by
  induction ops generalizing a s with
  | nil =>
      cases h
      exact ⟨a, rfl, init⟩
  | cons op ops ih =>
      obtain ⟨s', hs, hrun⟩ := run_cons_inv h
      obtain ⟨a', ha, hR⟩ := sim op a s s' init hs
      rw [run_cons_ok ha]
      exact ih hR hrun

/-! ### States and steps along a run -/

/-- Every state the run reaches, the initial state included, satisfies `Good`. -/
def Always (step : Op → S → Except E S) (ops : List Op) (s : S) (Good : S → Prop) : Prop :=
  ∀ pre, pre <+: ops → ∀ t, run step pre s = .ok t → Good t

/-- Every operation the run comes to is applied in a state that meets `Cond`. -/
def Steps (step : Op → S → Except E S) (ops : List Op) (s : S) (Cond : Op → S → Prop) : Prop :=
  ∀ pre op, pre ++ [op] <+: ops → ∀ t, run step pre s = .ok t → Cond op t

theorem always_nil {s : S} {Good : S → Prop} : Always step [] s Good ↔ Good s := by
  constructor
  · intro h
    exact h [] (List.prefix_refl _) s rfl
  · intro h pre hpre t ht
    rw [List.prefix_nil.mp hpre] at ht
    cases ht
    exact h

theorem always_cons {op : Op} {ops : List Op} {s : S} {Good : S → Prop} :
    Always step (op :: ops) s Good ↔
      Good s ∧ ∀ s', step op s = .ok s' → Always step ops s' Good := by
  constructor
  · intro h
    refine ⟨h [] (List.nil_prefix) s rfl, fun s' hs pre hpre t ht => ?_⟩
    exact h (op :: pre) (List.cons_prefix_cons.mpr ⟨rfl, hpre⟩) t (by rwa [run_cons_ok hs])
  · rintro ⟨hs, htail⟩ pre hpre t ht
    cases pre with
    | nil =>
        cases ht
        exact hs
    | cons o pre =>
        obtain ⟨rfl, hpre'⟩ := List.cons_prefix_cons.mp hpre
        obtain ⟨s', hs', hrun⟩ := run_cons_inv ht
        exact htail s' hs' pre hpre' t hrun

theorem always_cons_ok {op : Op} {ops : List Op} {s s' : S} {Good : S → Prop}
    (h : step op s = .ok s') :
    Always step (op :: ops) s Good ↔ Good s ∧ Always step ops s' Good := by
  rw [always_cons]
  refine and_congr_right fun _ => ?_
  constructor
  · intro hall
    exact hall s' h
  · intro hs' t ht
    obtain rfl := Except.ok.inj (h.symm.trans ht)
    exact hs'

theorem steps_nil {s : S} {Cond : Op → S → Prop} : Steps step [] s Cond := by
  intro pre op hpre
  exact absurd (List.prefix_nil.mp hpre) (by simp)

theorem steps_cons {op : Op} {ops : List Op} {s : S} {Cond : Op → S → Prop} :
    Steps step (op :: ops) s Cond ↔
      Cond op s ∧ ∀ s', step op s = .ok s' → Steps step ops s' Cond := by
  constructor
  · intro h
    refine ⟨h [] op (by simp) s rfl, fun s' hs pre o hpre t ht => ?_⟩
    exact h (op :: pre) o (List.cons_prefix_cons.mpr ⟨rfl, hpre⟩) t (by rwa [run_cons_ok hs])
  · rintro ⟨hs, htail⟩ pre o hpre t ht
    cases pre with
    | nil =>
        cases ht
        obtain ⟨rfl, -⟩ := List.cons_prefix_cons.mp hpre
        exact hs
    | cons o' pre =>
        obtain ⟨rfl, hpre'⟩ := List.cons_prefix_cons.mp hpre
        obtain ⟨s', hs', hrun⟩ := run_cons_inv ht
        exact htail s' hs' pre o hpre' t hrun

theorem steps_cons_ok {op : Op} {ops : List Op} {s s' : S} {Cond : Op → S → Prop}
    (h : step op s = .ok s') :
    Steps step (op :: ops) s Cond ↔ Cond op s ∧ Steps step ops s' Cond := by
  rw [steps_cons]
  refine and_congr_right fun _ => ?_
  constructor
  · intro hall
    exact hall s' h
  · intro hs' t ht
    obtain rfl := Except.ok.inj (h.symm.trans ht)
    exact hs'

theorem steps_and {ops : List Op} {s : S} {A B : Op → S → Prop} :
    Steps step ops s (fun op t => A op t ∧ B op t) ↔ Steps step ops s A ∧ Steps step ops s B := by
  constructor
  · intro h
    exact ⟨fun pre op hpre t ht => (h pre op hpre t ht).1, fun pre op hpre t ht =>
      (h pre op hpre t ht).2⟩
  · rintro ⟨hA, hB⟩ pre op hpre t ht
    exact ⟨hA pre op hpre t ht, hB pre op hpre t ht⟩

/-- A run comes to its end when every step it comes to succeeds. -/
theorem run_ok_iff_steps {ops : List Op} {s : S} :
    (∃ t, run step ops s = .ok t) ↔ Steps step ops s fun op t => ∃ t', step op t = .ok t' := by
  induction ops generalizing s with
  | nil => exact ⟨fun _ => steps_nil, fun _ => ⟨s, rfl⟩⟩
  | cons op ops ih =>
      rw [steps_cons]
      constructor
      · rintro ⟨t, ht⟩
        obtain ⟨s', hs, hrun⟩ := run_cons_inv ht
        refine ⟨⟨s', hs⟩, fun s'' hs'' => ?_⟩
        obtain rfl := Except.ok.inj (hs.symm.trans hs'')
        exact ih.mp ⟨t, hrun⟩
      · rintro ⟨⟨s', hs⟩, hrest⟩
        rw [run_cons_ok hs]
        exact ih.mpr (hrest s' hs)

/-- Two conditions on steps that agree in the states of an invariant, which survives a
step that meets them. -/
theorem steps_congr {I : S → Prop} {A B : Op → S → Prop} (same : ∀ op s, I s → (A op s ↔ B op s))
    (kept : ∀ op s s', I s → A op s → step op s = .ok s' → I s') {ops : List Op} {s : S}
    (init : I s) : Steps step ops s A ↔ Steps step ops s B := by
  induction ops generalizing s with
  | nil => exact ⟨fun _ => steps_nil, fun _ => steps_nil⟩
  | cons op ops ih =>
      rw [steps_cons, steps_cons, same op s init]
      refine and_congr_right fun hB => ?_
      have hA := (same op s init).mpr hB
      constructor
      · intro h s' hs
        exact (ih (kept op s s' init hA hs)).mp (h s' hs)
      · intro h s' hs
        exact (ih (kept op s s' init hA hs)).mpr (h s' hs)

/-- What steps that meet a condition keep holds in every state as long as they do. -/
theorem always_of_steps {I : S → Prop} {Cond : Op → S → Prop}
    (kept : ∀ op s s', I s → Cond op s → step op s = .ok s' → I s') {ops : List Op} {s : S}
    (init : I s) (h : Steps step ops s Cond) : Always step ops s I := by
  induction ops generalizing s with
  | nil => exact always_nil.mpr init
  | cons op ops ih =>
      rw [steps_cons] at h
      rw [always_cons]
      exact ⟨init, fun s' hs => ih (kept op s s' init h.1 hs) (h.2 s' hs)⟩

theorem Always.mono {Good Better : S → Prop} {ops : List Op} {s : S}
    (h : Always step ops s Better) (himp : ∀ t, Better t → Good t) : Always step ops s Good :=
  fun pre hpre t ht => himp t (h pre hpre t ht)

/-- What is kept by a step that meets a condition and leads to a good state, a run through such
steps and states keeps. -/
theorem run_invariant_along {I Good : S → Prop} {Cond : Op → S → Prop}
    (kept : ∀ op s s', I s → Cond op s → Good s' → step op s = .ok s' → I s') {ops : List Op}
    {s t : S} (init : I s) (cond : Steps step ops s Cond) (good : Always step ops s Good)
    (h : run step ops s = .ok t) : I t := by
  induction ops generalizing s with
  | nil =>
      cases h
      exact init
  | cons op ops ih =>
      obtain ⟨s', hs, hrun⟩ := run_cons_inv h
      obtain ⟨hcond, hconds⟩ := steps_cons.mp cond
      have hgoods := (always_cons.mp good).2 s' hs
      have hgood := hgoods [] List.nil_prefix s' rfl
      exact ih (kept op s s' init hcond hgood hs) (hconds s' hs) hgoods hrun

/-- What holds in every state holds in those that a step is taken in. -/
theorem Always.steps {Good : S → Prop} {ops : List Op} {s : S} (h : Always step ops s Good) :
    Steps step ops s fun _ t => Good t :=
  fun pre op hpre t ht => h pre ((List.prefix_append pre [op]).trans hpre) t ht

/-- `always_iff_steps` for runs of some of the operations, or in some of the states. -/
theorem always_iff_steps_where {Allowed : Op → S → Prop} {I Good : S → Prop} {Cond : Op → S → Prop}
    (preserved : ∀ op s s', Allowed op s → I s → Good s → Cond op s → step op s = .ok s' →
      I s' ∧ Good s')
    (broken : ∀ op s, Allowed op s → I s → Good s → ¬ Cond op s →
      ∃ s', step op s = .ok s' ∧ ¬ Good s')
    {ops : List Op} {s : S} (allowed : Steps step ops s Allowed) (init : I s) (good : Good s) :
    Always step ops s Good ↔ Steps step ops s Cond := by
  induction ops generalizing s with
  | nil => exact ⟨fun _ => steps_nil, fun _ => always_nil.mpr good⟩
  | cons op ops ih =>
      obtain ⟨hop, hrest⟩ := steps_cons.mp allowed
      rw [always_cons, steps_cons]
      constructor
      · rintro ⟨_, hgood⟩
        have hcond : Cond op s := by
          by_contra hnot
          obtain ⟨s', hs, hbad⟩ := broken op s hop init good hnot
          exact hbad (hgood s' hs [] List.nil_prefix s' rfl)
        refine ⟨hcond, fun s' hs => ?_⟩
        obtain ⟨hI, hG⟩ := preserved op s s' hop init good hcond hs
        exact (ih (hrest s' hs) hI hG).mp (hgood s' hs)
      · rintro ⟨hcond, hsteps⟩
        refine ⟨good, fun s' hs => ?_⟩
        obtain ⟨hI, hG⟩ := preserved op s s' hop init good hcond hs
        exact (ih (hrest s' hs) hI hG).mpr (hsteps s' hs)

/-- `always_iff_steps` for runs of some of the operations. -/
theorem always_iff_steps_on {Allowed : Op → Prop} {I Good : S → Prop} {Cond : Op → S → Prop}
    (preserved : ∀ op s s', Allowed op → I s → Good s → Cond op s → step op s = .ok s' →
      I s' ∧ Good s')
    (broken : ∀ op s, Allowed op → I s → Good s → ¬ Cond op s →
      ∃ s', step op s = .ok s' ∧ ¬ Good s')
    {ops : List Op} (hops : ∀ op ∈ ops, Allowed op) {s : S} (init : I s) (good : Good s) :
    Always step ops s Good ↔ Steps step ops s Cond := by
  refine always_iff_steps_where preserved broken ?_ init good
  intro pre op hpre _ _
  exact hops op (hpre.subset (List.mem_append_right pre List.mem_cons_self))

/-- The rule for a property that survives a step exactly when the step meets a
condition. `I` is what holds along every run as long as the property does. The
first step that breaks the condition leads to a state without the property. -/
theorem always_iff_steps {I Good : S → Prop} {Cond : Op → S → Prop}
    (preserved : ∀ op s s', I s → Good s → Cond op s → step op s = .ok s' → I s' ∧ Good s')
    (broken : ∀ op s, I s → Good s → ¬ Cond op s → ∃ s', step op s = .ok s' ∧ ¬ Good s')
    {ops : List Op} {s : S} (init : I s) (good : Good s) :
    Always step ops s Good ↔ Steps step ops s Cond :=
  always_iff_steps_on (fun op s s' (_ : True) => preserved op s s')
    (fun op s _ => broken op s) (fun _ _ => trivial) init good

/-! ### States that can be reached -/

/-- Some operations lead from one state to the other. -/
def Reaches (step : Op → S → Except E S) (s t : S) : Prop := ∃ ops, run step ops s = .ok t

theorem Reaches.refl (s : S) : Reaches step s s := ⟨[], rfl⟩

theorem Reaches.trans {s m t : S} (h : Reaches step s m) (h' : Reaches step m t) :
    Reaches step s t := by
  obtain ⟨ops, hops⟩ := h
  obtain ⟨ops', hops'⟩ := h'
  exact ⟨ops ++ ops', run_append.mpr ⟨m, hops, hops'⟩⟩

theorem Reaches.head {op : Op} {s m t : S} (h : step op s = .ok m) (h' : Reaches step m t) :
    Reaches step s t := by
  obtain ⟨ops, hops⟩ := h'
  exact ⟨op :: ops, (run_cons_ok h).trans hops⟩

/-! ### What a run gives out -/

section Outputs

variable {B : Type}

/-- What the steps of a run give out, in order. -/
def outputs (step : Op → S → Except E S) (out : Op → S → Option B) : List Op → S → List B
  | [], _ => []
  | op :: ops, s =>
      match step op s with
      | .ok s' => (out op s).toList ++ outputs step out ops s'
      | .error _ => []

variable {out : Op → S → Option B}

@[simp] theorem outputs_nil (s : S) : outputs step out [] s = [] := rfl

theorem outputs_cons_ok {op : Op} {ops : List Op} {s s' : S} (h : step op s = .ok s') :
    outputs step out (op :: ops) s = (out op s).toList ++ outputs step out ops s' := by
  simp [outputs, h]

/-- When each step does to an abstract state what it gives out, a run does what it gives out. -/
theorem run_outputs {A E' : Type} {abstractStep : B → A → Except E' A} {abs : S → A}
    {I : S → Prop} {Allowed : Op → Prop}
    (kept : ∀ op s s', Allowed op → I s → step op s = .ok s' →
      I s' ∧ run abstractStep (out op s).toList (abs s) = .ok (abs s'))
    {ops : List Op} (hops : ∀ op ∈ ops, Allowed op) {s t : S} (init : I s)
    (h : run step ops s = .ok t) :
    I t ∧ run abstractStep (outputs step out ops s) (abs s) = .ok (abs t) := by
  induction ops generalizing s with
  | nil =>
      cases h
      exact ⟨init, rfl⟩
  | cons op ops ih =>
      obtain ⟨s', hs, hrun⟩ := run_cons_inv h
      obtain ⟨hI, habstract⟩ := kept op s s' (hops op List.mem_cons_self) init hs
      obtain ⟨hI', hrest⟩ := ih (fun op' hop' => hops op' (List.mem_cons_of_mem op hop')) hI hrun
      rw [outputs_cons_ok hs]
      exact ⟨hI', run_append.mpr ⟨abs s', habstract, hrest⟩⟩

end Outputs

end HftProject.Run
