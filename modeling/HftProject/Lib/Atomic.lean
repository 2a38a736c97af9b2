import HftProject.Lib.Run
import Mathlib.Logic.Function.Basic

/-!
Concurrent objects. The calls of an atomic object take effect one at a time, each at one moment
between its invocation and its return. What a call may answer can depend on the calls of other
threads that have had their effect and not returned. A history of invocations and returns is
linearizable when the object has a run with that history (`Linearizable`). The histories of an
implementation are when the object can follow each of its steps (`linearizable_of_follows`).
-/

namespace HftProject.Atomic

variable {Thread Op Ret S : Type}

/-- What a call may answer and make of the object, with the calls that are pending and what they
will answer. -/
abbrev Effect (Op Ret S : Type) := Op → (Op → Ret → Prop) → S → Ret → S → Prop

/-- Where a thread is. -/
inductive Phase (Op Ret : Type) where
  | idle
  | called (op : Op)
  /-- The call has had its effect and not returned. -/
  | effected (op : Op) (ret : Ret)
deriving DecidableEq, Repr

inductive Event (Op Ret : Type) where
  | call (op : Op)
  | ret (ret : Ret)
deriving DecidableEq, Repr

structure Object (Thread Op Ret S : Type) where
  state : S
  phases : Thread → Phase Op Ret

namespace Object

/-- An object in no call. -/
def quiet (s : S) : Object Thread Op Ret S := ⟨s, fun _ => .idle⟩

/-- Some thread's call has had its effect and not returned. -/
def Pending (o : Object Thread Op Ret S) (op : Op) (ret : Ret) : Prop :=
  ∃ thread, o.phases thread = .effected op ret

variable [DecidableEq Thread]

def setPhase (o : Object Thread Op Ret S) (thread : Thread) (phase : Phase Op Ret) :
    Object Thread Op Ret S :=
  { o with phases := Function.update o.phases thread phase }

@[simp] theorem setPhase_state (o : Object Thread Op Ret S) (thread : Thread)
    (phase : Phase Op Ret) : (o.setPhase thread phase).state = o.state := rfl

@[simp] theorem setPhase_phases (o : Object Thread Op Ret S) (thread : Thread)
    (phase : Phase Op Ret) :
    (o.setPhase thread phase).phases = Function.update o.phases thread phase := rfl

end Object

section Runs

variable [DecidableEq Thread] (effect : Effect Op Ret S)

/-- A step, with the event that can be seen of it. -/
inductive Step : Object Thread Op Ret S → Option (Thread × Event Op Ret) →
    Object Thread Op Ret S → Prop
  | call {o : Object Thread Op Ret S} {thread : Thread} (op : Op)
      (h : o.phases thread = .idle) :
      Step o (some (thread, .call op)) (o.setPhase thread (.called op))
  | effect {o : Object Thread Op Ret S} {thread : Thread} {op : Op} {ret : Ret} {s : S}
      (h : o.phases thread = .called op) (heffect : effect op o.Pending o.state ret s) :
      Step o none ({ o with state := s }.setPhase thread (.effected op ret))
  | ret {o : Object Thread Op Ret S} {thread : Thread} {op : Op} {ret : Ret}
      (h : o.phases thread = .effected op ret) :
      Step o (some (thread, .ret ret)) (o.setPhase thread .idle)

/-- Some steps, with what can be seen of them. -/
inductive Trace : Object Thread Op Ret S → List (Thread × Event Op Ret) →
    Object Thread Op Ret S → Prop
  | refl (o : Object Thread Op Ret S) : Trace o [] o
  | step {o o' o'' : Object Thread Op Ret S} {e : Option (Thread × Event Op Ret)}
      {es : List (Thread × Event Op Ret)} (h : Step effect o e o') (hrest : Trace o' es o'') :
      Trace o (e.toList ++ es) o''

/-- The atomic object has a run with this history. -/
def Linearizable (s : S) (history : List (Thread × Event Op Ret)) : Prop :=
  ∃ o, Trace effect (.quiet s) history o

variable {effect}

theorem Trace.single {o o' : Object Thread Op Ret S} {e : Option (Thread × Event Op Ret)}
    (h : Step effect o e o') : Trace effect o e.toList o' :=
  List.append_nil e.toList ▸ .step h (.refl o')

theorem Trace.trans {o o' o'' : Object Thread Op Ret S} {es es' : List (Thread × Event Op Ret)}
    (h : Trace effect o es o') (h' : Trace effect o' es' o'') :
    Trace effect o (es ++ es') o'' := by
  induction h with
  | refl o => exact h'
  | step hstep _ ih =>
      rw [List.append_assoc]
      exact .step hstep (ih h')

/-- A call that returns as soon as it has had its effect. -/
theorem Trace.effect_ret {o : Object Thread Op Ret S} {thread : Thread} {op : Op} {ret : Ret}
    {s : S} (h : o.phases thread = .called op) (heffect : effect op o.Pending o.state ret s) :
    Trace effect o [(thread, .ret ret)] ({ o with state := s }.setPhase thread .idle) := by
  have hret : Step effect ({ o with state := s }.setPhase thread (.effected op ret))
      (some (thread, .ret ret))
      (({ o with state := s }.setPhase thread (.effected op ret)).setPhase thread .idle) :=
    .ret (Function.update_self ..)
  have hidem : ({ o with state := s }.setPhase thread (.effected op ret)).setPhase thread .idle =
      { o with state := s }.setPhase thread .idle := by
    simp only [Object.setPhase, Function.update_idem]
  rw [hidem] at hret
  exact (Trace.single (.effect h heffect)).trans (.single hret)

/-- What the steps that are not seen keep. -/
theorem Trace.silent {I : Object Thread Op Ret S → Prop}
    (kept : ∀ o o', I o → Step effect o none o' → I o') {o o' : Object Thread Op Ret S}
    (init : I o) (h : Trace effect o [] o') : I o' := by
  generalize hes : [] = es at h
  induction h with
  | refl o => exact init
  | @step o o' o'' e es hstep _ ih =>
      cases e with
      | none => exact ih (kept _ _ init hstep) hes
      | some e => cases hes

/-- The step that the first event is seen of. -/
theorem Trace.cons_inv {o o' : Object Thread Op Ret S} {e : Thread × Event Op Ret}
    {es : List (Thread × Event Op Ret)} (h : Trace effect o (e :: es) o') :
    ∃ before after, Trace effect o [] before ∧ Step effect before (some e) after ∧
      Trace effect after es o' := by
  generalize hall : e :: es = all at h
  induction h with
  | refl o => cases hall
  | @step o m o' first rest hstep hrest ih =>
      cases first with
      | none =>
          obtain ⟨before, after, hbefore, hseen, hafter⟩ := ih hall
          exact ⟨before, after, .step hstep hbefore, hseen, hafter⟩
      | some first =>
          cases hall
          exact ⟨o, m, .refl o, hstep, hrest⟩

end Runs

/-! ### Implementations -/

section Implementation

variable [DecidableEq Thread] {effect : Effect Op Ret S} {Action State E : Type}
  {step : Action → State → Except E State}
  {visible : Action → State → Option (Thread × Event Op Ret)}
  {R : Object Thread Op Ret S → State → Prop}

/-- The object follows a run, if it can follow each step. -/
theorem trace_of_follows
    (follow : ∀ a s s' o, R o s → step a s = .ok s' →
      ∃ o', Trace effect o (visible a s).toList o' ∧ R o' s')
    {actions : List Action} {o : Object Thread Op Ret S} {s s' : State} (init : R o s)
    (hrun : Run.run step actions s = .ok s') :
    ∃ o', Trace effect o (Run.outputs step visible actions s) o' ∧ R o' s' := by
  induction actions generalizing o s with
  | nil =>
      cases hrun
      exact ⟨o, .refl o, init⟩
  | cons a actions ih =>
      obtain ⟨m, hstep, hrest⟩ := Run.run_cons_inv hrun
      obtain ⟨o', htrace, hR⟩ := follow a s m o init hstep
      obtain ⟨o'', htrace', hR'⟩ := ih hR hrest
      rw [Run.outputs_cons_ok hstep]
      exact ⟨o'', htrace.trans htrace', hR'⟩

theorem linearizable_of_follows
    (follow : ∀ a s s' o, R o s → step a s = .ok s' →
      ∃ o', Trace effect o (visible a s).toList o' ∧ R o' s')
    {actions : List Action} {init : S} {s s' : State} (hinit : R (.quiet init) s)
    (hrun : Run.run step actions s = .ok s') :
    Linearizable effect init (Run.outputs step visible actions s) := by
  obtain ⟨o, htrace, -⟩ := trace_of_follows follow hinit hrun
  exact ⟨o, htrace⟩

end Implementation

end HftProject.Atomic
