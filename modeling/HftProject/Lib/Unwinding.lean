import Mathlib.Data.List.Basic

/-!
The unwinding rule for two runs. A run folds its step over a list of events, and an observer
sees a view of the state. If an event that does not concern the observer leaves the view as it
is, and one that does takes equal views to equal views, then the observer cannot tell a run
from a run over the events that concern it.
-/

namespace HftProject.Unwinding

variable {S S' E V : Type} {step : S → E → S} {step' : S' → E → S'} {view : S → V}
  {view' : S' → V} {concerns : E → Prop} [DecidablePred concerns]

theorem view_foldl_filter (hidden : ∀ s e, ¬ concerns e → view (step s e) = view s)
    (seen : ∀ s s' e, concerns e → view s = view' s' → view (step s e) = view' (step' s' e))
    {events : List E} {s : S} {s' : S'} (init : view s = view' s') :
    view (events.foldl step s) = view' ((events.filter concerns).foldl step' s') := by
  induction events generalizing s s' with
  | nil => exact init
  | cons e events ih =>
      rw [List.foldl_cons]
      by_cases he : concerns e
      · rw [List.filter_cons_of_pos (by simpa using he), List.foldl_cons]
        exact ih (seen s s' e he init)
      · rw [List.filter_cons_of_neg (by simpa using he)]
        exact ih ((hidden s e he).trans init)

end HftProject.Unwinding
