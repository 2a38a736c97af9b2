import HftProject.Lib.Run
import HftProject.Week5.OptimizedOrderBook

/-!
How `phase_5`'s `OptimizedOrderBook` is laid out in memory, in every state that calls
with any arguments lead to, the throwing ones included: levels, lookup, free list and
the two counters fit together.
-/

namespace HftProject.Week5.OptimizedOrderBook

variable {P : Type} [LinearOrder P] [Zero P] {n : Nat} {m : ActiveOrders P}
  {b : OptimizedOrderBook P}

theorem Refines.hw5_run (h : Refines n m b) (ops : List (Op P)) :
    ∃ b', Run.run Hw5.step ops b = .ok b' ∧ Refines n (m.runWithin n ops) b' :=
  Run.run_refines (fun op _ _ h => h.hw5_step op) h

theorem Refines.phase5_run (h : Refines n m b) (ops : List (Op P)) :
    ∃ b', Run.run Phase5.step ops b = .ok b' ∧ Refines n (m.runWithin n ops) b' :=
  Run.run_refines (fun op _ _ h => h.phase5_step op) h

end HftProject.Week5.OptimizedOrderBook
