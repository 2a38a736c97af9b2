import HftProject.Lib.Run
import HftProject.Week3.MarketSnapshot
import HftProject.Week3.OrderManager

/-!
The loop of `phase_3`'s `main` over the events of a feed. A new best bid is met with a sell
order and a new best ask with a buy order. The best level is read without a test for null, and
that read is the only fault (`reads_level_iff`).
-/

namespace HftProject.Week3

open Std

inductive FeedType where
  | bid
  | ask
  | execution
  | unknown
deriving DecidableEq, Repr

structure FeedEvent (P : Type) where
  type : FeedType
  price : P
  quantity : Int
  orderId : Int := -1
deriving DecidableEq, Repr

inductive LogLine (P : Type) where
  | market (line : MarketLine P)
  | order (line : OrderLine P)
deriving DecidableEq, Repr

/-- The variables of `main`, and the log. -/
structure Strategy (P : Type) [LinearOrder P] where
  snapshot : MarketSnapshot P
  orderManager : OrderManager P
  prevBestBidPrice : P
  prevBestAskPrice : P
  log : List (LogLine P)

inductive Fault where
  | nullDereference
deriving DecidableEq, Repr

variable {P : Type} [LinearOrder P]

namespace Strategy

/-- Before the loop. The two prices are 100.10 and 100.20. -/
def start (originalBid originalAsk : P) : Strategy P where
  snapshot := .new
  orderManager := .new
  prevBestBidPrice := originalBid
  prevBestAskPrice := originalAsk
  log := []

def printActiveOrders (s : Strategy P) : Strategy P :=
  { s with log := s.log ++ s.orderManager.printActiveOrders.map .order }

/-- An iteration of the loop. `continue` skips the last line. -/
def step (event : FeedEvent P) (s : Strategy P) : Except Fault (Strategy P) :=
  match event.type with
  | .bid =>
      let (snapshot, line) := s.snapshot.updateBid event.price event.quantity
      let (resolved, orderManager, lines) :=
        s.orderManager.resolvedConflicts .sell event.price event.quantity
      let log := s.log ++ .market line :: lines.map .order
      if resolved then .ok { s with snapshot, orderManager, log }
      else
        match snapshot.getBestBid with
        | none => .error .nullDereference
        | some bestBid =>
            if bestBid.price > s.prevBestBidPrice then
              let (_, orderManager, line) :=
                orderManager.placeOrder .sell bestBid.price bestBid.quantity
              .ok (printActiveOrders { s with
                snapshot, orderManager
                prevBestBidPrice := bestBid.price
                log := log ++ [.order line] })
            else .ok (printActiveOrders { s with snapshot, orderManager, log })
  | .ask =>
      let (snapshot, line) := s.snapshot.updateAsk event.price event.quantity
      let (resolved, orderManager, lines) :=
        s.orderManager.resolvedConflicts .buy event.price event.quantity
      let log := s.log ++ .market line :: lines.map .order
      if resolved then .ok { s with snapshot, orderManager, log }
      else
        match snapshot.getBestAsk with
        | none => .error .nullDereference
        | some bestAsk =>
            if bestAsk.price < s.prevBestAskPrice then
              let (_, orderManager, line) :=
                orderManager.placeOrder .buy bestAsk.price bestAsk.quantity
              .ok (printActiveOrders { s with
                snapshot, orderManager
                prevBestAskPrice := bestAsk.price
                log := log ++ [.order line] })
            else .ok (printActiveOrders { s with snapshot, orderManager, log })
  | .execution =>
      let (orderManager, line) := s.orderManager.handleFill event.orderId event.quantity
      .ok (printActiveOrders { s with orderManager, log := s.log ++ [.order line] })
  | .unknown => .ok s.printActiveOrders

end Strategy

/-! ### What an iteration does -/

section Quote

variable {K : Type} [LinearOrder K]

/-- What a quote comes to on its side, in terms of the levels after the update: the remembered
price and the manager. `toKey` is a price as a key of the levels, and `side` that of the orders
which meet the quotes. -/
def react (toKey : P ≃ K) (side : Side) (price : P) (qty : Int) (prev : P)
    (levels : ExtTreeMap K (PriceLevel P)) (m : OrderManager P) :
    Except Fault (P × OrderManager P) :=
  let result := m.resolvedConflicts side price qty
  if result.1 then .ok (prev, result.2.1)
  else
    match bestLevel levels with
    | none => .error .nullDereference
    | some best =>
        if toKey best.price < toKey prev then
          .ok (best.price, (result.2.1.placeOrder side best.price best.quantity).2.1)
        else .ok (prev, result.2.1)

/-- The three ways a quote can end. -/
inductive Quoted (toKey : P ≃ K) (side : Side) (price : P) (qty : Int) (prev : P)
    (levels : ExtTreeMap K (PriceLevel P)) (m : OrderManager P) : P → OrderManager P → Prop where
  /-- The orders at the price are replaced. -/
  | replaced : m.Rests side price →
      Quoted toKey side price qty prev levels m prev
        (if 0 < qty then ((m.cleared side price).placeOrder side price qty).2.1
        else m.cleared side price)
  /-- The best level is better than the remembered price. -/
  | improved {best : PriceLevel P} : ¬ m.Rests side price → bestLevel levels = some best →
      toKey best.price < toKey prev →
      Quoted toKey side price qty prev levels m best.price
        (m.placeOrder side best.price best.quantity).2.1
  | kept {best : PriceLevel P} : ¬ m.Rests side price → bestLevel levels = some best →
      toKey prev ≤ toKey best.price → Quoted toKey side price qty prev levels m prev m

variable {toKey : P ≃ K} {side : Side} {price prev prev' : P} {qty : Int}
  {levels : ExtTreeMap K (PriceLevel P)} {m m' : OrderManager P}

theorem react_ok (h : react toKey side price qty prev levels m = .ok (prev', m')) :
    Quoted toKey side price qty prev levels m prev' m' := by
  by_cases hrests : m.Rests side price
  · obtain ⟨hresolved, hmanager⟩ := OrderManager.resolvedConflicts_some qty hrests
    rw [react, hresolved] at h
    cases h
    rw [hmanager]
    exact .replaced hrests
  · rw [react, OrderManager.resolvedConflicts_none qty hrests] at h
    simp only [Bool.false_eq_true, if_false] at h
    split at h
    · cases h
    · rename_i best hbest
      split at h
      · rename_i hbetter
        cases h
        exact .improved hrests hbest hbetter
      · rename_i hnot
        cases h
        exact .kept hrests hbest (le_of_not_gt hnot)

theorem react_error {fault : Fault} : react toKey side price qty prev levels m = .error fault ↔
    ¬ m.Rests side price ∧ levels = ∅ := by
  by_cases hrests : m.Rests side price
  · simp [react, OrderManager.resolvedConflicts_some qty hrests, hrests]
  · rw [react, OrderManager.resolvedConflicts_none qty hrests, ← bestLevel_eq_none]
    simp only [Bool.false_eq_true, if_false]
    cases hbest : bestLevel levels with
    | none => cases fault; simp [hrests]
    | some best =>
        simp only [reduceCtorEq, and_false, iff_false]
        split <;> simp

end Quote

namespace Strategy

/-- The levels after a quote. -/
def bidsAfter (event : FeedEvent P) (s : Strategy P) : ExtTreeMap Pᵒᵈ (PriceLevel P) :=
  (updateLevel .bid (OrderDual.toDual event.price) event.price event.quantity s.snapshot.bids).1

def asksAfter (event : FeedEvent P) (s : Strategy P) : ExtTreeMap P (PriceLevel P) :=
  (updateLevel .ask event.price event.price event.quantity s.snapshot.asks).1

def onBid (event : FeedEvent P) (s : Strategy P) : Except Fault (P × OrderManager P) :=
  react OrderDual.toDual .sell event.price event.quantity s.prevBestBidPrice (s.bidsAfter event)
    s.orderManager

def onAsk (event : FeedEvent P) (s : Strategy P) : Except Fault (P × OrderManager P) :=
  react (Equiv.refl P) .buy event.price event.quantity s.prevBestAskPrice (s.asksAfter event)
    s.orderManager

variable {event : FeedEvent P} {s s' : Strategy P}

theorem error_iff_of_map_eq {α β γ : Type} {x : Except Fault α} {y : Except Fault β}
    {f : α → γ} {g : β → γ} (h : x.map f = y.map g) {fault : Fault} :
    x = .error fault ↔ y = .error fault := by
  cases x <;> cases y <;> simp_all [Except.map]

theorem step_bid (htype : event.type = .bid) :
    (s.step event).map (fun s' => (s'.snapshot, s'.prevBestAskPrice, s'.prevBestBidPrice,
        s'.orderManager)) =
      (s.onBid event).map fun r =>
        (⟨s.bidsAfter event, s.snapshot.asks⟩, s.prevBestAskPrice, r) := by
  simp only [Strategy.step, htype, onBid, react]
  split
  · rfl
  · change Except.map _ (match bestLevel (s.bidsAfter event) with
      | none => _
      | some best => _) = _
    split
    · rfl
    · rename_i best hbest
      split
      · rename_i hbetter
        have hkey : OrderDual.toDual best.price < OrderDual.toDual s.prevBestBidPrice := hbetter
        rw [if_pos hkey]
        rfl
      · rename_i hnot
        have hkey : ¬ OrderDual.toDual best.price < OrderDual.toDual s.prevBestBidPrice := hnot
        rw [if_neg hkey]
        rfl

theorem step_ask (htype : event.type = .ask) :
    (s.step event).map (fun s' => (s'.snapshot, s'.prevBestBidPrice, s'.prevBestAskPrice,
        s'.orderManager)) =
      (s.onAsk event).map fun r =>
        (⟨s.snapshot.bids, s.asksAfter event⟩, s.prevBestBidPrice, r) := by
  simp only [Strategy.step, htype, onAsk, react]
  split
  · rfl
  · change Except.map _ (match bestLevel (s.asksAfter event) with
      | none => _
      | some best => _) = _
    split
    · rfl
    · rename_i best hbest
      split
      · rename_i hbetter
        have hkey : Equiv.refl P best.price < Equiv.refl P s.prevBestAskPrice := hbetter
        rw [if_pos hkey]
        rfl
      · rename_i hnot
        have hkey : ¬ Equiv.refl P best.price < Equiv.refl P s.prevBestAskPrice := hnot
        rw [if_neg hkey]
        rfl

theorem step_bid_ok (htype : event.type = .bid) (h : s.step event = .ok s') :
    s'.snapshot = ⟨s.bidsAfter event, s.snapshot.asks⟩ ∧
      s'.prevBestAskPrice = s.prevBestAskPrice ∧
      Quoted OrderDual.toDual .sell event.price event.quantity s.prevBestBidPrice
        (s.bidsAfter event) s.orderManager s'.prevBestBidPrice s'.orderManager := by
  have hstep := step_bid (s := s) htype
  rw [h] at hstep
  obtain ⟨r, hreact, heq⟩ := Run.except_map_inv hstep.symm
  simp only [Prod.mk.injEq] at heq
  obtain ⟨hsnapshot, hask, rfl⟩ := heq
  exact ⟨hsnapshot.symm, hask.symm, react_ok hreact⟩

theorem step_ask_ok (htype : event.type = .ask) (h : s.step event = .ok s') :
    s'.snapshot = ⟨s.snapshot.bids, s.asksAfter event⟩ ∧
      s'.prevBestBidPrice = s.prevBestBidPrice ∧
      Quoted (Equiv.refl P) .buy event.price event.quantity s.prevBestAskPrice
        (s.asksAfter event) s.orderManager s'.prevBestAskPrice s'.orderManager := by
  have hstep := step_ask (s := s) htype
  rw [h] at hstep
  obtain ⟨r, hreact, heq⟩ := Run.except_map_inv hstep.symm
  simp only [Prod.mk.injEq] at heq
  obtain ⟨hsnapshot, hbid, rfl⟩ := heq
  exact ⟨hsnapshot.symm, hbid.symm, react_ok hreact⟩

/-- The snapshot, the remembered prices and the manager after an execution. -/
theorem step_execution (htype : event.type = .execution) : ∃ s', s.step event = .ok s' ∧
    s'.snapshot = s.snapshot ∧ s'.prevBestBidPrice = s.prevBestBidPrice ∧
      s'.prevBestAskPrice = s.prevBestAskPrice ∧
      s'.orderManager = (s.orderManager.handleFill event.orderId event.quantity).1 := by
  simp only [Strategy.step, htype]
  exact ⟨_, rfl, rfl, rfl, rfl, rfl⟩

theorem step_unknown (htype : event.type = .unknown) :
    s.step event = .ok s.printActiveOrders := by
  simp only [Strategy.step, htype]

/-- An event takes the last level from its side, at whose price no order of the strategy rests. -/
def EmptiesSide (event : FeedEvent P) (s : Strategy P) : Prop :=
  event.quantity = 0 ∧
    ((event.type = .bid ∧ (∀ key, key ∈ s.snapshot.bids ↔ key = OrderDual.toDual event.price) ∧
        ¬ s.orderManager.Rests .sell event.price) ∨
      (event.type = .ask ∧ (∀ price, price ∈ s.snapshot.asks ↔ price = event.price) ∧
        ¬ s.orderManager.Rests .buy event.price))

/-- An iteration fails exactly on the read of a best level that is missing. -/
theorem step_error : s.step event = .error .nullDereference ↔ s.EmptiesSide event := by
  cases htype : event.type with
  | bid =>
      rw [error_iff_of_map_eq (step_bid htype), onBid, react_error, bidsAfter, updateLevel_eq_empty]
      simp only [EmptiesSide, htype, reduceCtorEq, false_and, or_false, true_and]
      tauto
  | ask =>
      rw [error_iff_of_map_eq (step_ask htype), onAsk, react_error, asksAfter, updateLevel_eq_empty]
      simp only [EmptiesSide, htype, reduceCtorEq, false_and, false_or, true_and]
      tauto
  | execution =>
      obtain ⟨s', hs', -⟩ := step_execution (s := s) htype
      simp [EmptiesSide, htype, hs']
  | unknown => simp [EmptiesSide, htype, step_unknown htype]

theorem step_ok_iff : (∃ s', s.step event = .ok s') ↔ ¬ s.EmptiesSide event := by
  rw [← step_error]
  cases h : s.step event with
  | ok s' => simp
  | error fault =>
      cases fault
      simp

/-- The loop reads a level each time exactly if no event takes the last level from its side,
other than at the price of an order of the strategy. -/
theorem reads_level_iff (originalBid originalAsk : P) (feed : List (FeedEvent P)) :
    (∃ s, Run.run Strategy.step feed (start originalBid originalAsk) = .ok s) ↔
      Run.Steps Strategy.step feed (start originalBid originalAsk) fun event s =>
        ¬ s.EmptiesSide event := by
  rw [Run.run_ok_iff_steps]
  simp only [step_ok_iff]

/-- `BID 100.10 300`, `BID 100.10 0` -/
def emptied : List (FeedEvent Int) := [⟨.bid, 10010, 300, -1⟩, ⟨.bid, 10010, 0, -1⟩]

theorem missing_level_read : ¬ ∃ s, Run.run Strategy.step emptied (start 10010 10020) = .ok s := by
  rintro ⟨s, hs⟩
  have hfault : (Run.run Strategy.step emptied (start 10010 10020)).isOk = false := by
    decide +kernel
  rw [hs] at hfault
  cases hfault

end Strategy

end HftProject.Week3
