import HftProject.Lib.Unwinding
import Mathlib.Data.List.DropRight
import Std.Data.ExtTreeMap.Lemmas

/-!
`TradeEngine` of `hw2`. Three signals vote on each tick, from a window over the last prices of
its instrument, and the majority places an order. The random generator only chooses the signal
that the order is attributed to, so the orders of an instrument are those that its own ticks
alone would give (`instruments_do_not_interfere`).
-/

namespace HftProject.Week2

open Std

/-- A time point counts nanoseconds. -/
structure MarketData (R : Type) where
  instrumentId : Int
  price : R
  timestamp : Int
deriving DecidableEq, Repr

structure Order (R : Type) where
  instrumentId : Int
  price : R
  isBuy : Bool
  timestamp : Int
  signalSource : String
deriving DecidableEq, Repr

inductive SignalAction where
  | none
  | buy
  | sell
deriving DecidableEq, Repr

/-- The random generator and the clock. `distrib n` draws a number from `0` to `n`. -/
structure World (W : Type) where
  distrib : (n : Nat) → W → Fin (n + 1) × W
  now : W → Int × W

/-- The counters of `process`, with the names of the signals they count. -/
structure Votes where
  buyVotes : Nat
  sellVotes : Nat
  contributingBuySignals : List String
  contributingSellSignals : List String
  buy_length : contributingBuySignals.length = buyVotes
  sell_length : contributingSellSignals.length = sellVotes

namespace Votes

def new : Votes := ⟨0, 0, [], [], rfl, rfl⟩

def buy (signal : String) (v : Votes) : Votes :=
  { v with
    buyVotes := v.buyVotes + 1
    contributingBuySignals := v.contributingBuySignals ++ [signal]
    buy_length := by rw [List.length_append, v.buy_length]; rfl }

def sell (signal : String) (v : Votes) : Votes :=
  { v with
    sellVotes := v.sellVotes + 1
    contributingSellSignals := v.contributingSellSignals ++ [signal]
    sell_length := by rw [List.length_append, v.sell_length]; rfl }

def count (action : SignalAction) (buySignal sellSignal : String) (v : Votes) : Votes :=
  match action with
  | .buy => v.buy buySignal
  | .sell => v.sell sellSignal
  | .none => v

end Votes

/-- `W` is the state of the random generator and the clock. -/
structure TradeEngine (R W : Type) where
  marketData : List (MarketData R)
  orders : List (Order R)
  latencies : List Int
  priceHistory : ExtTreeMap Int (List R)
  timestampHistory : ExtTreeMap Int (List Int)
  randomGenerator : W

namespace TradeEngine

variable {R W : Type}

def new (feed : List (MarketData R)) (generator : W) : TradeEngine R W where
  marketData := feed
  orders := []
  latencies := []
  priceHistory := ∅
  timestampHistory := ∅
  randomGenerator := generator

def updateHistory (tick : MarketData R) (e : TradeEngine R W) : TradeEngine R W :=
  let prices := (e.priceHistory[tick.instrumentId]?).getD [] ++ [tick.price]
  let timestamps := (e.timestampHistory[tick.instrumentId]?).getD [] ++ [tick.timestamp]
  { e with
    priceHistory := e.priceHistory.insert tick.instrumentId
      (if prices.length > 10 then prices.tail else prices)
    timestampHistory := e.timestampHistory.insert tick.instrumentId timestamps }

theorem updateHistory_priceHistory (tick : MarketData R) (e : TradeEngine R W) (x : Int) :
    (e.updateHistory tick).priceHistory[x]? =
      if tick.instrumentId = x then
        let prices := (e.priceHistory[x]?).getD [] ++ [tick.price]
        some (if prices.length > 10 then prices.tail else prices)
      else e.priceHistory[x]? := by
  by_cases hx : tick.instrumentId = x
  · subst hx
    rw [if_pos rfl, updateHistory, ExtTreeMap.getElem?_insert_self]
  · rw [if_neg hx, updateHistory, ExtTreeMap.getElem?_insert, if_neg (by simpa using hx)]

/-- The prices of an instrument, in order. -/
def pricesOf (x : Int) (ticks : List (MarketData R)) : List R :=
  (ticks.filter fun t => t.instrumentId = x).map (·.price)

/-- Trimming after each price keeps the last ten. -/
theorem trim_window (prices : List R) (price : R) :
    (let window := prices.rtake (min 10 prices.length) ++ [price]
      if window.length > 10 then window.tail else window) =
      (prices ++ [price]).rtake (min 10 (prices ++ [price]).length) := by
  simp only [List.rtake, List.length_append, List.length_drop, List.length_cons, List.length_nil]
  rcases Nat.lt_or_ge prices.length 10 with hshort | hlong
  · rw [if_neg (by omega), Nat.min_eq_right (by omega), Nat.min_eq_right (by omega), Nat.sub_self,
      Nat.sub_self, List.drop_zero, List.drop_zero]
  · rw [if_pos (by omega), Nat.min_eq_left (by omega), Nat.min_eq_left (by omega),
      ← List.drop_append_of_le_length (by omega), List.tail_drop,
      show prices.length - 10 + 1 = prices.length + (0 + 1) - 10 by omega]

section Signals

variable [Zero R] [Add R] [Mul R] [Div R] [LT R] [LE R] [DecidableLT R] [DecidableLE R] [NatCast R]
  [OfScientific R]

def getAvg (instrumentId : Int) (e : TradeEngine R W) : R :=
  match e.priceHistory[instrumentId]? with
  | none => 0
  | some history =>
      if history.isEmpty then 0
      else
        let sum := history.foldl (· + ·) 0
        sum / (history.length : R)

/-- Price thresholds. -/
def evaluateSignal1 (tick : MarketData R) : SignalAction :=
  if tick.price < 105.0 then .buy
  else if tick.price > 195.0 then .sell
  else .none

/-- Deviation from average. -/
def evaluateSignal2 (tick : MarketData R) (e : TradeEngine R W) : SignalAction :=
  match e.priceHistory[tick.instrumentId]? with
  | none => .none
  | some history =>
      if history.length < 5 then .none
      else
        let avg := e.getAvg tick.instrumentId
        if avg ≤ 0 then .none
        else if tick.price < avg * 0.98 then .buy
        else if tick.price > avg * 1.02 then .sell
        else .none

/-- Simple momentum. The two reads are in range. -/
def evaluateSignal3 (tick : MarketData R) (e : TradeEngine R W) : SignalAction :=
  match e.priceHistory[tick.instrumentId]? with
  | none => .none
  | some history =>
      if history.length < 3 then .none
      else
        match history[history.length - 2]?, history[history.length - 3]? with
        | some price1, some price2 =>
            if price1 > price2 ∧ tick.price > price1 then .buy else .none
        | _, _ => .none

/-- The votes on a tick, whose price is in the history. -/
def votes (tick : MarketData R) (e : TradeEngine R W) : Votes :=
  let v := Votes.new
  let v := v.count (evaluateSignal1 tick) "Signal 1 (Low Threshold)" "Signal 1 (High Threshold)"
  let v := v.count (e.evaluateSignal2 tick) "Signal 2 (Below Avg)" "Signal 2 (Above Avg)"
  if e.evaluateSignal3 tick = .buy then v.buy "Signal 3 (Momentum)" else v

end Signals

/-- One of the contributing signals, drawn only if there are several. -/
def selectSignal (world : World W) (signals : List String) (h : 0 < signals.length) (w : W) :
    String × W :=
  if signals.length = 1 then (signals.get ⟨0, h⟩, w)
  else
    let (i, w) := world.distrib (signals.length - 1) w
    (signals.get ⟨i, by omega⟩, w)

section Process

variable [Zero R] [Add R] [Neg R] [Mul R] [Div R] [LT R] [LE R] [DecidableLT R] [DecidableLE R]
  [NatCast R] [OfScientific R]

/-- The latency is cut to whole milliseconds. -/
def placeOrder (world : World W) (tick : MarketData R) (isBuy : Bool) (signalName : String)
    (e : TradeEngine R W) : TradeEngine R W :=
  let (now, w) := world.now e.randomGenerator
  { e with
    orders := e.orders ++
      [{ instrumentId := tick.instrumentId
         price := tick.price + (if isBuy then 0.01 else -0.01)
         isBuy := isBuy
         timestamp := now
         signalSource := signalName }]
    latencies := e.latencies ++ [Int.tdiv (now - tick.timestamp) 1000000]
    randomGenerator := w }

/-- An iteration of the loop of `process`. -/
def processTick (world : World W) (e : TradeEngine R W) (tick : MarketData R) : TradeEngine R W :=
  let e := e.updateHistory tick
  let v := e.votes tick
  if hbuy : v.buyVotes > v.sellVotes then
    let (selectedSignal, w) := selectSignal world v.contributingBuySignals
      (by have := v.buy_length; omega) e.randomGenerator
    placeOrder world tick true selectedSignal { e with randomGenerator := w }
  else if hsell : v.sellVotes > v.buyVotes then
    let (selectedSignal, w) := selectSignal world v.contributingSellSignals
      (by have := v.sell_length; omega) e.randomGenerator
    placeOrder world tick false selectedSignal { e with randomGenerator := w }
  else e

def process (world : World W) (e : TradeEngine R W) : TradeEngine R W :=
  e.marketData.foldl (processTick world) e

/-! ### What a tick does -/

/-- The side that the votes are for. -/
def consensus (v : Votes) : Option Bool :=
  if v.buyVotes > v.sellVotes then some true
  else if v.sellVotes > v.buyVotes then some false
  else none

/-- The sides on which the engine places an order for the tick. -/
def sides (tick : MarketData R) (e : TradeEngine R W) : List Bool :=
  (consensus ((e.updateHistory tick).votes tick)).toList

/-- The price and the side of each order for an instrument. -/
def placedFor (x : Int) (orders : List (Order R)) : List (R × Bool) :=
  (orders.filter fun o => o.instrumentId = x).map fun o => (o.price, o.isBuy)

theorem processTick_priceHistory (world : World W) (e : TradeEngine R W) (tick : MarketData R) :
    (processTick world e tick).priceHistory = (e.updateHistory tick).priceHistory := by
  simp only [processTick]
  split
  · rfl
  · split
    · rfl
    · rfl

/-- Whatever the draw and the clock, the order is decided by the votes. -/
theorem processTick_placedFor (world : World W) (e : TradeEngine R W) (tick : MarketData R)
    (x : Int) :
    placedFor x (processTick world e tick).orders = placedFor x e.orders ++
      if tick.instrumentId = x then
        (e.sides tick).map fun isBuy => (tick.price + (if isBuy then 0.01 else -0.01), isBuy)
      else [] := by
  by_cases hx : tick.instrumentId = x
  · simp only [processTick, sides, consensus, if_pos hx]
    split
    · simp [placeOrder, placedFor, hx, updateHistory]
    · split
      · simp [placeOrder, placedFor, hx, updateHistory]
      · simp [placedFor, updateHistory]
  · simp only [processTick, if_neg hx]
    split
    · simp [placeOrder, placedFor, hx, updateHistory]
    · split
      · simp [placeOrder, placedFor, hx, updateHistory]
      · simp [placedFor, updateHistory]

omit [Neg R] in
/-- The votes read the history of the tick's instrument and nothing else. -/
theorem votes_congr {W' : Type} {tick : MarketData R} {e : TradeEngine R W} {e' : TradeEngine R W'}
    (h : e.priceHistory[tick.instrumentId]? = e'.priceHistory[tick.instrumentId]?) :
    e.votes tick = e'.votes tick := by
  have havg : e.getAvg tick.instrumentId = e'.getAvg tick.instrumentId := by
    simp only [getAvg, h]
  have hsignal2 : e.evaluateSignal2 tick = e'.evaluateSignal2 tick := by
    simp only [evaluateSignal2, h, havg]
  have hsignal3 : e.evaluateSignal3 tick = e'.evaluateSignal3 tick := by
    simp only [evaluateSignal3, h]
  simp only [votes, hsignal2, hsignal3]

/-! ### What an instrument sees -/

/-- The part of the state that concerns an instrument. -/
def view (x : Int) (e : TradeEngine R W) : Option (List R) × List (R × Bool) :=
  (e.priceHistory[x]?, placedFor x e.orders)

theorem view_processTick_other (world : World W) (e : TradeEngine R W) {tick : MarketData R}
    {x : Int} (hx : tick.instrumentId ≠ x) : (processTick world e tick).view x = e.view x := by
  rw [view, processTick_priceHistory, updateHistory_priceHistory, processTick_placedFor,
    if_neg hx, if_neg hx, List.append_nil, view]

theorem view_processTick_own {W' : Type} (world : World W) (world' : World W')
    {e : TradeEngine R W} {e' : TradeEngine R W'} {tick : MarketData R}
    (h : e.view tick.instrumentId = e'.view tick.instrumentId) :
    (processTick world e tick).view tick.instrumentId =
      (processTick world' e' tick).view tick.instrumentId := by
  obtain ⟨hhistory, hplaced⟩ := Prod.mk.inj h
  have hupdated : (e.updateHistory tick).priceHistory[tick.instrumentId]? =
      (e'.updateHistory tick).priceHistory[tick.instrumentId]? := by
    rw [updateHistory_priceHistory, updateHistory_priceHistory, hhistory]
  have hsides : e.sides tick = e'.sides tick := by
    rw [sides, votes_congr hupdated, sides]
  rw [view, processTick_priceHistory, processTick_placedFor, hupdated, hplaced, hsides, view,
    processTick_priceHistory, processTick_placedFor]

/-! ### The window -/

theorem history_window (world : World W) (g : W) (feed ticks : List (MarketData R)) (x : Int) :
    ((ticks.foldl (processTick world) (new feed g)).priceHistory[x]?).getD [] =
      (pricesOf x ticks).rtake (min 10 (pricesOf x ticks).length) := by
  induction ticks using List.reverseRecOn with
  | nil => simp [new, pricesOf]
  | append_singleton ticks tick ih =>
      rw [List.foldl_append, List.foldl_cons, List.foldl_nil, processTick_priceHistory,
        updateHistory_priceHistory]
      by_cases hx : tick.instrumentId = x
      · have hprices : pricesOf x (ticks ++ [tick]) = pricesOf x ticks ++ [tick.price] := by
          simp [pricesOf, hx]
        rw [if_pos hx, ih, hprices, ← trim_window]
        rfl
      · have hprices : pricesOf x (ticks ++ [tick]) = pricesOf x ticks := by
          simp [pricesOf, hx]
        rw [if_neg hx, ih, hprices]

/-- **Instruments do not interfere.** The orders of an instrument are those of a run over its
own ticks, with any draws and any clock, and its window holds its last ten prices. -/
theorem instruments_do_not_interfere {W' : Type} (world : World W) (world' : World W') (g : W)
    (g' : W') (feed : List (MarketData R)) (x : Int) :
    placedFor x ((new feed g).process world).orders =
        placedFor x ((new (feed.filter fun t => t.instrumentId = x) g').process world').orders ∧
      ∀ pre, pre <+: feed →
        ((pre.foldl (processTick world) (new feed g)).priceHistory[x]?).getD [] =
          (pricesOf x pre).rtake (min 10 (pricesOf x pre).length) := by
  constructor
  · have hview : (feed.foldl (processTick world) (new feed g)).view x =
        ((feed.filter fun t => t.instrumentId = x).foldl (processTick world')
          (new (feed.filter fun t => t.instrumentId = x) g')).view x := by
      refine Unwinding.view_foldl_filter ?_ ?_ rfl
      · intro e tick hx
        exact view_processTick_other world e hx
      · rintro e e' tick rfl h
        exact view_processTick_own world world' h
    exact (Prod.mk.inj hview).2
  · intro pre hpre
    exact history_window world g feed pre x

end Process

end TradeEngine

end HftProject.Week2
