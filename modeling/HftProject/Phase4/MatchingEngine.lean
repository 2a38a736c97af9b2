import HftProject.Phase4.OrderBook

/-!
`MatchingEngine` (`week_4/phase_4`). `matchOrders` is the source's `while` loop:
`matchStep` is one iteration and returns `none` where the loop ends. The fuel of
`matchLoop` is one more than the number of entries; that it suffices is proved, not
assumed.

The engine carries a `history` beside the members of the source: the calls it has
made, newest first. No modelled function reads it.
-/

namespace HftProject.Phase4

variable {P I : Type} [LinearOrder P] [LinearOrder I]

namespace System

/-- `order->quantity -= n`. -/
def reduceQuantity (q : OrderPtr) (n : Int) (s : System P I) : Except Fault (System P I) := do
  let pool ← s.book.allocator.assign q.ptr fun o => { o with quantity := o.quantity - n }
  return { s with book := { s.book with allocator := pool } }

/-- The containers after the first entry of a side was erased. -/
def dropBest (s : System P I) (b : Bool) : System P I :=
  { s with book := { s.book with
      bids := if b then s.book.bids.tail else s.book.bids
      asks := if b then s.book.asks else s.book.asks.tail } }

/-- `bids.erase(bids.begin())` for the buy side, `asks.erase(asks.begin())` for the
sell side: the entry's pointer is released. -/
def eraseBest (L : Layout) (b : Bool) (s : System P I) : Except Fault (System P I) :=
  match s.book.side b with
  | [] => .error .undefined
  | (_, q) :: _ => release L q (s.dropBest b)

/-- `if (order->quantity <= 0) side.erase(it)` for the first entry of a side. -/
def eraseFilled (L : Layout) (b : Bool) (q : OrderPtr) (s : System P I) :
    Except Fault (System P I) := do
  let o ← s.book.allocator.deref q.ptr
  if o.quantity ≤ 0 then s.eraseBest L b else return s

/-- One iteration of the matching loop. -/
def matchStep (L : Layout) (s : System P I) : Except Fault (Option (System P I)) :=
  match s.book.bids, s.book.asks with
  | (bidPrice, buyOrder) :: _, (askPrice, sellOrder) :: _ =>
      if bidPrice < askPrice then .ok none
      else do
        let buy ← s.book.allocator.deref buyOrder.ptr
        let sell ← s.book.allocator.deref sellOrder.ptr
        let matchedQty := min buy.quantity sell.quantity
        let s ← s.reduceQuantity buyOrder matchedQty
        let s ← s.reduceQuantity sellOrder matchedQty
        let s ← s.eraseFilled L true buyOrder
        let s ← s.eraseFilled L false sellOrder
        return some s
  | _, _ => .ok none

def matchLoop (L : Layout) : Nat → System P I → Except Fault (System P I)
  | 0, _ => .error .diverged
  | fuel + 1, s =>
      match matchStep L s with
      | .error e => .error e
      | .ok none => .ok s
      | .ok (some s') => matchLoop L fuel s'

/-- `MatchingEngine::matchOrders`. -/
def matchOrders (L : Layout) (s : System P I) : Except Fault (System P I) :=
  matchLoop L (s.book.bids.length + s.book.asks.length + 1) s

end System

/-- The members of a tick that the engine reads. -/
structure MarketData (P : Type) where
  symbol : String
  bidPrice : P
  askPrice : P
deriving DecidableEq, Repr

/-- A call the engine has made. -/
inductive Call (P : Type) where
  /-- `orderBook.addOrder` in state `before`, asked to add `order`. -/
  | addOrder (before : System P Int) (order : Order P Int)
      (result : Except (AddError Int) OrderPtr)
  /-- `matchOrders` in state `before`. -/
  | matchOrders (before : System P Int)
  /-- `orderManager.addOrder` with the pointer `order`. -/
  | track (order : OrderPtr) (result : Bool)

/-- The engine with its book and its manager. `currentId` is the static counter of
`generateOrderId`, which all engines of a program share; ids are unbounded. -/
structure MatchingEngine (P : Type) where
  system : System P Int
  currentId : Int
  history : List (Call P)

namespace MatchingEngine

def defaultQuantity : Int := 20

/-- An engine on a fresh book, at the time the counter stands at `currentId`. -/
def fresh (L : Layout) (blockSize poolSize : Nat) (currentId : Int) :
    Except Fault (MatchingEngine P) := do
  let s ← OrderBook.fresh L blockSize poolSize
  return { system := s, currentId := currentId, history := [] }

def addOrder (L : Layout) (id : Int) (symbol : String) (price : P) (quantity : Int)
    (isBuy : Bool) (e : MatchingEngine P) :
    Except Fault (Option OrderPtr × MatchingEngine P) := do
  let (result, s) ← OrderBook.addOrder L id symbol price quantity isBuy e.system
  let call := .addOrder e.system ⟨id, symbol, price, quantity, isBuy⟩ result
  return (result.toOption, { e with system := s, history := call :: e.history })

def matchOrders (L : Layout) (e : MatchingEngine P) : Except Fault (MatchingEngine P) := do
  let s ← e.system.matchOrders L
  return { e with system := s, history := .matchOrders e.system :: e.history }

def track (h : Option OrderPtr) (e : MatchingEngine P) : Except Fault (MatchingEngine P) :=
  match h with
  | none => .ok e
  | some q => do
      let (success, s) ← OrderManager.addOrder (some q) e.system
      return { e with system := s, history := .track q success :: e.history }

def reset (L : Layout) (h : Option OrderPtr) (e : MatchingEngine P) :
    Except Fault (MatchingEngine P) := do
  let s ← e.system.reset L h
  return { e with system := s }

/-- The tick's limit orders; the pointers returned are dropped at once. -/
def submitQuotes (L : Layout) (data : MarketData P) (e : MatchingEngine P) :
    Except Fault (MatchingEngine P) := do
  let buyOrderId := e.currentId
  let sellOrderId := e.currentId + 1
  let e := { e with currentId := e.currentId + 2 }
  let (buy, e) ← e.addOrder L buyOrderId data.symbol data.bidPrice defaultQuantity true
  let e ← e.reset L buy
  let (sell, e) ← e.addOrder L sellOrderId data.symbol data.askPrice defaultQuantity false
  e.reset L sell

/-- The engine's own order: one unit at the best bid, if that is below 100. -/
def submitStrategyOrder [OfNat P 100] (L : Layout) (data : MarketData P) (e : MatchingEngine P) :
    Except Fault (MatchingEngine P) :=
  match e.system.book.bestBid, e.system.book.bestAsk with
  | some bestBid, some _ =>
      if bestBid < 100 then do
        let newOrderId := e.currentId
        let e := { e with currentId := e.currentId + 1 }
        let (orderPtr, e) ← e.addOrder L newOrderId data.symbol bestBid 1 true
        let e ← e.track orderPtr
        e.reset L orderPtr
      else .ok e
  | _, _ => .ok e

def processMarketData [OfNat P 100] (L : Layout) (data : MarketData P) (e : MatchingEngine P) :
    Except Fault (MatchingEngine P) := do
  let e ← e.submitQuotes L data
  let e ← e.matchOrders L
  e.submitStrategyOrder L data

end MatchingEngine

end HftProject.Phase4
