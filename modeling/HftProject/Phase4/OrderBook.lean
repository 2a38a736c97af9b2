import HftProject.Lib.Levels
import HftProject.Lib.Multimap
import HftProject.Phase4.MemoryPool

/-!
`OrderBook` (`week_4/phase_4`) and the shared ownership of its orders.

The book keeps three containers of `std::shared_ptr<Order>`; the order manager and
callers keep further copies. A `System` is all of them together, so that "the last
reference disappears" can be said: `System.release` runs the book's `OrderDeleter`
when no reference to the order is left anywhere.

Quantities are exact integers. A price is an element of any linear order.
-/

namespace HftProject.Phase4

structure Order (P I : Type) where
  id : I
  symbol : String
  price : P
  quantity : Int
  isBuy : Bool
deriving DecidableEq, Repr

/-- A `std::shared_ptr<Order>`: its control block, one for each construction from a
raw pointer, and the address of the order. Copies share both. -/
structure OrderPtr where
  ctrl : Nat
  ptr : Nat
deriving DecidableEq, Repr

/-- The members of `OrderBook`. `bids` iterates from the highest price, `asks` from
the lowest. -/
structure OrderBook (P I : Type) [LinearOrder I] where
  allocator : MemoryPool (Order P I)
  bids : Multimap P OrderPtr
  asks : Multimap P OrderPtr
  ordersById : Std.ExtTreeMap I OrderPtr

inductive OrderState where
  | new
  | filled
  | partiallyFilled
  | cancelled
  | invalid
deriving DecidableEq, Repr

/-- The members of `OrderManager`. -/
structure OrderManager (I : Type) [LinearOrder I] where
  orders : Std.ExtTreeMap I OrderPtr
  states : Std.ExtTreeMap I OrderState

/-- A book, a manager and the copies of order pointers that callers hold. `nextCtrl`
numbers the control blocks. -/
structure System (P I : Type) [LinearOrder I] where
  book : OrderBook P I
  manager : OrderManager I
  handles : List OrderPtr
  nextCtrl : Nat

/-- Why `OrderBook::addOrder` returns a null pointer. -/
inductive AddError (I : Type) where
  /-- `Error: Order ID … already exists.` -/
  | duplicateId (id : I)
  /-- `Error: Memory pool exhausted.` -/
  | poolExhausted
deriving DecidableEq, Repr

variable {P I : Type} [LinearOrder P] [LinearOrder I]

namespace System

/-- Every reference to an order that exists in the system. -/
def refs (s : System P I) : List OrderPtr :=
  s.book.ordersById.toList.map (·.2) ++ s.book.bids.map (·.2) ++ s.book.asks.map (·.2) ++
    s.manager.orders.toList.map (·.2) ++ s.handles

/-- The order a reference points to, if it is alive. -/
def order? (s : System P I) (q : OrderPtr) : Option (Order P I) := s.book.allocator.object? q.ptr

/-- `OrderBook::OrderDeleter`: destroy the order, give its block back. -/
def orderDeleter (L : Layout) (q : OrderPtr) (s : System P I) : Except Fault (System P I) := do
  let pool ← s.book.allocator.destruct q.ptr
  let pool ← pool.deallocate L (some q.ptr)
  return { s with book := { s.book with allocator := pool } }

/-- A copy of `q` has just gone: run the deleter if it was the last one. -/
def release (L : Layout) (q : OrderPtr) (s : System P I) : Except Fault (System P I) :=
  if q ∈ s.refs then .ok s else s.orderDeleter L q

/-- A caller lets a pointer go. -/
def reset (L : Layout) (h : Option OrderPtr) (s : System P I) : Except Fault (System P I) :=
  match h with
  | none => .ok s
  | some q => release L q { s with handles := s.handles.erase q }

end System

namespace OrderBook

/-- The constructor, with a manager that tracks nothing and no caller's pointer. -/
def fresh (L : Layout) (blockSize poolSize : Nat) : Except Fault (System P I) := do
  let pool ← MemoryPool.new L blockSize poolSize
  return { book := ⟨pool, [], [], ∅⟩, manager := ⟨∅, ∅⟩, handles := [], nextCtrl := 0 }

/-- The pointer returned is a reference of its own, held by the caller. -/
def addOrder (L : Layout) (id : I) (symbol : String) (price : P) (quantity : Int) (isBuy : Bool)
    (s : System P I) : Except Fault (Except (AddError I) OrderPtr × System P I) :=
  if id ∈ s.book.ordersById then .ok (.error (.duplicateId id), s)
  else match s.book.allocator.allocate with
    | .error .badAlloc => .ok (.error .poolExhausted, s)
    | .error e => .error e
    | .ok (mem, pool) => do
        let pool ← pool.construct L mem ⟨id, symbol, price, quantity, isBuy⟩
        let q : OrderPtr := ⟨s.nextCtrl, mem⟩
        return (.ok q,
          { s with
            book :=
              { allocator := pool
                ordersById := s.book.ordersById.insertIfNew id q
                bids := if isBuy then s.book.bids.emplace (· > ·) price q else s.book.bids
                asks := if isBuy then s.book.asks else s.book.asks.emplace (· < ·) price q }
            handles := q :: s.handles
            nextCtrl := s.nextCtrl + 1 })

/-- The entry of `q` in the range of entries with its price. -/
def isEntryOf (price : P) (q : OrderPtr) (e : P × OrderPtr) : Bool :=
  decide (e.1 = price) && decide (e.2.ptr = q.ptr)

/-- The local copy of the pointer is the last one to go. -/
def deleteOrder (L : Layout) (id : I) (s : System P I) : Except Fault (Bool × System P I) :=
  match s.book.ordersById[id]? with
  | none => .ok (false, s)
  | some q => do
      let o ← s.book.allocator.deref q.ptr
      let book := { s.book with
        ordersById := s.book.ordersById.erase id
        bids := if o.isBuy then s.book.bids.eraseP (isEntryOf o.price q) else s.book.bids
        asks := if o.isBuy then s.book.asks else s.book.asks.eraseP (isEntryOf o.price q) }
      let s ← System.release L q { s with book := book }
      return (true, s)

def updateQuantity (id : I) (newQuantity : Int) (s : System P I) :
    Except Fault (Bool × System P I) :=
  match s.book.ordersById[id]? with
  | none => .ok (false, s)
  | some q =>
      if newQuantity ≤ 0 then .ok (false, s)
      else do
        let pool ← s.book.allocator.assign q.ptr fun o => { o with quantity := newQuantity }
        return (true, { s with book := { s.book with allocator := pool } })

/-- The pointer returned is a further reference, held by the caller. -/
def getOrderById (id : I) (s : System P I) : Option OrderPtr × System P I :=
  match s.book.ordersById[id]? with
  | none => (none, s)
  | some q => (some q, { s with handles := q :: s.handles })

/-- The buy side for `true`, the sell side for `false`. -/
def side (book : OrderBook P I) : Bool → Multimap P OrderPtr
  | true => book.bids
  | false => book.asks

omit [LinearOrder P] in
@[simp] theorem side_true (book : OrderBook P I) : book.side true = book.bids := rfl

omit [LinearOrder P] in
@[simp] theorem side_false (book : OrderBook P I) : book.side false = book.asks := rfl

def bestBid (book : OrderBook P I) : Option P := book.bids.head?.map (·.1)

def bestAsk (book : OrderBook P I) : Option P := book.asks.head?.map (·.1)

end OrderBook

namespace OrderManager

/-- The pointer returned is a further reference, held by the caller. -/
def getOrder (id : I) (s : System P I) : Option OrderPtr × System P I :=
  match s.manager.orders[id]? with
  | none => (none, s)
  | some q => (some q, { s with handles := q :: s.handles })

def getState (id : I) (m : OrderManager I) : OrderState := (m.states[id]?).getD .invalid

/-- Both containers are filled by `emplace`, which leaves a key that is present alone. -/
def addOrder (h : Option OrderPtr) (s : System P I) : Except Fault (Bool × System P I) :=
  match h with
  | none => .ok (false, s)
  | some q => do
      let o ← s.book.allocator.deref q.ptr
      if o.id ∈ s.manager.orders then return (false, s)
      else return (true, { s with manager :=
        { orders := s.manager.orders.insertIfNew o.id q
          states := s.manager.states.insertIfNew o.id .new } })

def cancelOrder (L : Layout) (id : I) (s : System P I) : Except Fault (Bool × System P I) :=
  match s.manager.orders[id]? with
  | none => .ok (false, s)
  | some q => do
      let manager :=
        { orders := s.manager.orders.erase id
          states := s.manager.states.insert id .cancelled }
      let s ← System.release L q { s with manager := manager }
      return (true, s)

def updateOrderFill (L : Layout) (id : I) (filledQuantity : Int) (s : System P I) :
    Except Fault (Bool × System P I) :=
  match s.manager.orders[id]?, s.manager.states[id]? with
  | some q, some state =>
      if state = .cancelled ∨ state = .filled then .ok (false, s)
      else do
        let o ← s.book.allocator.deref q.ptr
        if filledQuantity < 0 ∨ filledQuantity > o.quantity then return (false, s)
        else if filledQuantity = o.quantity then
          let manager :=
            { orders := s.manager.orders.erase id
              states := s.manager.states.insert id .filled }
          let s ← System.release L q { s with manager := manager }
          return (true, s)
        else if filledQuantity > 0 then
          return (true, { s with manager :=
            { s.manager with states := s.manager.states.insert id .partiallyFilled } })
        else return (true, s)
  | _, _ => .ok (false, s)

end OrderManager

end HftProject.Phase4
