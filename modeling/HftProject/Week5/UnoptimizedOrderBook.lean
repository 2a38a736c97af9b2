import HftProject.Week5.ActiveOrders

/-!
`UnoptimizedOrderBook` (`week_5/hw_5`): levels and lookup each hold a copy of every
record. `Refines m` relates a book to the active orders it stands for; every call
refines the abstract call.
-/

namespace HftProject.Week5

variable {P : Type} [LinearOrder P] [Zero P]

structure UnoptimizedOrderBook (P : Type) [LinearOrder P] where
  orderLevels : PriceLevels P (Order P)
  orderLookup : Lookup (Order P)
  activeOrderCount : Nat

namespace UnoptimizedOrderBook

/-! ### The code -/

def new : UnoptimizedOrderBook P := ⟨∅, ∅, 0⟩

def addOrder (id : String) (price : P) (quantity : Int) (isBuy : Bool)
    (b : UnoptimizedOrderBook P) : Outcome P × UnoptimizedOrderBook P :=
  if Invalid id price quantity then (.warned (.invalidParameters id), b)
  else if id ∈ b.orderLookup then (.warned (.alreadyExists id), b)
  else
    let newOrder : Order P := ⟨id, price, quantity, isBuy⟩
    (.silent,
      { orderLevels := b.orderLevels.put price id newOrder
        orderLookup := b.orderLookup.insert id newOrder
        activeOrderCount := b.activeOrderCount + 1 })

/-- `orderLevels[oldPrice]` creates the level if it is missing; an empty level is erased
either way. -/
def modifyOrder (id : String) (newPrice : P) (newQuantity : Int) (b : UnoptimizedOrderBook P) :
    Outcome P × UnoptimizedOrderBook P :=
  if Invalid id newPrice newQuantity then (.warned (.invalidParameters id), b)
  else match b.orderLookup[id]? with
    | none => (.silent, b)
    | some oldOrder =>
        let oldPrice := oldOrder.price
        let level := (b.orderLevels.getD oldPrice ∅).erase id
        let levels : PriceLevels P (Order P) :=
          if level.isEmpty then b.orderLevels.erase oldPrice
          else b.orderLevels.insert oldPrice level
        let order := { oldOrder with price := newPrice, quantity := newQuantity }
        (.silent,
          { b with
            orderLevels := levels.put newPrice id order
            orderLookup := b.orderLookup.insert id order })

def deleteOrder (id : String) (b : UnoptimizedOrderBook P) :
    Outcome P × UnoptimizedOrderBook P :=
  if id = "" then (.silent, b)
  else match b.orderLookup[id]? with
    | none => (.silent, b)
    | some orderToDelete =>
        (.silent,
          { orderLevels := b.orderLevels.drop orderToDelete.price id
            orderLookup := b.orderLookup.erase id
            activeOrderCount := b.activeOrderCount - 1 })

def step : Op P → UnoptimizedOrderBook P → UnoptimizedOrderBook P
  | .addOrder id price quantity isBuy, b => (b.addOrder id price quantity isBuy).2
  | .modifyOrder id newPrice newQuantity, b => (b.modifyOrder id newPrice newQuantity).2
  | .deleteOrder id, b => (b.deleteOrder id).2

/-- The book that calls leave behind, from an empty one. -/
def run (ops : List (Op P)) : UnoptimizedOrderBook P := ops.foldl (fun b op => b.step op) new

def getOrder (id : String) (b : UnoptimizedOrderBook P) : Option (Order P) := b.orderLookup[id]?

def getActiveOrderCount (b : UnoptimizedOrderBook P) : Nat := b.activeOrderCount

def getAllActivePrices (b : UnoptimizedOrderBook P) : List P := b.orderLevels.toList.map (·.1)

def getOrdersAtPrice (price : P) (b : UnoptimizedOrderBook P) : Option (Lookup (Order P)) :=
  b.orderLevels[price]?

/-- The first level with an order of the side asked for. -/
def firstLevel (wanted : Order P → Bool) :
    List (P × Lookup (Order P)) → P × Option (Lookup (Order P))
  | [] => (0, none)
  | (price, level) :: levels =>
      if level.toList.any fun e => wanted e.2 then (price, some level)
      else firstLevel wanted levels

def getBestBidLevel (b : UnoptimizedOrderBook P) : P × Option (Lookup (Order P)) :=
  firstLevel (fun o => o.isBuy) b.orderLevels.toList.reverse

def getBestAskLevel (b : UnoptimizedOrderBook P) : P × Option (Lookup (Order P)) :=
  firstLevel (fun o => !o.isBuy) b.orderLevels.toList

/-! ### Refinement -/

/-- A book that stands for the active orders `m`. -/
structure Refines (m : ActiveOrders P) (b : UnoptimizedOrderBook P) : Prop where
  lookup : b.orderLookup = m
  levels : Levels.Indexes (fun o => some o.price) b.orderLevels m
  count : b.activeOrderCount = m.size
  named : m.Named

variable {m : ActiveOrders P} {b : UnoptimizedOrderBook P}

omit [Zero P] in
theorem new_refines : Refines (∅ : ActiveOrders P) new :=
  ⟨rfl, .empty, rfl, fun id o ho => by simp at ho⟩

theorem Refines.addOrder (h : Refines m b) (id : String) (price : P) (quantity : Int)
    (isBuy : Bool) :
    Refines (m.step (.addOrder id price quantity isBuy))
      (b.addOrder id price quantity isBuy).2 := by
  unfold UnoptimizedOrderBook.addOrder
  by_cases hinvalid : Invalid id price quantity
  · rw [if_pos hinvalid, ActiveOrders.step_add_idle (Or.inl hinvalid)]
    exact h
  by_cases hid : id ∈ m
  · rw [if_neg hinvalid, h.lookup, if_pos hid, ActiveOrders.step_add_idle (Or.inr hid)]
    exact h
  rw [if_neg hinvalid, h.lookup, if_neg hid, ActiveOrders.step_add hinvalid hid]
  constructor
  · rfl
  · exact h.levels.insert hid rfl
  · rw [size_insert_new hid, ← h.count]
  · exact h.named.insert rfl

omit [Zero P] in
/-- The level of an active order exists, so `orderLevels[oldPrice]` creates none. -/
theorem Refines.getD_level (h : Refines m b) {id : String} {o : Order P} (ho : m[id]? = some o) :
    (if ((b.orderLevels.getD o.price ∅).erase id).isEmpty then b.orderLevels.erase o.price
      else b.orderLevels.insert o.price ((b.orderLevels.getD o.price ∅).erase id)) =
        b.orderLevels.drop o.price id := by
  have hfind : b.orderLevels.find? o.price id = some o :=
    (h.levels.find?_iff o.price id o).mpr ⟨ho, rfl⟩
  obtain ⟨level, hlevel, -⟩ := Levels.find?_eq_some.mp hfind
  simp only [Std.ExtTreeMap.getD_eq_getD_getElem?, hlevel, Levels.drop, Option.getD_some]

theorem Refines.modifyOrder (h : Refines m b) (id : String) (newPrice : P) (newQuantity : Int) :
    Refines (m.step (.modifyOrder id newPrice newQuantity))
      (b.modifyOrder id newPrice newQuantity).2 := by
  unfold UnoptimizedOrderBook.modifyOrder
  by_cases hinvalid : Invalid id newPrice newQuantity
  · rw [if_pos hinvalid, ActiveOrders.step_modify_idle (Or.inl hinvalid)]
    exact h
  rw [if_neg hinvalid, h.lookup]
  cases ho : m[id]? with
  | none =>
      rw [ActiveOrders.step_modify_idle (Or.inr ho)]
      exact h
  | some o =>
      simp only [ActiveOrders.step_modify hinvalid ho, h.getD_level ho]
      constructor
      · rfl
      · exact h.levels.move ho rfl rfl fun _ _ _ _ => rfl
      · rw [size_insert_old (mem_iff_getElem?.mpr ⟨o, ho⟩), ← h.count]
      · exact h.named.insert (h.named id o ho)

theorem Refines.deleteOrder (h : Refines m b) (id : String) :
    Refines (m.step (.deleteOrder id)) (b.deleteOrder id).2 := by
  unfold UnoptimizedOrderBook.deleteOrder
  by_cases hempty : id = ""
  · rw [if_pos hempty, ActiveOrders.step_delete_idle (Or.inl hempty)]
    exact h
  rw [if_neg hempty, h.lookup]
  cases ho : m[id]? with
  | none =>
      rw [ActiveOrders.step_delete_idle (Or.inr ho)]
      exact h
  | some o =>
      rw [ActiveOrders.step_delete hempty]
      constructor
      · rfl
      · exact h.levels.erase ho rfl
      · have hsize := size_erase_old (mem_iff_getElem?.mpr ⟨o, ho⟩)
        have hcount := h.count
        change b.activeOrderCount - 1 = (Std.ExtTreeMap.erase m id).size
        omega
      · exact h.named.erase id

theorem Refines.step (h : Refines m b) (op : Op P) : Refines (m.step op) (b.step op) := by
  cases op with
  | addOrder id price quantity isBuy => exact h.addOrder id price quantity isBuy
  | modifyOrder id newPrice newQuantity => exact h.modifyOrder id newPrice newQuantity
  | deleteOrder id => exact h.deleteOrder id

end UnoptimizedOrderBook

end HftProject.Week5
