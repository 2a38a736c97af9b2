import HftProject.Week5.ActiveOrders

/-!
`OptimizedOrderBook` (`week_5`): levels and lookup share one pooled record. The class
exists in `hw_5` and in `phase_5`; the two versions differ in what they report and in
what `modifyOrder` does about a missing level.

`Refines n m b` relates a book over a pool of `n` slots to the active orders it stands
for; every call of either version refines the abstract call of that capacity.
-/

namespace HftProject.Week5

variable {P : Type} [LinearOrder P] [Zero P]

/-- An `OrderOpt*` is the index of its slot in the pool. -/
structure OptimizedOrderBook (P : Type) [LinearOrder P] where
  orderLevels : PriceLevels P Nat
  orderLookup : Lookup Nat
  orderPool : ObjectPool (Order P)
  activeOrderCount : Nat

namespace OptimizedOrderBook

/-! ### The code -/

/-- The record of `OrderOpt`'s default arguments. -/
def defaultOrder : Order P := ⟨"", 0, 0, true⟩

def new (initialPoolCapacity : Nat) : OptimizedOrderBook P :=
  ⟨∅, ∅, ObjectPool.empty.reserve defaultOrder initialPoolCapacity, 0⟩

/-- `addOrder`, with what is written before `allocate`'s exception goes on. -/
def addOrderReporting (report : String → Exception → List (Warning P)) (id : String) (price : P)
    (quantity : Int) (isBuy : Bool) (b : OptimizedOrderBook P) :
    Outcome P × OptimizedOrderBook P :=
  if Invalid id price quantity then (.warned (.invalidParameters id), b)
  else if id ∈ b.orderLookup then (.warned (.alreadyExists id), b)
  else match b.orderPool.allocate ⟨id, price, quantity, isBuy⟩ with
    | .error e => (⟨report id e, some e⟩, b)
    | .ok (newOrder, pool) =>
        (.silent,
          { orderLevels := b.orderLevels.put price id newOrder
            orderLookup := b.orderLookup.insert id newOrder
            orderPool := pool
            activeOrderCount := b.activeOrderCount + 1 })

/-- Take an order out of its level, change its price in place and put it into the level
of the new price. -/
def reprice (id : String) (ptr : Nat) (oldPrice newPrice : P) (b : OptimizedOrderBook P) :
    Except Fault (OptimizedOrderBook P) := do
  let pool ← b.orderPool.assign ptr fun o => { o with price := newPrice }
  return { b with
    orderLevels := (b.orderLevels.drop oldPrice id).put newPrice id ptr
    orderPool := pool }

def setQuantity (ptr : Nat) (newQuantity : Int) (b : OptimizedOrderBook P) :
    Except Fault (OptimizedOrderBook P) := do
  let pool ← b.orderPool.assign ptr fun o => { o with quantity := newQuantity }
  return { b with orderPool := pool }

/-- `deleteOrder`, with what an unknown id is answered with. -/
def deleteOrderReporting (unknown : String → Outcome P) (id : String) (b : OptimizedOrderBook P) :
    Except Fault (Outcome P × OptimizedOrderBook P) :=
  if id = "" then .ok (.silent, b)
  else match b.orderLookup[id]? with
    | none => .ok (unknown id, b)
    | some orderToDeletePtr => do
        let price := (← b.orderPool.deref orderToDeletePtr).price
        let outcome := if price ∈ b.orderLevels then .silent else .warned (.missingLevel id price)
        let pool ← b.orderPool.deallocate (some orderToDeletePtr)
        return (outcome,
          { orderLevels := b.orderLevels.drop price id
            orderLookup := b.orderLookup.erase id
            orderPool := pool
            activeOrderCount := b.activeOrderCount - 1 })

def getOrder (id : String) (b : OptimizedOrderBook P) : Except Fault (Option (Order P)) :=
  match b.orderLookup[id]? with
  | none => .ok none
  | some ptr => some <$> b.orderPool.deref ptr

def getActiveOrderCount (b : OptimizedOrderBook P) : Nat := b.activeOrderCount

def getAllActivePrices (b : OptimizedOrderBook P) : List P :=
  (b.orderLevels.toList.filter fun e => !e.2.isEmpty).map (·.1)

def getOrdersAtPrice (price : P) (b : OptimizedOrderBook P) : Option (Lookup Nat) :=
  b.orderLevels[price]?

/-- The first level with an order of the side asked for. -/
def firstLevel (wanted : Order P → Bool) (pool : ObjectPool (Order P)) :
    List (P × Lookup Nat) → Except Fault (P × Option (Lookup Nat))
  | [] => .ok (0, none)
  | (price, level) :: levels => do
      if ← level.toList.anyM fun e => wanted <$> pool.deref e.2 then
        return (price, some level)
      else firstLevel wanted pool levels

def getBestBidLevel (b : OptimizedOrderBook P) : Except Fault (P × Option (Lookup Nat)) :=
  firstLevel (fun o => o.isBuy) b.orderPool b.orderLevels.toList.reverse

def getBestAskLevel (b : OptimizedOrderBook P) : Except Fault (P × Option (Lookup Nat)) :=
  firstLevel (fun o => !o.isBuy) b.orderPool b.orderLevels.toList

namespace Hw5

def addOrder : String → P → Int → Bool → OptimizedOrderBook P → Outcome P × OptimizedOrderBook P :=
  addOrderReporting fun id e => [.allocationFailed id e]

/-- A missing level is reported; the order enters the new level all the same. -/
def modifyOrder (id : String) (newPrice : P) (newQuantity : Int) (b : OptimizedOrderBook P) :
    Except Fault (Outcome P × OptimizedOrderBook P) :=
  if Invalid id newPrice newQuantity then .ok (.warned (.invalidParameters id), b)
  else match b.orderLookup[id]? with
    | none => .ok (.warned (.notFound id), b)
    | some orderToModify => do
        let oldPrice := (← b.orderPool.deref orderToModify).price
        if oldPrice = newPrice then
          return (.silent, ← b.setQuantity orderToModify newQuantity)
        else
          let outcome :=
            if oldPrice ∈ b.orderLevels then .silent else .warned (.missingLevel id oldPrice)
          let moved ← b.reprice id orderToModify oldPrice newPrice
          return (outcome, ← moved.setQuantity orderToModify newQuantity)

def deleteOrder : String → OptimizedOrderBook P → Except Fault (Outcome P × OptimizedOrderBook P) :=
  deleteOrderReporting fun id => .warned (.notFound id)

def call : Op P → OptimizedOrderBook P → Except Fault (Outcome P × OptimizedOrderBook P)
  | .addOrder id price quantity isBuy, b => .ok (addOrder id price quantity isBuy b)
  | .modifyOrder id newPrice newQuantity, b => modifyOrder id newPrice newQuantity b
  | .deleteOrder id, b => deleteOrder id b

/-- What a call leaves behind, be it by an exception. -/
def step (op : Op P) (b : OptimizedOrderBook P) : Except Fault (OptimizedOrderBook P) :=
  (·.2) <$> call op b

end Hw5

namespace Phase5

def addOrder : String → P → Int → Bool → OptimizedOrderBook P → Outcome P × OptimizedOrderBook P :=
  addOrderReporting fun _ _ => []

/-- `orderLevels.at` throws on a missing level. -/
def modifyOrder (id : String) (newPrice : P) (newQuantity : Int) (b : OptimizedOrderBook P) :
    Except Fault (Outcome P × OptimizedOrderBook P) :=
  if Invalid id newPrice newQuantity then .ok (.warned (.invalidParameters id), b)
  else match b.orderLookup[id]? with
    | none => .ok (.silent, b)
    | some oldOrderPtr => do
        let oldPrice := (← b.orderPool.deref oldOrderPtr).price
        if oldPrice = newPrice then
          return (.silent, ← b.setQuantity oldOrderPtr newQuantity)
        else if oldPrice ∈ b.orderLevels then
          let moved ← b.reprice id oldOrderPtr oldPrice newPrice
          return (.silent, ← moved.setQuantity oldOrderPtr newQuantity)
        else return (⟨[], some .outOfRange⟩, b)

def deleteOrder : String → OptimizedOrderBook P → Except Fault (Outcome P × OptimizedOrderBook P) :=
  deleteOrderReporting fun _ => .silent

def call : Op P → OptimizedOrderBook P → Except Fault (Outcome P × OptimizedOrderBook P)
  | .addOrder id price quantity isBuy, b => .ok (addOrder id price quantity isBuy b)
  | .modifyOrder id newPrice newQuantity, b => modifyOrder id newPrice newQuantity b
  | .deleteOrder id, b => deleteOrder id b

/-- What a call leaves behind, be it by an exception. -/
def step (op : Op P) (b : OptimizedOrderBook P) : Except Fault (OptimizedOrderBook P) :=
  (·.2) <$> call op b

end Phase5

/-! ### Refinement -/

/-- A book over a pool of `n` slots that stands for the active orders `m`: the slots in
use are those the lookup points to. -/
structure Refines (n : Nat) (m : ActiveOrders P) (b : OptimizedOrderBook P) : Prop where
  pool : b.orderPool.Ok
  capacity : b.orderPool.capacity = n
  records : ∀ id : String, m[id]? = (b.orderLookup[id]?).bind b.orderPool.object?
  used : ∀ (id : String) ptr, b.orderLookup[id]? = some ptr → b.orderPool.Used ptr
  only : ∀ ptr, b.orderPool.Used ptr → ∃ id : String, b.orderLookup[id]? = some ptr
  levels : Levels.Indexes (fun ptr => (b.orderPool.object? ptr).map (·.price)) b.orderLevels
    b.orderLookup
  size : b.orderLookup.size = m.size
  count : b.activeOrderCount = m.size
  usedCount : b.orderPool.usedCount = m.size
  named : m.Named

variable {n : Nat} {m : ActiveOrders P} {b : OptimizedOrderBook P}

theorem new_refines (n : Nat) : Refines n (∅ : ActiveOrders P) (new n) := by
  obtain ⟨hok, hcapacity, hnone, hused⟩ := ObjectPool.reserve_ok (defaultOrder (P := P)) n
  exact
    { pool := hok
      capacity := hcapacity
      records := fun id => by simp [new]
      used := fun id ptr h => by simp [new] at h
      only := fun ptr h => absurd h (hnone ptr)
      levels := .empty
      size := rfl
      count := rfl
      usedCount := hused
      named := fun id o ho => by simp at ho }

omit [Zero P] in
/-- The record of an id in the lookup. -/
theorem Refines.record (h : Refines n m b) {id : String} {ptr : Nat}
    (hptr : b.orderLookup[id]? = some ptr) :
    ∃ o, b.orderPool.object? ptr = some o ∧ m[id]? = some o ∧ o.id = id := by
  obtain ⟨hlt, hfree⟩ := h.used id ptr hptr
  obtain ⟨o, ho⟩ := h.pool.alive ptr hlt hfree
  have hm : m[id]? = some o := by rw [h.records, hptr, Option.bind_some, ho]
  exact ⟨o, ho, hm, h.named id o hm⟩

omit [Zero P] in
/-- Different ids have different slots. -/
theorem Refines.distinct (h : Refines n m b) {id id' : String} {ptr : Nat}
    (hptr : b.orderLookup[id]? = some ptr) (hptr' : b.orderLookup[id']? = some ptr) : id = id' := by
  obtain ⟨o, ho, -, rfl⟩ := h.record hptr
  obtain ⟨o', ho', -, rfl⟩ := h.record hptr'
  rw [ho] at ho'
  cases ho'
  rfl

omit [Zero P] in
theorem Refines.lookup_none (h : Refines n m b) {id : String} (hid : b.orderLookup[id]? = none) :
    m[id]? = none := by
  rw [h.records, hid, Option.bind_none]

omit [Zero P] in
theorem Refines.mem_iff (h : Refines n m b) (id : String) : id ∈ b.orderLookup ↔ id ∈ m := by
  rw [mem_iff_getElem?, mem_iff_getElem?]
  constructor
  · rintro ⟨ptr, hptr⟩
    obtain ⟨o, -, hm, -⟩ := h.record hptr
    exact ⟨o, hm⟩
  · rintro ⟨o, ho⟩
    rw [h.records] at ho
    obtain ⟨ptr, hptr, -⟩ := Option.bind_eq_some_iff.mp ho
    exact ⟨ptr, hptr⟩

omit [Zero P] in
/-- The level of an active order exists. -/
theorem Refines.level_mem (h : Refines n m b) {id : String} {ptr : Nat} {o : Order P}
    (hptr : b.orderLookup[id]? = some ptr) (ho : b.orderPool.object? ptr = some o) :
    o.price ∈ b.orderLevels := by
  have hfind : b.orderLevels.find? o.price id = some ptr :=
    (h.levels.find?_iff o.price id ptr).mpr ⟨hptr, by rw [ho]; rfl⟩
  obtain ⟨level, hlevel, -⟩ := Levels.find?_eq_some.mp hfind
  exact mem_iff_getElem?.mpr ⟨level, hlevel⟩

omit [Zero P] in
theorem Refines.size_add (h : Refines n m b) :
    m.size + b.orderPool.freeIndices.length = n := by
  rw [← h.usedCount, ← h.capacity]
  exact h.pool.count

/-! ### An order comes, changes or goes -/

omit [Zero P] in
/-- A new order in a slot that was free. -/
theorem Refines.added (h : Refines n m b) {o : Order P} (hnew : o.id ∉ m)
    {pool : ObjectPool (Order P)} {slot : Nat} (halloc : b.orderPool.Allocated pool slot o) :
    Refines n (m.insert o.id o)
      { orderLevels := b.orderLevels.put o.price o.id slot
        orderLookup := b.orderLookup.insert o.id slot
        orderPool := pool
        activeOrderCount := b.activeOrderCount + 1 } := by
  have hid : o.id ∉ b.orderLookup := fun hmem => hnew ((h.mem_iff o.id).mp hmem)
  have hother : ∀ (id : String) ptr, b.orderLookup[id]? = some ptr → ptr ≠ slot := by
    rintro id ptr hptr rfl
    exact halloc.free (h.used id ptr hptr)
  constructor
  · exact halloc.ok
  · exact halloc.capacity.trans h.capacity
  · intro id
    rw [getElem?_insert_eq, getElem?_insert_eq]
    split
    · simp [halloc.object]
    · rw [h.records]
      cases hptr : b.orderLookup[id]? with
      | none => rfl
      | some ptr => simp [halloc.object, hother id ptr hptr]
  · intro id ptr hptr
    rw [getElem?_insert_eq] at hptr
    split at hptr
    · cases hptr
      exact (halloc.used slot).mpr (Or.inl rfl)
    · exact (halloc.used ptr).mpr (Or.inr (h.used id ptr hptr))
  · intro ptr hused
    rcases (halloc.used ptr).mp hused with rfl | hused
    · exact ⟨o.id, by simp⟩
    · obtain ⟨id, hptr⟩ := h.only ptr hused
      refine ⟨id, ?_⟩
      rw [getElem?_insert_eq, if_neg, hptr]
      rintro rfl
      exact hid (mem_iff_getElem?.mpr ⟨ptr, hptr⟩)
  · apply (h.levels.congr _).insert hid
    · simp [halloc.object]
    · intro id ptr hptr
      rw [halloc.object, if_neg (hother id ptr hptr)]
  · rw [size_insert_new hid, size_insert_new hnew, h.size]
  · rw [size_insert_new hnew, ← h.count]
  · rw [size_insert_new hnew, halloc.usedCount, h.usedCount]
  · exact h.named.insert rfl

omit [Zero P] in
/-- A record that changes in place, with levels that have kept up. -/
theorem Refines.assigned (h : Refines n m b) {id : String} {ptr : Nat}
    (hptr : b.orderLookup[id]? = some ptr) {o : Order P} {pool : ObjectPool (Order P)}
    (hassign : b.orderPool.Assigned pool ptr o) (hid : o.id = id)
    {levels : PriceLevels P Nat}
    (hlevels : Levels.Indexes (fun ptr => (pool.object? ptr).map (·.price)) levels b.orderLookup) :
    Refines n (m.insert id o) { b with orderLevels := levels, orderPool := pool } := by
  obtain ⟨old, -, hm, -⟩ := h.record hptr
  have hmem : id ∈ m := mem_iff_getElem?.mpr ⟨old, hm⟩
  constructor
  · exact hassign.ok
  · exact hassign.capacity.trans h.capacity
  · intro id'
    rw [getElem?_insert_eq]
    split
    · rename_i heq
      simp [← heq, hptr, hassign.object]
    · rename_i hne
      rw [h.records]
      cases hptr' : b.orderLookup[id']? with
      | none => rfl
      | some ptr' =>
          have hother : ptr' ≠ ptr := by
            rintro rfl
            exact hne (h.distinct hptr hptr')
          simp [hassign.object, hother]
  · intro id' ptr' hptr'
    exact (hassign.used ptr').mpr (h.used id' ptr' hptr')
  · intro ptr' hused
    exact h.only ptr' ((hassign.used ptr').mp hused)
  · exact hlevels
  · rw [size_insert_old hmem, h.size]
  · rw [size_insert_old hmem, h.count]
  · rw [size_insert_old hmem, hassign.usedCount, h.usedCount]
  · exact h.named.insert hid

omit [Zero P] in
/-- An order that goes and frees its slot. -/
theorem Refines.removed (h : Refines n m b) {id : String} {ptr : Nat} {o : Order P}
    (hptr : b.orderLookup[id]? = some ptr) (ho : b.orderPool.object? ptr = some o)
    {pool : ObjectPool (Order P)} (hfree : b.orderPool.Deallocated pool ptr) :
    Refines n (m.erase id)
      { orderLevels := b.orderLevels.drop o.price id
        orderLookup := b.orderLookup.erase id
        orderPool := pool
        activeOrderCount := b.activeOrderCount - 1 } := by
  have hlookup := size_erase_old (mem_iff_getElem?.mpr ⟨ptr, hptr⟩)
  have hsize := size_erase_old ((h.mem_iff id).mp (mem_iff_getElem?.mpr ⟨ptr, hptr⟩))
  have hother : ∀ (id' : String) ptr', (b.orderLookup.erase id)[id']? = some ptr' →
      b.orderLookup[id']? = some ptr' ∧ ptr' ≠ ptr := by
    intro id' ptr' hptr'
    rw [getElem?_erase_eq] at hptr'
    split at hptr'
    · cases hptr'
    · rename_i hne
      refine ⟨hptr', ?_⟩
      rintro rfl
      exact hne (h.distinct hptr hptr')
  constructor
  · exact hfree.ok
  · exact hfree.capacity.trans h.capacity
  · intro id'
    change (Std.ExtTreeMap.erase m id)[id']? = _
    cases hptr' : (b.orderLookup.erase id)[id']? with
    | none =>
        rw [getElem?_erase_eq] at hptr' ⊢
        split at hptr'
        · rename_i heq
          simp [heq]
        · rw [h.lookup_none hptr', ite_self]
          rfl
    | some ptr' =>
        obtain ⟨hold, hne⟩ := hother id' ptr' hptr'
        have hid : id ≠ id' := by
          rintro rfl
          simp at hptr'
        simp [getElem?_erase_eq, hid, h.records, hold, hfree.object, hne]
  · intro id' ptr' hptr'
    obtain ⟨hold, hne⟩ := hother id' ptr' hptr'
    exact (hfree.used ptr').mpr ⟨hne, h.used id' ptr' hold⟩
  · intro ptr' hused
    obtain ⟨hne, hused⟩ := (hfree.used ptr').mp hused
    obtain ⟨id', hptr'⟩ := h.only ptr' hused
    refine ⟨id', ?_⟩
    rw [getElem?_erase_eq, if_neg, hptr']
    rintro rfl
    exact hne (Option.some.inj (hptr'.symm.trans hptr))
  · have herase := h.levels.erase hptr (k := o.price) (by simp [ho])
    apply herase.congr
    intro id' ptr' hptr'
    rw [hfree.object, if_neg (hother id' ptr' hptr').2]
  · have := h.size
    change (b.orderLookup.erase id).size = (Std.ExtTreeMap.erase m id).size
    omega
  · have := h.count
    change b.activeOrderCount - 1 = (Std.ExtTreeMap.erase m id).size
    omega
  · have hused := hfree.usedCount
    have := h.usedCount
    change pool.usedCount = (Std.ExtTreeMap.erase m id).size
    omega
  · exact h.named.erase id

/-! ### The calls -/

omit [Zero P] in
theorem Refines.setQuantity (h : Refines n m b) {id : String} {ptr : Nat} {o : Order P}
    (hptr : b.orderLookup[id]? = some ptr) (ho : b.orderPool.object? ptr = some o)
    (newQuantity : Int) :
    ∃ b', b.setQuantity ptr newQuantity = .ok b' ∧
      Refines n (m.insert id { o with quantity := newQuantity }) b' := by
  obtain ⟨o', ho', -, hid⟩ := h.record hptr
  obtain rfl : o = o' := Option.some.inj (ho.symm.trans ho')
  obtain ⟨pool, hpool, hassign⟩ :=
    h.pool.assign_used ho fun o => { o with quantity := newQuantity }
  refine ⟨{ b with orderPool := pool }, ?_, h.assigned hptr hassign hid (h.levels.congr ?_)⟩
  · rw [OptimizedOrderBook.setQuantity, hpool]
    rfl
  · intro id' ptr' _
    rw [hassign.object]
    split
    · rename_i heq
      rw [heq, ho]
      rfl
    · rfl

omit [Zero P] in
theorem Refines.reprice (h : Refines n m b) {id : String} {ptr : Nat} {o : Order P}
    (hptr : b.orderLookup[id]? = some ptr) (ho : b.orderPool.object? ptr = some o) (newPrice : P) :
    ∃ b', b.reprice id ptr o.price newPrice = .ok b' ∧
      Refines n (m.insert id { o with price := newPrice }) b' ∧
      b'.orderLookup[id]? = some ptr ∧
      b'.orderPool.object? ptr = some { o with price := newPrice } := by
  obtain ⟨o', ho', -, hid⟩ := h.record hptr
  obtain rfl : o = o' := Option.some.inj (ho.symm.trans ho')
  obtain ⟨pool, hpool, hassign⟩ := h.pool.assign_used ho fun o => { o with price := newPrice }
  -- The pointer moves from level to level; the lookup keeps it.
  have hmove : Levels.Indexes (fun ptr => (pool.object? ptr).map (·.price))
      ((b.orderLevels.drop o.price id).put newPrice id ptr) (b.orderLookup.insert id ptr) := by
    apply h.levels.move hptr
    · simp [ho]
    · simp [hassign.object]
    · intro id' ptr' hne hptr'
      rw [hassign.object, if_neg]
      rintro rfl
      exact hne (h.distinct hptr' hptr)
  rw [insert_self hptr] at hmove
  refine ⟨_, ?_, h.assigned hptr hassign hid hmove, hptr, ?_⟩
  · rw [OptimizedOrderBook.reprice, hpool]
    rfl
  · rw [hassign.object, if_pos rfl]

theorem Refines.stepWithin_modify (h : Refines n m b) {id : String} {ptr : Nat} {o : Order P}
    (hptr : b.orderLookup[id]? = some ptr) (ho : b.orderPool.object? ptr = some o) {newPrice : P}
    {newQuantity : Int} (hvalid : ¬ Invalid id newPrice newQuantity) :
    m.stepWithin n (.modifyOrder id newPrice newQuantity) =
      m.insert id { o with price := newPrice, quantity := newQuantity } := by
  obtain ⟨o', ho', hm, -⟩ := h.record hptr
  obtain rfl : o = o' := Option.some.inj (ho.symm.trans ho')
  have hstep := ActiveOrders.step_modify hvalid hm
  have hadd := h.size_add
  rw [ActiveOrders.stepWithin_of_le, hstep]
  rw [hstep, size_insert_old (mem_iff_getElem?.mpr ⟨o, hm⟩)]
  omega

/-- The price stays. -/
theorem Refines.kept (h : Refines n m b) {id : String} {ptr : Nat} {o : Order P}
    (hptr : b.orderLookup[id]? = some ptr) (ho : b.orderPool.object? ptr = some o)
    {newQuantity : Int} (hvalid : ¬ Invalid id o.price newQuantity) :
    ∃ b', b.setQuantity ptr newQuantity = .ok b' ∧
      Refines n (m.stepWithin n (.modifyOrder id o.price newQuantity)) b' := by
  rw [h.stepWithin_modify hptr ho hvalid]
  exact h.setQuantity hptr ho newQuantity

/-- The price changes. -/
theorem Refines.moved (h : Refines n m b) {id : String} {ptr : Nat} {o : Order P}
    (hptr : b.orderLookup[id]? = some ptr) (ho : b.orderPool.object? ptr = some o) {newPrice : P}
    {newQuantity : Int} (hvalid : ¬ Invalid id newPrice newQuantity) :
    ∃ b₁ b₂, b.reprice id ptr o.price newPrice = .ok b₁ ∧
      b₁.setQuantity ptr newQuantity = .ok b₂ ∧
      Refines n (m.stepWithin n (.modifyOrder id newPrice newQuantity)) b₂ := by
  obtain ⟨b₁, hb₁, h₁, hptr₁, ho₁⟩ := h.reprice hptr ho newPrice
  obtain ⟨b₂, hb₂, h₂⟩ := h₁.setQuantity hptr₁ ho₁ newQuantity
  rw [insert_insert] at h₂
  rw [h.stepWithin_modify hptr ho hvalid]
  exact ⟨b₁, b₂, hb₁, hb₂, h₂⟩

/-- Both versions of `modifyOrder` throw nothing and leave the same book. They report the
same, except for an id that is not active. -/
theorem Refines.modifyOrder (h : Refines n m b) (id : String) (newPrice : P) (newQuantity : Int) :
    ∃ r r' b', Hw5.modifyOrder id newPrice newQuantity b = .ok (r, b') ∧
      Phase5.modifyOrder id newPrice newQuantity b = .ok (r', b') ∧
      r.exception = none ∧ r'.exception = none ∧ (id ∈ m → r = r') ∧
      Refines n (m.stepWithin n (.modifyOrder id newPrice newQuantity)) b' := by
  unfold Hw5.modifyOrder Phase5.modifyOrder
  by_cases hvalid : Invalid id newPrice newQuantity
  · rw [if_pos hvalid, if_pos hvalid,
      ActiveOrders.stepWithin_of_eq (ActiveOrders.step_modify_idle (Or.inl hvalid))]
    exact ⟨_, _, b, rfl, rfl, rfl, rfl, fun _ => rfl, h⟩
  rw [if_neg hvalid, if_neg hvalid]
  cases hptr : b.orderLookup[id]? with
  | none =>
      have hnone := h.lookup_none hptr
      rw [ActiveOrders.stepWithin_of_eq (ActiveOrders.step_modify_idle (Or.inr hnone))]
      refine ⟨_, _, b, rfl, rfl, rfl, rfl, ?_, h⟩
      intro hmem
      obtain ⟨o, ho⟩ := mem_iff_getElem?.mp hmem
      rw [hnone] at ho
      cases ho
  | some ptr =>
      obtain ⟨o, ho, -, -⟩ := h.record hptr
      -- The level is there: nothing to warn of, and `at` does not throw.
      have hlevel := h.level_mem hptr ho
      by_cases hprice : o.price = newPrice
      · subst hprice
        obtain ⟨b', hb', h'⟩ := h.kept hptr ho hvalid
        refine ⟨.silent, .silent, b', ?_, ?_, rfl, rfl, fun _ => rfl, h'⟩ <;>
        · simp only [ObjectPool.deref_ok ho, hb', bind, Except.bind, if_true]
          rfl
      · obtain ⟨b₁, b₂, hb₁, hb₂, h₂⟩ := h.moved hptr ho hvalid
        refine ⟨.silent, .silent, b₂, ?_, ?_, rfl, rfl, fun _ => rfl, h₂⟩ <;>
        · simp only [ObjectPool.deref_ok ho, hb₁, hb₂, hlevel, hprice, bind, Except.bind, if_true,
            if_false]
          rfl

theorem Refines.addOrderReporting (h : Refines n m b)
    (report : String → Exception → List (Warning P)) (id : String) (price : P) (quantity : Int)
    (isBuy : Bool) :
    Refines n (m.stepWithin n (.addOrder id price quantity isBuy))
      (b.addOrderReporting report id price quantity isBuy).2 := by
  unfold OptimizedOrderBook.addOrderReporting
  by_cases hinvalid : Invalid id price quantity
  · rw [if_pos hinvalid,
      ActiveOrders.stepWithin_of_eq (ActiveOrders.step_add_idle (Or.inl hinvalid) isBuy)]
    exact h
  by_cases hid : id ∈ m
  · rw [if_neg hinvalid, if_pos ((h.mem_iff id).mpr hid),
      ActiveOrders.stepWithin_of_eq (ActiveOrders.step_add_idle (Or.inr hid) isBuy)]
    exact h
  have hstep := ActiveOrders.step_add hinvalid hid isBuy
  have hsize : (m.step (.addOrder id price quantity isBuy)).size = m.size + 1 := by
    rw [hstep, size_insert_new hid]
  have hadd := h.size_add
  rw [if_neg hinvalid, if_neg fun hmem => hid ((h.mem_iff id).mp hmem)]
  cases hfree : b.orderPool.freeIndices with
  | nil =>
      -- The pool is full, and so is the abstract book.
      rw [hfree, List.length_nil] at hadd
      rw [ObjectPool.allocate_nil hfree, ActiveOrders.stepWithin_of_lt (by omega)]
      exact h
  | cons slot rest =>
      obtain ⟨pool, hpool, halloc⟩ := h.pool.allocate_cons hfree ⟨id, price, quantity, isBuy⟩
      rw [hfree, List.length_cons] at hadd
      rw [hpool, ActiveOrders.stepWithin_of_le (by omega), hstep]
      exact h.added hid halloc

theorem Refines.deleteOrderReporting (h : Refines n m b) (unknown : String → Outcome P)
    (id : String) :
    ∃ r b', b.deleteOrderReporting unknown id = .ok (r, b') ∧
      Refines n (m.stepWithin n (.deleteOrder id)) b' := by
  unfold OptimizedOrderBook.deleteOrderReporting
  by_cases hempty : id = ""
  · rw [if_pos hempty,
      ActiveOrders.stepWithin_of_eq (ActiveOrders.step_delete_idle (Or.inl hempty))]
    exact ⟨_, b, rfl, h⟩
  rw [if_neg hempty]
  cases hptr : b.orderLookup[id]? with
  | none =>
      rw [ActiveOrders.stepWithin_of_eq
        (ActiveOrders.step_delete_idle (Or.inr (h.lookup_none hptr)))]
      exact ⟨_, b, rfl, h⟩
  | some ptr =>
      obtain ⟨o, ho, hm, -⟩ := h.record hptr
      obtain ⟨pool, hpool, hfree⟩ := h.pool.deallocate_used (h.used id ptr hptr)
      have hstep := ActiveOrders.step_delete (m := m) hempty
      have hsize := size_erase_old (mem_iff_getElem?.mpr ⟨o, hm⟩)
      have hadd := h.size_add
      rw [ActiveOrders.stepWithin_of_le (by rw [hstep]; omega), hstep]
      refine ⟨.silent, _, ?_, h.removed hptr ho hfree⟩
      simp only [ObjectPool.deref_ok ho, hpool, h.level_mem hptr ho, bind, Except.bind, if_true]
      rfl

theorem Refines.hw5_step (h : Refines n m b) (op : Op P) :
    ∃ b', Hw5.step op b = .ok b' ∧ Refines n (m.stepWithin n op) b' := by
  cases op with
  | addOrder id price quantity isBuy =>
      exact ⟨_, rfl, h.addOrderReporting _ id price quantity isBuy⟩
  | modifyOrder id newPrice newQuantity =>
      obtain ⟨r, _, b', hb', -, -, -, -, h'⟩ := h.modifyOrder id newPrice newQuantity
      exact ⟨b', by rw [Hw5.step, Hw5.call, hb']; rfl, h'⟩
  | deleteOrder id =>
      obtain ⟨r, b', hb', h'⟩ := h.deleteOrderReporting _ id
      exact ⟨b', by rw [Hw5.step, Hw5.call, Hw5.deleteOrder, hb']; rfl, h'⟩

theorem Refines.phase5_step (h : Refines n m b) (op : Op P) :
    ∃ b', Phase5.step op b = .ok b' ∧ Refines n (m.stepWithin n op) b' := by
  cases op with
  | addOrder id price quantity isBuy =>
      exact ⟨_, rfl, h.addOrderReporting _ id price quantity isBuy⟩
  | modifyOrder id newPrice newQuantity =>
      obtain ⟨_, r, b', -, hb', -, -, -, h'⟩ := h.modifyOrder id newPrice newQuantity
      exact ⟨b', by rw [Phase5.step, Phase5.call, hb']; rfl, h'⟩
  | deleteOrder id =>
      obtain ⟨r, b', hb', h'⟩ := h.deleteOrderReporting _ id
      exact ⟨b', by rw [Phase5.step, Phase5.call, Phase5.deleteOrder, hb']; rfl, h'⟩

end OptimizedOrderBook

end HftProject.Week5
