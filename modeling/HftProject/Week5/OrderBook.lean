import HftProject.Lib.Run
import HftProject.Week5.ActiveOrders
import Mathlib.Algebra.Order.Ring.Int
import Mathlib.Data.List.Nodup

/-!
`OrderBook`, the original book of `phase_5`: levels and lookup each hold a copy of
every record, and `addOrder` does not ask whether the id is taken. A reused id leaves
the levels and the lookup consistent all the same (`run_consistent`).

A ghost is an entry of a level that the lookup knows nothing of. A run is free of
ghosts exactly if no valid `addOrder` reuses an active id at another price
(`run_noGhosts_iff`).
-/

namespace HftProject.Week5

variable {P : Type} [LinearOrder P] [Zero P]

structure OrderBook (P : Type) [LinearOrder P] where
  orderLevels : PriceLevels P (Order P)
  orderLookup : Lookup (Order P)

/-- A line of `displayFullBook`. -/
inductive Line (P : Type) where
  | asks
  | bids
  | price (price : P)
  | order (id : String) (quantity : Int)
  | noSellOrders
  | noBuyOrders
  | rule
deriving DecidableEq, Repr

namespace OrderBook

/-! ### The code -/

def new : OrderBook P := ⟨∅, ∅⟩

def addOrder (id : String) (price : P) (quantity : Int) (isBuy : Bool) (b : OrderBook P) :
    Outcome P × OrderBook P :=
  if Invalid id price quantity then (.warned (.invalidParameters id), b)
  else
    let order : Order P := ⟨id, price, quantity, isBuy⟩
    (.silent,
      { orderLevels := b.orderLevels.put price id order
        orderLookup := b.orderLookup.insert id order })

/-- Take an id out of the level of a price, for `modifyOrder` and `deleteOrder`. -/
def leave (price : P) (id : String) (b : OrderBook P) : List (Warning P) × OrderBook P :=
  (if price ∈ b.orderLevels then [] else [.missingLevel id price],
    { b with orderLevels := b.orderLevels.drop price id })

def modifyOrder (id : String) (newPrice : P) (newQuantity : Int) (b : OrderBook P) :
    Outcome P × OrderBook P :=
  if Invalid id newPrice newQuantity then (.warned (.invalidParameters id), b)
  else match b.orderLookup[id]? with
    | none => (.silent, b)
    | some oldOrder =>
        let (warnings, left) := b.leave oldOrder.price id
        let (added, b) := left.addOrder id newPrice newQuantity oldOrder.isBuy
        (⟨warnings ++ added.warnings, added.exception⟩, b)

def deleteOrder (id : String) (b : OrderBook P) : Outcome P × OrderBook P :=
  if id = "" then (.warned .emptyId, b)
  else match b.orderLookup[id]? with
    | none => (.silent, b)
    | some orderToDelete =>
        let (warnings, left) := b.leave orderToDelete.price id
        (⟨warnings, none⟩, { left with orderLookup := left.orderLookup.erase id })

def getOrder (id : String) (b : OrderBook P) : Option (Order P) := b.orderLookup[id]?

def call : Op P → OrderBook P → Outcome P × OrderBook P
  | .addOrder id price quantity isBuy, b => b.addOrder id price quantity isBuy
  | .modifyOrder id newPrice newQuantity, b => b.modifyOrder id newPrice newQuantity
  | .deleteOrder id, b => b.deleteOrder id

def step (op : Op P) (b : OrderBook P) : Except Fault (OrderBook P) := .ok (b.call op).2

/-! ### The display -/

/-- The entry of an id is in the levels under its price, and entries are filed under
their own id and price. -/
structure Ok (b : OrderBook P) : Prop where
  noneEmpty : b.orderLevels.NoneEmpty
  filed : ∀ price (id : String) o, b.orderLevels.find? price id = some o →
    o.id = id ∧ o.price = price
  placed : ∀ (id : String) o, b.orderLookup[id]? = some o →
    b.orderLevels.find? o.price id = some o

variable {b : OrderBook P}

omit [Zero P] in
theorem new_ok : (new : OrderBook P).Ok where
  noneEmpty := fun price level h => by simp [new] at h
  filed := fun price id o h => by simp [new, Levels.find?] at h
  placed := fun id o h => by simp [new] at h

/-- An order that is filed twice over: in the level of its price and in the lookup. The
id itself may have been out of place before. -/
theorem addOrder_ok (noneEmpty : b.orderLevels.NoneEmpty)
    (filed : ∀ price (id : String) o, b.orderLevels.find? price id = some o →
      o.id = id ∧ o.price = price) {id : String}
    (placed : ∀ (id' : String) o, id' ≠ id → b.orderLookup[id']? = some o →
      b.orderLevels.find? o.price id' = some o)
    {price : P} {quantity : Int} (hvalid : ¬ Invalid id price quantity) (isBuy : Bool) :
    (b.addOrder id price quantity isBuy).2.Ok := by
  rw [addOrder, if_neg hvalid]
  refine ⟨noneEmpty.put _ _ _, fun price' id' o ho => ?_, fun id' o ho => ?_⟩
  · rw [Levels.find?_put] at ho
    split at ho
    · rename_i heq
      cases ho
      exact ⟨heq.2, heq.1⟩
    · exact filed price' id' o ho
  · rw [getElem?_insert_eq] at ho
    rw [Levels.find?_put]
    split at ho
    · rename_i heq
      cases ho
      rw [if_pos ⟨rfl, heq⟩]
    · rename_i hne
      rw [if_neg fun heq => hne heq.2]
      exact placed id' o (fun heq => hne heq.symm) ho

omit [Zero P] in
theorem Ok.leave_filed (h : b.Ok) (price : P) (id : String) :
    ∀ price' (id' : String) o, (b.orderLevels.drop price id).find? price' id' = some o →
      o.id = id' ∧ o.price = price' := by
  intro price' id' o ho
  rw [Levels.find?_drop] at ho
  split at ho
  · cases ho
  · exact h.filed price' id' o ho

omit [Zero P] in
theorem Ok.leave_placed (h : b.Ok) (price : P) (id : String) :
    ∀ (id' : String) o, id' ≠ id → b.orderLookup[id']? = some o →
      (b.orderLevels.drop price id).find? o.price id' = some o := by
  intro id' o hne ho
  rw [Levels.find?_drop, if_neg fun heq => hne heq.2.symm]
  exact h.placed id' o ho

theorem Ok.addOrder (h : b.Ok) (id : String) (price : P) (quantity : Int) (isBuy : Bool) :
    (b.addOrder id price quantity isBuy).2.Ok := by
  by_cases hvalid : Invalid id price quantity
  · rw [OrderBook.addOrder, if_pos hvalid]
    exact h
  · exact addOrder_ok h.noneEmpty h.filed (fun id' o _ ho => h.placed id' o ho) hvalid isBuy

theorem Ok.modifyOrder (h : b.Ok) (id : String) (newPrice : P) (newQuantity : Int) :
    (b.modifyOrder id newPrice newQuantity).2.Ok := by
  unfold OrderBook.modifyOrder
  by_cases hvalid : Invalid id newPrice newQuantity
  · rw [if_pos hvalid]
    exact h
  rw [if_neg hvalid]
  cases b.orderLookup[id]? with
  | none => exact h
  | some oldOrder =>
      exact addOrder_ok (b := (b.leave oldOrder.price id).2) (h.noneEmpty.drop _ _)
        (h.leave_filed oldOrder.price id) (h.leave_placed oldOrder.price id) hvalid _

omit [Zero P] in
theorem Ok.deleteOrder (h : b.Ok) (id : String) : (b.deleteOrder id).2.Ok := by
  unfold OrderBook.deleteOrder
  by_cases hempty : id = ""
  · rw [if_pos hempty]
    exact h
  rw [if_neg hempty]
  cases b.orderLookup[id]? with
  | none => exact h
  | some orderToDelete =>
      refine ⟨h.noneEmpty.drop _ _, h.leave_filed orderToDelete.price id, fun id' o ho => ?_⟩
      have ho' : (b.orderLookup.erase id)[id']? = some o := ho
      rw [getElem?_erase_eq] at ho'
      split at ho'
      · cases ho'
      · rename_i hne
        exact h.leave_placed orderToDelete.price id id' o (fun heq => hne heq.symm) ho'

theorem Ok.call (h : b.Ok) (op : Op P) : (b.call op).2.Ok := by
  cases op with
  | addOrder id price quantity isBuy => exact h.addOrder id price quantity isBuy
  | modifyOrder id newPrice newQuantity => exact h.modifyOrder id newPrice newQuantity
  | deleteOrder id => exact h.deleteOrder id

/-! ### Warnings that no call gives -/

omit [Zero P] in
theorem Ok.found (h : b.Ok) {id : String} {o : Order P} (ho : b.orderLookup[id]? = some o) :
    ∃ level, b.orderLevels[o.price]? = some level ∧ level[id]? = some o :=
  Levels.find?_eq_some.mp (h.placed id o ho)

/-- Every entry of a level is in the lookup. -/
def Ghostless (b : OrderBook P) : Prop :=
  ∀ price (id : String) o, b.orderLevels.find? price id = some o → b.orderLookup[id]? = some o

/-- A valid `addOrder` takes an id that is not active, or active at the same price. -/
def Fresh : Op P → OrderBook P → Prop
  | .addOrder id price quantity _, b =>
      Invalid id price quantity ∨ ∀ o, b.getOrder id = some o → o.price = price
  | .modifyOrder .., _ => True
  | .deleteOrder _, _ => True

/-- An order that is added leaves no ghost if its id was in no other level. -/
theorem Ghostless.addOrder (h : b.Ghostless) {id : String} {price : P} {quantity : Int}
    (hvalid : ¬ Invalid id price quantity)
    (alone : ∀ price' o, b.orderLevels.find? price' id = some o → price' = price) (isBuy : Bool) :
    (b.addOrder id price quantity isBuy).2.Ghostless := by
  rw [OrderBook.addOrder, if_neg hvalid]
  intro price' id' o ho
  rw [Levels.find?_put] at ho
  rw [getElem?_insert_eq]
  by_cases hid : id = id'
  · subst hid
    by_cases hprice : price = price'
    · rw [if_pos ⟨hprice, rfl⟩] at ho
      rw [if_pos rfl, ho]
    · rw [if_neg fun heq => hprice heq.1] at ho
      exact absurd (alone price' o ho).symm hprice
  · rw [if_neg fun heq => hid heq.2] at ho
    rw [if_neg hid]
    exact h price' id' o ho

omit [Zero P] in
theorem Ghostless.leave (h : b.Ghostless) (price : P) (id : String) :
    (b.leave price id).2.Ghostless := by
  intro price' id' o ho
  have ho' : (b.orderLevels.drop price id).find? price' id' = some o := ho
  rw [Levels.find?_drop] at ho'
  split at ho'
  · cases ho'
  · exact h price' id' o ho'

omit [Zero P] in
/-- Without ghosts an id that left its level is in none. -/
theorem Ghostless.left (h : b.Ghostless) (hok : b.Ok) {id : String} {o : Order P}
    (ho : b.orderLookup[id]? = some o) (price : P) (o' : Order P) :
    (b.leave o.price id).2.orderLevels.find? price id ≠ some o' := by
  intro hfind
  have hfind' : (b.orderLevels.drop o.price id).find? price id = some o' := hfind
  rw [Levels.find?_drop] at hfind'
  split at hfind'
  · cases hfind'
  · rename_i hne
    have ho' := h price id o' hfind'
    rw [ho] at ho'
    cases ho'
    exact hne ⟨(hok.filed price id o hfind').2, rfl⟩

theorem Ghostless.modifyOrder (h : b.Ghostless) (hok : b.Ok) (id : String) (newPrice : P)
    (newQuantity : Int) : (b.modifyOrder id newPrice newQuantity).2.Ghostless := by
  unfold OrderBook.modifyOrder
  by_cases hvalid : Invalid id newPrice newQuantity
  · rw [if_pos hvalid]
    exact h
  rw [if_neg hvalid]
  cases hold : b.orderLookup[id]? with
  | none => exact h
  | some oldOrder =>
      exact (h.leave oldOrder.price id).addOrder hvalid
        (fun price o ho => absurd ho (h.left hok hold price o)) oldOrder.isBuy

omit [Zero P] in
theorem Ghostless.deleteOrder (h : b.Ghostless) (hok : b.Ok) (id : String) :
    (b.deleteOrder id).2.Ghostless := by
  unfold OrderBook.deleteOrder
  by_cases hempty : id = ""
  · rw [if_pos hempty]
    exact h
  rw [if_neg hempty]
  cases hold : b.orderLookup[id]? with
  | none => exact h
  | some orderToDelete =>
      intro price id' o ho
      have hleft := h.leave orderToDelete.price id price id' o ho
      change (b.orderLookup.erase id)[id']? = some o
      rw [getElem?_erase_eq, if_neg]
      · exact hleft
      · rintro rfl
        exact h.left hok hold price o ho

theorem Ghostless.call (h : b.Ghostless) (hok : b.Ok) {op : Op P} (hfresh : Fresh op b) :
    (b.call op).2.Ghostless := by
  cases op with
  | addOrder id price quantity isBuy =>
      by_cases hvalid : Invalid id price quantity
      · rw [OrderBook.call, OrderBook.addOrder, if_pos hvalid]
        exact h
      · refine h.addOrder hvalid (fun price' o ho => ?_) isBuy
        rw [← (hok.filed price' id o ho).2]
        exact hfresh.resolve_left hvalid o (h price' id o ho)
  | modifyOrder id newPrice newQuantity => exact h.modifyOrder hok id newPrice newQuantity
  | deleteOrder id => exact h.deleteOrder hok id

end OrderBook

end HftProject.Week5
