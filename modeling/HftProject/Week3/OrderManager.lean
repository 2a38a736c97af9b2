import HftProject.Lib.Levels
import Mathlib.Data.List.Basic

/-!
`OrderManager` of `phase_3`: the strategy's own orders by their ids. An order that is filled
or cancelled leaves the map, and the status it is given last goes with it.
-/

namespace HftProject.Week3

open Std

inductive OrderStatus where
  | new
  | filled
  | partiallyFilled
  | cancelled
deriving DecidableEq, Repr

inductive Side where
  | buy
  | sell
deriving DecidableEq, Repr

structure MyOrder (P : Type) where
  id : Int
  side : Side
  price : P
  quantity : Int
  filled : Int := 0
  status : OrderStatus := .new
deriving DecidableEq, Repr

/-- What the manager writes to the log about an order. -/
inductive OrderLine (P : Type) where
  /-- `Placed Order ID _` -/
  | placed (id : Int)
  /-- `Order ID _ successfully cancelled` -/
  | cancelled (id : Int)
  /-- `Order ID _ not cancelled: not found` -/
  | notCancelled (id : Int)
  /-- `Order ID _ fully filled` -/
  | fullyFilled (id : Int)
  /-- `Order ID _ partially filled` -/
  | partiallyFilled (id : Int)
  /-- `Order ID _ not found` -/
  | notFound (id : Int)
  /-- `Order _: Price=_, Quantity=_, Filled=_, Status=_` -/
  | active (id : Int) (price : P) (quantity filled : Int) (status : OrderStatus)
deriving DecidableEq, Repr

/-- `currId` is the counter of `place_order`. -/
structure OrderManager (P : Type) where
  orders : ExtTreeMap Int (MyOrder P)
  currId : Int

variable {P : Type}

namespace OrderManager

def new : OrderManager P := ⟨∅, 1⟩

/-- The order that `place_order` enters. -/
def placed (side : Side) (price : P) (quantity : Int) (m : OrderManager P) : MyOrder P where
  id := m.currId
  side := side
  price := price
  quantity := quantity

def placeOrder (side : Side) (price : P) (quantity : Int) (m : OrderManager P) :
    Int × OrderManager P × OrderLine P :=
  (m.currId, ⟨m.orders.insert m.currId (m.placed side price quantity), m.currId + 1⟩,
    .placed m.currId)

def cancel (id : Int) (m : OrderManager P) : OrderManager P × OrderLine P :=
  if id ∈ m.orders then ({ m with orders := m.orders.erase id }, .cancelled id)
  else (m, .notCancelled id)

def handleFill (id filledQuantity : Int) (m : OrderManager P) : OrderManager P × OrderLine P :=
  match m.orders[id]? with
  | some order =>
      let filled := order.filled + filledQuantity
      if filled ≥ order.quantity then ({ m with orders := m.orders.erase id }, .fullyFilled id)
      else
        ({ m with orders :=
            m.orders.insert id { order with filled := filled, status := .partiallyFilled } },
          .partiallyFilled id)
  | none => (m, .notFound id)

/-- The loop over `orders_to_cancel`. -/
def cancelAll : List Int → OrderManager P → OrderManager P × List (OrderLine P)
  | [], m => (m, [])
  | id :: ids, m =>
      let (m, line) := m.cancel id
      let (m, lines) := cancelAll ids m
      (m, line :: lines)

def printActiveOrders (m : OrderManager P) : List (OrderLine P) :=
  m.orders.toList.map fun entry =>
    .active entry.1 entry.2.price entry.2.quantity entry.2.filled entry.2.status

variable [DecidableEq P]

/-- The ids of the orders of the side at the price. -/
def ordersToCancel (side : Side) (price : P) (m : OrderManager P) : List Int :=
  (m.orders.toList.filter fun entry => entry.2.side = side ∧ entry.2.price = price).map (·.1)

def resolvedConflicts (side : Side) (price : P) (quantity : Int) (m : OrderManager P) :
    Bool × OrderManager P × List (OrderLine P) :=
  let ids := m.ordersToCancel side price
  let (m, lines) := m.cancelAll ids
  if ids.length > 0 ∧ quantity > 0 then
    let (_, m, line) := m.placeOrder side price quantity
    (decide (ids.length > 0), m, lines ++ [line])
  else (decide (ids.length > 0), m, lines)

end OrderManager

/-! ### What the operations leave -/

namespace OrderManager

/-- Ids are given out in order. -/
structure Numbered (m : OrderManager P) : Prop where
  fresh : ∀ i (o : MyOrder P), m.orders[i]? = some o → i < m.currId
  own : ∀ i (o : MyOrder P), m.orders[i]? = some o → o.id = i

theorem new_numbered : (new : OrderManager P).Numbered where
  fresh i o h := by simp [new] at h
  own i o h := by simp [new] at h

/-- An order of the manager after `place_order` is the new one or one from before. -/
theorem placeOrder_cases {side : Side} {price : P} {quantity : Int} {m : OrderManager P} {i : Int}
    {o : MyOrder P} (h : (m.placeOrder side price quantity).2.1.orders[i]? = some o) :
    (i = m.currId ∧ o = m.placed side price quantity) ∨
      (i ≠ m.currId ∧ m.orders[i]? = some o) := by
  change (m.orders.insert m.currId (m.placed side price quantity))[i]? = some o at h
  rw [getElem?_insert_eq] at h
  split at h
  · rename_i heq
    exact .inl ⟨heq.symm, (Option.some.inj h).symm⟩
  · rename_i hne
    exact .inr ⟨Ne.symm hne, h⟩

theorem Numbered.placeOrder {m : OrderManager P} (h : m.Numbered) (side : Side) (price : P)
    (quantity : Int) : (m.placeOrder side price quantity).2.1.Numbered := by
  have hnext : (m.placeOrder side price quantity).2.1.currId = m.currId + 1 := rfl
  constructor
  · intro i o ho
    rw [hnext]
    rcases placeOrder_cases ho with ⟨rfl, -⟩ | ⟨-, hold⟩
    · omega
    · have := h.fresh i o hold
      omega
  · intro i o ho
    rcases placeOrder_cases ho with ⟨rfl, rfl⟩ | ⟨-, hold⟩
    · rfl
    · exact h.own i o hold

theorem cancel_orders (id : Int) (m : OrderManager P) (i : Int) :
    (m.cancel id).1.orders[i]? = if id = i then none else m.orders[i]? := by
  rw [cancel]
  split
  · exact getElem?_erase_eq ..
  · rename_i hnot
    split
    · rename_i heq
      rw [← heq]
      exact ExtTreeMap.getElem?_eq_none hnot
    · rfl

theorem cancel_currId (id : Int) (m : OrderManager P) : (m.cancel id).1.currId = m.currId := by
  rw [cancel]
  split <;> rfl

theorem cancelAll_orders (ids : List Int) (m : OrderManager P) (i : Int) :
    (m.cancelAll ids).1.orders[i]? = if i ∈ ids then none else m.orders[i]? := by
  induction ids generalizing m with
  | nil => rfl
  | cons id ids ih =>
      rw [cancelAll, ih, cancel_orders]
      by_cases heq : id = i
      · subst heq
        rw [if_pos rfl, if_pos List.mem_cons_self]
        split <;> rfl
      · rw [if_neg heq]
        simp only [List.mem_cons, Ne.symm heq, false_or]

theorem cancelAll_currId (ids : List Int) (m : OrderManager P) :
    (m.cancelAll ids).1.currId = m.currId := by
  induction ids generalizing m with
  | nil => rfl
  | cons id ids ih => rw [cancelAll, ih, cancel_currId]

/-- What `handle_fill` does to an order. -/
theorem handleFill_cases {id filledQuantity : Int} {m : OrderManager P} {i : Int} {o : MyOrder P}
    (h : (m.handleFill id filledQuantity).1.orders[i]? = some o) :
    (i = id ∧ ∃ old, m.orders[id]? = some old ∧ old.filled + filledQuantity < old.quantity ∧
      o = { old with filled := old.filled + filledQuantity, status := .partiallyFilled }) ∨
    (i ≠ id ∧ m.orders[i]? = some o) := by
  rw [handleFill] at h
  split at h
  · rename_i old hold
    dsimp only at h
    split at h
    · rw [getElem?_erase_eq] at h
      split at h
      · cases h
      · rename_i hne
        exact .inr ⟨Ne.symm hne, h⟩
    · rename_i hless
      rw [getElem?_insert_eq] at h
      split at h
      · rename_i heq
        exact .inl ⟨heq.symm, old, hold, by omega, (Option.some.inj h).symm⟩
      · rename_i hne
        exact .inr ⟨Ne.symm hne, h⟩
  · rename_i hnone
    refine .inr ⟨?_, h⟩
    rintro rfl
    rw [hnone] at h
    cases h

theorem handleFill_missing {id quantity : Int} {m : OrderManager P} (h : m.orders[id]? = none) :
    (m.handleFill id quantity).1 = m := by
  rw [OrderManager.handleFill, h]

theorem handleFill_currId (id filledQuantity : Int) (m : OrderManager P) :
    (m.handleFill id filledQuantity).1.currId = m.currId := by
  rw [handleFill]
  split
  · dsimp only
    split <;> rfl
  · rfl

theorem Numbered.handleFill {m : OrderManager P} (h : m.Numbered) (id filledQuantity : Int) :
    (m.handleFill id filledQuantity).1.Numbered := by
  constructor
  · intro i o ho
    rw [handleFill_currId]
    rcases handleFill_cases ho with ⟨rfl, old, hold, -⟩ | ⟨-, hold⟩
    · exact h.fresh i old hold
    · exact h.fresh i o hold
  · intro i o ho
    rcases handleFill_cases ho with ⟨rfl, old, hold, -, rfl⟩ | ⟨-, hold⟩
    · exact h.own i old hold
    · exact h.own i o hold

variable [DecidableEq P]

/-- An order of the side rests at the price. -/
def Rests (side : Side) (price : P) (m : OrderManager P) : Prop :=
  ∃ (i : Int) (o : MyOrder P), m.orders[i]? = some o ∧ o.side = side ∧ o.price = price

theorem mem_ordersToCancel {side : Side} {price : P} {m : OrderManager P} {i : Int} :
    i ∈ m.ordersToCancel side price ↔
      ∃ o, m.orders[i]? = some o ∧ o.side = side ∧ o.price = price := by
  simp only [ordersToCancel, List.mem_map, List.mem_filter, decide_eq_true_eq, Prod.exists,
    ExtTreeMap.mem_toList_iff_getElem?_eq_some]
  constructor
  · rintro ⟨i, o, ⟨ho, hmatch⟩, rfl⟩
    exact ⟨o, ho, hmatch⟩
  · rintro ⟨o, ho, hmatch⟩
    exact ⟨i, o, ⟨ho, hmatch⟩, rfl⟩

/-- Without an order of the side at the price nothing happens. -/
theorem resolvedConflicts_none {side : Side} {price : P} {m : OrderManager P} (quantity : Int)
    (h : ¬ m.Rests side price) :
    m.resolvedConflicts side price quantity = (false, m, []) := by
  have hnil : m.ordersToCancel side price = [] := by
    rw [List.eq_nil_iff_forall_not_mem]
    intro i hi
    obtain ⟨o, ho⟩ := mem_ordersToCancel.mp hi
    exact h ⟨i, o, ho⟩
  rw [resolvedConflicts, hnil]
  rfl

/-- Without the orders of the side at the price. -/
def cleared (side : Side) (price : P) (m : OrderManager P) : OrderManager P :=
  (m.cancelAll (m.ordersToCancel side price)).1

/-- With such an order they are all cancelled, and a positive quantity is placed anew. -/
theorem resolvedConflicts_some {side : Side} {price : P} {m : OrderManager P} (quantity : Int)
    (h : m.Rests side price) :
    (m.resolvedConflicts side price quantity).1 = true ∧
      (m.resolvedConflicts side price quantity).2.1 =
        if 0 < quantity then ((m.cleared side price).placeOrder side price quantity).2.1
        else m.cleared side price := by
  obtain ⟨i, o, ho⟩ := h
  have hlength : 0 < (m.ordersToCancel side price).length :=
    List.length_pos_of_mem (mem_ordersToCancel.mpr ⟨o, ho⟩)
  rw [resolvedConflicts]
  by_cases hquantity : 0 < quantity
  · rw [if_pos hquantity]
    dsimp only
    rw [if_pos ⟨hlength, hquantity⟩]
    exact ⟨decide_eq_true hlength, rfl⟩
  · rw [if_neg hquantity]
    dsimp only
    rw [if_neg fun h => hquantity h.2]
    exact ⟨decide_eq_true hlength, rfl⟩

theorem cleared_orders {side : Side} {price : P} {m : OrderManager P} {i : Int} {o : MyOrder P} :
    (m.cleared side price).orders[i]? = some o ↔
      m.orders[i]? = some o ∧ ¬ (o.side = side ∧ o.price = price) := by
  rw [cleared, cancelAll_orders]
  split
  · rename_i hmem
    obtain ⟨o', ho', hmatch⟩ := mem_ordersToCancel.mp hmem
    constructor
    · intro h
      cases h
    · rintro ⟨ho, hnot⟩
      rw [ho', Option.some.injEq] at ho
      exact absurd (ho ▸ hmatch) hnot
  · rename_i hnot
    refine ⟨fun ho => ⟨ho, fun hmatch => hnot (mem_ordersToCancel.mpr ⟨o, ho, hmatch⟩)⟩, And.left⟩

theorem cleared_currId (side : Side) (price : P) (m : OrderManager P) :
    (m.cleared side price).currId = m.currId := cancelAll_currId ..

/-- An order after the orders at a price are replaced: the new one, or one from elsewhere. -/
theorem replaced_cases {side : Side} {price : P} {quantity : Int} {m : OrderManager P} {i : Int}
    {o : MyOrder P} (h : (if 0 < quantity then
      ((m.cleared side price).placeOrder side price quantity).2.1
      else m.cleared side price).orders[i]? = some o) :
    (0 < quantity ∧ i = m.currId ∧ o = m.placed side price quantity) ∨
      (m.orders[i]? = some o ∧ ¬ (o.side = side ∧ o.price = price)) := by
  split at h
  · rename_i hquantity
    rcases placeOrder_cases h with ⟨rfl, rfl⟩ | ⟨-, hold⟩
    · refine .inl ⟨hquantity, cleared_currId .., ?_⟩
      rw [placed, cleared_currId, placed]
    · exact .inr (cleared_orders.mp hold)
  · exact .inr (cleared_orders.mp h)

theorem Numbered.cleared {m : OrderManager P} (h : m.Numbered) (side : Side) (price : P) :
    (m.cleared side price).Numbered where
  fresh i o ho := by
    rw [cleared_currId]
    exact h.fresh i o (cleared_orders.mp ho).1
  own i o ho := h.own i o (cleared_orders.mp ho).1

end OrderManager

end HftProject.Week3
