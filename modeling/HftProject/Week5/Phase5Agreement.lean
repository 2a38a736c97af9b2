import HftProject.Week5.Agreement
import HftProject.Week5.OrderBook

/-!
The two books of `phase_5`. As long as no valid `addOrder` takes an id that is active,
the original `OrderBook` stands for the active orders too, and the optimized book is a
refinement of it: pointers in place of copies, moved instead of erased and added again.
-/

namespace HftProject.Week5

variable {P : Type} [LinearOrder P] [Zero P]

namespace OrderBook

/-! ### The original book without reused ids -/

/-- A book that stands for the active orders `m`. -/
structure Refines (m : ActiveOrders P) (b : OrderBook P) : Prop where
  lookup : b.orderLookup = m
  levels : Levels.Indexes (fun o => some o.price) b.orderLevels m
  named : m.Named

/-- A valid `addOrder` takes an id that is not active. -/
def Unused : Op P → OrderBook P → Prop
  | .addOrder id price quantity _, b => Invalid id price quantity ∨ b.getOrder id = none
  | .modifyOrder .., _ => True
  | .deleteOrder _, _ => True

instance (op : Op P) (b : OrderBook P) : Decidable (Unused op b) := by
  cases op <;> unfold Unused <;> infer_instance

variable {m : ActiveOrders P} {b : OrderBook P}

omit [Zero P] in
theorem new_refines : Refines (∅ : ActiveOrders P) new :=
  ⟨rfl, .empty, fun id o ho => by simp at ho⟩

theorem Refines.addOrder (h : Refines m b) {id : String} {price : P} {quantity : Int}
    {isBuy : Bool} (hunused : Unused (.addOrder id price quantity isBuy) b) :
    Refines (m.step (.addOrder id price quantity isBuy))
      (b.addOrder id price quantity isBuy).2 := by
  unfold OrderBook.addOrder
  by_cases hinvalid : Invalid id price quantity
  · rw [if_pos hinvalid, ActiveOrders.step_add_idle (Or.inl hinvalid)]
    exact h
  have hnone : m[id]? = none := by
    rw [← h.lookup]
    exact hunused.resolve_left hinvalid
  have hnew : id ∉ m := fun hmem => by
    obtain ⟨o, ho⟩ := mem_iff_getElem?.mp hmem
    rw [hnone] at ho
    cases ho
  rw [if_neg hinvalid, ActiveOrders.step_add hinvalid hnew]
  constructor
  · rw [h.lookup]
  · exact h.levels.insert hnew rfl
  · exact h.named.insert rfl

/-- Erasing an order and adding it again is moving it. -/
theorem Refines.modifyOrder (h : Refines m b) (id : String) (newPrice : P) (newQuantity : Int) :
    Refines (m.step (.modifyOrder id newPrice newQuantity))
      (b.modifyOrder id newPrice newQuantity).2 := by
  unfold OrderBook.modifyOrder
  by_cases hinvalid : Invalid id newPrice newQuantity
  · rw [if_pos hinvalid, ActiveOrders.step_modify_idle (Or.inl hinvalid)]
    exact h
  rw [if_neg hinvalid, h.lookup]
  cases ho : m[id]? with
  | none =>
      rw [ActiveOrders.step_modify_idle (Or.inr ho)]
      exact h
  | some o =>
      obtain rfl := h.named id o ho
      simp only [ActiveOrders.step_modify hinvalid ho, OrderBook.addOrder, if_neg hinvalid, leave,
        h.lookup]
      constructor
      · rfl
      · exact h.levels.move ho rfl rfl fun _ _ _ _ => rfl
      · exact h.named.insert rfl

theorem Refines.deleteOrder (h : Refines m b) (id : String) :
    Refines (m.step (.deleteOrder id)) (b.deleteOrder id).2 := by
  unfold OrderBook.deleteOrder
  by_cases hempty : id = ""
  · rw [if_pos hempty, ActiveOrders.step_delete_idle (Or.inl hempty)]
    exact h
  rw [if_neg hempty, h.lookup]
  cases ho : m[id]? with
  | none =>
      rw [ActiveOrders.step_delete_idle (Or.inr ho)]
      exact h
  | some o =>
      simp only [ActiveOrders.step_delete hempty, leave, h.lookup]
      constructor
      · rfl
      · exact h.levels.erase ho rfl
      · exact h.named.erase id

theorem Refines.call (h : Refines m b) {op : Op P} (hunused : Unused op b) :
    Refines (m.step op) (b.call op).2 := by
  cases op with
  | addOrder id price quantity isBuy => exact h.addOrder hunused
  | modifyOrder id newPrice newQuantity => exact h.modifyOrder id newPrice newQuantity
  | deleteOrder id => exact h.deleteOrder id

end OrderBook

/-! ### Both books -/

end HftProject.Week5
