import HftProject.Phase4.Inversion

/-!
The states that `OrderManager` keeps. An order leaves the manager when it is cancelled or
filled, its state stays. The two maps are in step, and a state that is final changes only with
a new order, exactly as long as no id is used again (`states_follow_orders_iff`): `addOrder`
does not overwrite the state that an id has.
-/

namespace HftProject.Phase4

open Run

variable {P I : Type} [LinearOrder P] [LinearOrder I] {L : Layout}

/-! ### What a call does to the manager -/

namespace System

variable {s t : System P I}

omit [LinearOrder P] in
theorem release_manager {q : OrderPtr} (h : release L q s = .ok t) : t.manager = s.manager := by
  rcases release_inv h with rfl | ⟨pool, pool', -, -, rfl⟩
  · rfl
  · rfl

omit [LinearOrder P] in
theorem reset_manager {q : Option OrderPtr} (h : reset L q s = .ok t) : t.manager = s.manager := by
  rcases reset_inv h with rfl | ⟨q, hrel⟩
  · rfl
  · have hmanager := release_manager hrel
    exact hmanager

/-- The call is an `addOrder` of an order with this id, and returns true. -/
def Adds (L : Layout) (id : I) (op : Op P I) (s t : System P I) : Prop :=
  op.step L s = .ok t ∧ ∃ handle q o, op = .managerAddOrder handle ∧
    s.handles[handle]? = some q ∧ s.order? q = some o ∧ o.id = id ∧
      OrderManager.addOrder (some q) s = .ok (true, t)

/-- Everything a call can do to the containers of the manager. -/
inductive ManagerStep (L : Layout) (s t : System P I) : Op P I → Prop where
  | same {op : Op P I} : t.manager = s.manager → ManagerStep L s t op
  | added {op : Op P I} {id : I} {q : OrderPtr} : Adds L id op s t → id ∉ s.manager.orders →
      t.manager = { orders := s.manager.orders.insertIfNew id q
                    states := s.manager.states.insertIfNew id .new } → ManagerStep L s t op
  /-- `cancelOrder`, or a fill of all that is left. -/
  | left {op : Op P I} {id : I} {state : OrderState} : id ∈ s.manager.orders →
      state = .cancelled ∨ state = .filled →
        t.manager = { orders := s.manager.orders.erase id
                      states := s.manager.states.insert id state } → ManagerStep L s t op
  | partially {id : I} {n : Int} : id ∈ s.manager.orders →
      t.manager = { s.manager with states := s.manager.states.insert id .partiallyFilled } →
        ManagerStep L s t (.updateOrderFill id n)

theorem managerStep_addOrder {handle : Nat} (h : (Op.managerAddOrder handle).step L s = .ok t) :
    ManagerStep L s t (.managerAddOrder handle) := by
  obtain ⟨⟨added, t'⟩, hadd, rfl⟩ := except_map_inv h
  rcases track_inv hadd with ⟨-, rfl⟩ | ⟨rfl, q, o, hq, ho, hnew, rfl⟩
  · exact .same rfl
  · rw [hq] at hadd
    exact .added ⟨h, handle, q, o, rfl, hq, ho, rfl, hadd⟩ hnew rfl

theorem managerStep_cancelOrder {id : I}
    (h : (·.2) <$> OrderManager.cancelOrder L id s = .ok t) :
    ManagerStep L s t (.cancelOrder id) := by
  obtain ⟨⟨done, t'⟩, hcancel, rfl⟩ := except_map_inv h
  rcases cancelOrder_inv hcancel with rfl | ⟨q, hq, hrel⟩
  · exact .same rfl
  · exact .left (mem_of_getElem? hq) (.inl rfl) (release_manager hrel)

theorem managerStep_updateOrderFill {id : I} {n : Int}
    (h : (·.2) <$> OrderManager.updateOrderFill L id n s = .ok t) :
    ManagerStep L s t (.updateOrderFill id n) := by
  obtain ⟨⟨done, t'⟩, hfill, rfl⟩ := except_map_inv h
  rcases updateOrderFill_inv hfill with rfl | ⟨q, hq, hrel | rfl⟩
  · exact .same rfl
  · exact .left (mem_of_getElem? hq) (.inr rfl) (release_manager hrel)
  · exact .partially (mem_of_getElem? hq) rfl

/-- The calls of the book leave the manager alone. -/
theorem Ok.managerStep (hs : s.Ok L) {op : Op P I} (h : op.step L s = .ok t) :
    ManagerStep L s t op := by
  cases op with
  | addOrder id symbol price quantity isBuy =>
      obtain ⟨⟨r, t'⟩, hadd, rfl⟩ := except_map_inv h
      rw [OrderBook.addOrder] at hadd
      split at hadd
      · cases hadd
        exact .same rfl
      · split at hadd
        · cases hadd
          exact .same rfl
        · cases hadd
        · obtain ⟨pool, -, hret⟩ := except_bind_inv hadd
          cases hret
          exact .same rfl
  | deleteOrder id =>
      obtain ⟨⟨r, t'⟩, hdelete, rfl⟩ := except_map_inv h
      rcases deleteOrder_inv hdelete with rfl | ⟨q, book, -, hrel⟩
      · exact .same rfl
      · have hmanager := release_manager hrel
        exact .same hmanager
  | updateQuantity id n =>
      obtain ⟨⟨r, t'⟩, hupdate, rfl⟩ := except_map_inv h
      rw [OrderBook.updateQuantity] at hupdate
      split at hupdate
      · cases hupdate
        exact .same rfl
      · split at hupdate
        · cases hupdate
          exact .same rfl
        · obtain ⟨pool, -, hret⟩ := except_bind_inv hupdate
          cases hret
          exact .same rfl
  | getOrderById id =>
      cases h
      rw [OrderBook.getOrderById]
      split <;> exact .same rfl
  | matchOrders =>
      obtain ⟨t', hmatch, hrun⟩ := hs.matchOrders
      obtain rfl := Except.ok.inj (hmatch.symm.trans h)
      exact .same hrun.rest.manager
  | managerAddOrder handle => exact managerStep_addOrder h
  | managerGetOrder id =>
      cases h
      rw [OrderManager.getOrder]
      split <;> exact .same rfl
  | cancelOrder id => exact managerStep_cancelOrder h
  | updateOrderFill id n => exact managerStep_updateOrderFill h
  | reset handle => exact .same (reset_manager h)

/-! ### The states -/

/-- An id is tracked exactly if its state is `New` or `PartiallyFilled`. -/
def StatesFollow (s : System P I) : Prop :=
  ∀ id : I, id ∈ s.manager.orders ↔
    OrderManager.getState id s.manager = .new ∨
      OrderManager.getState id s.manager = .partiallyFilled

/-- An added order is `New`, and a final state changes only by adding an order. -/
def KeepsStates (L : Layout) (op : Op P I) (s : System P I) : Prop :=
  ∀ t, op.step L s = .ok t →
    (∀ id, Adds L id op s t → OrderManager.getState id t.manager = .new) ∧
    ∀ id, (OrderManager.getState id s.manager = .filled ∨
        OrderManager.getState id s.manager = .cancelled) →
      OrderManager.getState id t.manager ≠ OrderManager.getState id s.manager → Adds L id op s t

/-- If the call hands the manager an order with an id that it does not track, then the id never
had a state. -/
def IdUnused (op : Op P I) (s : System P I) : Prop :=
  ∀ handle q o, op = .managerAddOrder handle → s.handles[handle]? = some q →
    s.order? q = some o → o.id ∉ s.manager.orders → o.id ∉ s.manager.states

theorem IdUnused.of_adds {op : Op P I} {id : I} (h : IdUnused op s) (hadds : Adds L id op s t)
    (hnew : id ∉ s.manager.orders) : id ∉ s.manager.states := by
  obtain ⟨-, handle, q, o, hop, hq, ho, rfl, -⟩ := hadds
  exact h handle q o hop hq ho hnew

/-- `addOrder` takes over an order with an id that is not tracked. -/
theorem adds_of_new {handle : Nat} {q : OrderPtr} {o : Order P I} (hq : s.handles[handle]? = some q)
    (ho : s.order? q = some o) (hnew : o.id ∉ s.manager.orders) :
    ∃ t, Adds L o.id (.managerAddOrder handle) s t := by
  have hadd := (track_eq ho).trans (if_neg hnew)
  refine ⟨_, ?_, handle, q, o, rfl, hq, ho, rfl, hadd⟩
  rw [Op.step, hq, hadd]
  rfl

theorem Adds.manager {id : I} {op : Op P I} (h : Adds L id op s t) :
    id ∉ s.manager.orders ∧ ∃ q, t.manager =
      { orders := s.manager.orders.insertIfNew id q
        states := s.manager.states.insertIfNew id .new } := by
  obtain ⟨-, handle, q, o, -, -, ho, rfl, hadd⟩ := h
  rcases track_inv hadd with ⟨hfalse, -⟩ | ⟨-, q', o', heq, ho', hnew, rfl⟩
  · cases hfalse
  · obtain rfl := Option.some.inj heq
    obtain rfl := Option.some.inj (ho.symm.trans ho')
    exact ⟨hnew, q, rfl⟩

omit [LinearOrder P] in
theorem getState_insert {orders : Std.ExtTreeMap I OrderPtr}
    {states : Std.ExtTreeMap I OrderState} {id : I} {state : OrderState} (id' : I) :
    OrderManager.getState id' ⟨orders, states.insert id state⟩ =
      if id = id' then state else OrderManager.getState id' ⟨orders, states⟩ := by
  rw [OrderManager.getState, getElem?_insert_eq]
  split <;> rfl

omit [LinearOrder P] in
theorem getState_insertIfNew {orders : Std.ExtTreeMap I OrderPtr}
    {states : Std.ExtTreeMap I OrderState} {id : I} {state : OrderState} (h : id ∉ states)
    (id' : I) : OrderManager.getState id' ⟨orders, states.insertIfNew id state⟩ =
      if id = id' then state else OrderManager.getState id' ⟨orders, states⟩ := by
  rw [OrderManager.getState, getElem?_insertIfNew_new h]
  split <;> rfl

/-- A call that uses no id again keeps the states in step with the orders. -/
theorem StatesFollow.step (h : s.StatesFollow) (hs : s.Ok L) {op : Op P I}
    (hstep : op.step L s = .ok t) (hunused : IdUnused op s) : t.StatesFollow := by
  intro id'
  cases hs.managerStep hstep with
  | same hmanager =>
      rw [hmanager]
      exact h id'
  | @added _ id q hadds hnew hmanager =>
      rw [hmanager, getState_insertIfNew (hunused.of_adds hadds hnew),
        Std.ExtTreeMap.mem_iff_isSome_getElem?, getElem?_insertIfNew_new hnew]
      split
      · simp
      · rw [← Std.ExtTreeMap.mem_iff_isSome_getElem?]
        exact h id'
  | @left _ id state hid hstate hmanager =>
      rw [hmanager, getState_insert, Std.ExtTreeMap.mem_iff_isSome_getElem?, getElem?_erase_eq]
      split
      · rcases hstate with rfl | rfl <;> simp
      · rw [← Std.ExtTreeMap.mem_iff_isSome_getElem?]
        exact h id'
  | @partially id n hid hmanager =>
      rw [hmanager, getState_insert]
      split
      · rename_i heq
        simpa [← heq] using hid
      · exact h id'

/-- In such a state a call keeps to the rules exactly if it uses no id again. -/
theorem StatesFollow.keeps_iff (h : s.StatesFollow) (hs : s.Ok L) (op : Op P I) :
    KeepsStates L op s ↔ IdUnused op s := by
  constructor
  · rintro hkeeps handle q o rfl hq ho hnew hmem
    obtain ⟨t, hadds⟩ := adds_of_new (L := L) hq ho hnew
    obtain ⟨-, q', hmanager⟩ := hadds.manager
    have hadded := (hkeeps t hadds.1).1 o.id hadds
    -- The state that the id has from before stays, and it is not `New`.
    have hstate : OrderManager.getState o.id t.manager = OrderManager.getState o.id s.manager := by
      rw [hmanager, OrderManager.getState, Std.ExtTreeMap.getElem?_insertIfNew]
      simp [hmem, OrderManager.getState]
    exact hnew ((h o.id).mpr (.inl (hstate.symm.trans hadded)))
  · intro hunused t hstep
    constructor
    · intro id hadds
      obtain ⟨hnew, q, hmanager⟩ := hadds.manager
      rw [hmanager, getState_insertIfNew (hunused.of_adds hadds hnew), if_pos rfl]
    · intro id' hfinal hchanged
      -- An id in a final state is not tracked.
      have hnot : id' ∉ s.manager.orders := by
        rw [h id']
        rcases hfinal with hfilled | hcancelled
        · simp [hfilled]
        · simp [hcancelled]
      cases hs.managerStep hstep with
      | same hmanager => exact absurd (by rw [hmanager]) hchanged
      | @added _ id q hadds hnew hmanager =>
          rw [hmanager, getState_insertIfNew (hunused.of_adds hadds hnew)] at hchanged
          split at hchanged
          · rename_i heq
            exact heq ▸ hadds
          · exact absurd rfl hchanged
      | @left _ id state hid hstate hmanager =>
          rw [hmanager, getState_insert, if_neg (ne_of_mem_of_not_mem hid hnot)] at hchanged
          exact absurd rfl hchanged
      | @partially id n hid hmanager =>
          rw [hmanager, getState_insert, if_neg (ne_of_mem_of_not_mem hid hnot)] at hchanged
          exact absurd rfl hchanged

omit [LinearOrder P] in
theorem statesFollow_of_empty (h : s.manager = ⟨∅, ∅⟩) : s.StatesFollow := by
  intro id
  rw [h]
  simp [OrderManager.getState]

end System

/-- **When the states follow the orders.** Along a run from a state whose manager is empty, the
ids that are tracked are those whose state is `New` or `PartiallyFilled`, an added order is
`New`, and a final state changes only with a new order, exactly if no id that has had a state is
added again. -/
theorem states_follow_orders_iff (s : BookState L P I) (hempty : s.1.manager = ⟨∅, ∅⟩)
    (ops : List (Op P I)) :
    (Always (Op.step L) ops s.1 System.StatesFollow ∧
      Steps (Op.step L) ops s.1 (System.KeepsStates L)) ↔
        Steps (Op.step L) ops s.1 System.IdUnused := by
  have hstart : s.1.Ok L ∧ s.1.StatesFollow := ⟨s.2, System.statesFollow_of_empty hempty⟩
  have hkept : ∀ (op : Op P I) (t t' : System P I), (t.Ok L ∧ t.StatesFollow) →
      System.IdUnused op t → Op.step L op t = .ok t' → (t'.Ok L ∧ t'.StatesFollow) := by
    rintro op t t' ⟨hok, hfollow⟩ hunused hstep
    obtain ⟨t'', hstep', hdone⟩ := hok.step op
    obtain rfl := Except.ok.inj (hstep'.symm.trans hstep)
    exact ⟨hdone.stays.ok, hfollow.step hok hstep hunused⟩
  have hsame : Steps (Op.step L) ops s.1 System.IdUnused ↔
      Steps (Op.step L) ops s.1 (System.KeepsStates L) :=
    steps_congr (fun op t ht => (ht.2.keeps_iff ht.1 op).symm) hkept hstart
  constructor
  · rintro ⟨-, hkeeps⟩
    exact hsame.mpr hkeeps
  · intro hunused
    have hfollow := always_of_steps hkept hstart hunused
    exact ⟨hfollow.mono fun t ht => ht.2, hsame.mp hunused⟩

/-- An order that is tracked, filled in part and then cancelled. -/
theorem states_follow_orders_iff_sample :
    (Always (Op.step .lp64) [.addOrder 1 "A" 100 10 true, .managerAddOrder 0, .updateOrderFill 1 4,
          .cancelOrder 1]
        (BookState.fresh (P := Int) (I := Int) (show Layout.lp64.sizeofOrder ≤ 56 by decide)
          (show 0 < 4 by decide)).1 System.StatesFollow ∧
      Steps (Op.step .lp64) [.addOrder 1 "A" 100 10 true, .managerAddOrder 0, .updateOrderFill 1 4,
          .cancelOrder 1]
        (BookState.fresh (P := Int) (I := Int) (show Layout.lp64.sizeofOrder ≤ 56 by decide)
          (show 0 < 4 by decide)).1 (System.KeepsStates .lp64)) ↔
      Steps (Op.step .lp64) [.addOrder 1 "A" 100 10 true, .managerAddOrder 0, .updateOrderFill 1 4,
          .cancelOrder 1]
        (BookState.fresh (P := Int) (I := Int) (show Layout.lp64.sizeofOrder ≤ 56 by decide)
          (show 0 < 4 by decide)).1 System.IdUnused :=
  states_follow_orders_iff _ (by rfl) _

/-- An order is added, cancelled and added again: `addOrder` returns true, the order is tracked,
and its state is still `Cancelled`. -/
theorem added_again_cancelled : ∃ s t u : System Int Int,
    OrderBook.fresh .lp64 56 4 = .ok s ∧
      run (Op.step .lp64) [.addOrder 1 "A" 100 10 true, .managerAddOrder 0, .cancelOrder 1] s =
        .ok t ∧
      System.Adds .lp64 1 (.managerAddOrder 0) t u ∧ 1 ∈ u.manager.orders ∧
        OrderManager.getState 1 u.manager = .cancelled := by
  refine ⟨_, _, _, rfl, rfl, ⟨rfl, 0, _, _, rfl, rfl, rfl, rfl, rfl⟩, ?_, ?_⟩
  · decide +kernel
  · decide +kernel

end HftProject.Phase4
