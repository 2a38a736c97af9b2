import HftProject.Week3.Mirror
import Mathlib.Algebra.Order.Ring.Int

/-!
The life of an order of `phase_3`'s strategy: placed with a positive quantity, filled in parts
that never add up to more than it, `New` until the first part. It goes so exactly as long as the
feed places no empty level above the remembered prices and fills no order by an amount that is
not positive or more than is left (`lifecycle_iff`).
-/

namespace HftProject.Week3

open Std

variable {P : Type} [LinearOrder P]

/-- A run of the loop with its books: every record that has been in the manager, and every fill
that `handle_fill` has credited, as id and quantity. -/
structure Account (P : Type) [LinearOrder P] where
  strategy : Strategy P
  seen : List (MyOrder P)
  fills : List (Int × Int)

/-- The fill that an event credits. -/
def Strategy.fillOf (event : FeedEvent P) (s : Strategy P) : List (Int × Int) :=
  if event.type = .execution ∧ event.orderId ∈ s.orderManager.orders then
    [(event.orderId, event.quantity)]
  else []

namespace Account

def start (originalBid originalAsk : P) : Account P := ⟨.start originalBid originalAsk, [], []⟩

def step (event : FeedEvent P) (a : Account P) : Except Fault (Account P) := do
  let s ← a.strategy.step event
  return ⟨s, a.seen ++ s.orderManager.orders.toList.map (·.2), a.fills ++ a.strategy.fillOf event⟩

/-- The sum of the fills of an order. -/
def credited (id : Int) (a : Account P) : Int :=
  ((a.fills.filter fun fill => fill.1 = id).map (·.2)).sum

/-- What holds of the orders. -/
structure Sound (a : Account P) : Prop where
  positive : ∀ (i : Int) (o : MyOrder P), a.strategy.orderManager.orders[i]? = some o →
    0 < o.quantity ∧ 0 ≤ o.filled ∧ o.filled < o.quantity
  status : ∀ (i : Int) (o : MyOrder P), a.strategy.orderManager.orders[i]? = some o →
    (o.status = .new ↔ o.filled = 0) ∧ (o.status = .partiallyFilled ↔ 0 < o.filled)
  fills : ∀ o ∈ a.seen, a.credited o.id ≤ o.quantity

/-- A quote better than the remembered price has a positive quantity, and a fill of an order
brings it to an amount between one and its quantity. -/
def Fair (event : FeedEvent P) (a : Account P) : Prop :=
  match event.type with
  | .bid => a.strategy.prevBestBidPrice < event.price → 0 < event.quantity
  | .ask => event.price < a.strategy.prevBestAskPrice → 0 < event.quantity
  | .execution => ∀ o, a.strategy.orderManager.orders[event.orderId]? = some o →
      0 < o.filled + event.quantity ∧ o.filled + event.quantity ≤ o.quantity
  | .unknown => True

end Account

/-! ### Quotes -/

section Quote

variable {K : Type} [LinearOrder K] {toKey : P ≃ K} {side : Side}
  {original prev prev' price : P} {qty : Int} {levels : ExtTreeMap K (PriceLevel P)}
  {m m' : OrderManager P} {bookSide : BookSide}

omit [LinearOrder P] in
/-- A level that improves on the remembered price is the one of the quote. -/
theorem Mirrored.best_eq (h : Mirrored toKey side original prev levels m) {best : PriceLevel P}
    (hbest : bestLevel (updateLevel bookSide (toKey price) price qty levels).1 = some best)
    (hbetter : toKey best.price < toKey prev) : best.price = price ∧ best.quantity = qty := by
  obtain ⟨key, hlevel, -⟩ := bestLevel_eq_some.mp hbest
  obtain rfl := h.updated_priced key best hlevel
  rcases updateLevel_cases hlevel with ⟨hkey, hquantity, -⟩ | ⟨-, hold⟩
  · exact ⟨toKey.injective hkey, hquantity⟩
  · exact absurd (hbetter.trans_le (h.remembered _ _ hold)) (lt_irrefl _)

/-- The orders after a quote: those from before, and at most one new one, of the quote. -/
theorem Quoted.orders (h : Mirrored toKey side original prev levels m)
    (hquoted : Quoted toKey side price qty prev
      (updateLevel bookSide (toKey price) price qty levels).1 m prev' m') {i : Int}
    {o : MyOrder P} (ho : m'.orders[i]? = some o) :
    m.orders[i]? = some o ∨
      (i = m.currId ∧ o = m.placed side price qty ∧ (0 < qty ∨ toKey price < toKey prev)) := by
  cases hquoted with
  | replaced hrests =>
      rcases OrderManager.replaced_cases ho with ⟨hqty, hi, hnew⟩ | ⟨hold, -⟩
      · exact .inr ⟨hi, hnew, .inl hqty⟩
      · exact .inl hold
  | @improved best hrests hbest hbetter =>
      obtain ⟨hprice, hquantity⟩ := h.best_eq hbest hbetter
      rcases OrderManager.placeOrder_cases ho with ⟨rfl, rfl⟩ | ⟨-, hold⟩
      · rw [hprice, hquantity]
        exact .inr ⟨rfl, rfl, .inr (hprice ▸ hbetter)⟩
      · exact .inl hold
  | kept hrests hbest hworse => exact .inl ho

/-- The new one is as it should be if a better quote has a positive quantity. -/
theorem Quoted.orders_of_fair (h : Mirrored toKey side original prev levels m)
    (hquoted : Quoted toKey side price qty prev
      (updateLevel bookSide (toKey price) price qty levels).1 m prev' m')
    (hfair : toKey price < toKey prev → 0 < qty) {i : Int} {o : MyOrder P}
    (ho : m'.orders[i]? = some o) :
    m.orders[i]? = some o ∨
      (i = m.currId ∧ 0 < o.quantity ∧ o.filled = 0 ∧ o.status = .new) := by
  rcases hquoted.orders h ho with hbefore | ⟨rfl, rfl, hqty⟩
  · exact .inl hbefore
  · exact .inr ⟨rfl, hqty.elim id hfair, rfl, rfl⟩

theorem Quoted.numbered (hm : m.Numbered)
    (hquoted : Quoted toKey side price qty prev levels m prev' m') :
    m'.Numbered ∧ m.currId ≤ m'.currId := by
  cases hquoted with
  | replaced hrests =>
      have hcurr := OrderManager.cleared_currId side price m
      split
      · refine ⟨(hm.cleared side price).placeOrder side price qty, ?_⟩
        change m.currId ≤ (m.cleared side price).currId + 1
        omega
      · exact ⟨hm.cleared side price, hcurr.ge⟩
  | improved hrests hbest hbetter =>
      refine ⟨hm.placeOrder .., ?_⟩
      change m.currId ≤ m.currId + 1
      omega
  | kept hrests hbest hworse => exact ⟨hm, le_rfl⟩

omit [LinearOrder P] in
/-- A price better than the remembered one has no level. -/
theorem Mirrored.absent_of_better (h : Mirrored toKey side original prev levels m)
    (hbetter : toKey price < toKey prev) : levels[toKey price]? = none := by
  cases hlevel : levels[toKey price]? with
  | none => rfl
  | some level => exact absurd (hbetter.trans_le (h.remembered _ _ hlevel)) (lt_irrefl _)

/-- A better quote is placed as it is. -/
theorem Quoted.placed_of_better (h : Mirrored toKey side original prev levels m)
    (hquoted : Quoted toKey side price qty prev
      (updateLevel bookSide (toKey price) price qty levels).1 m prev' m')
    (hbetter : toKey price < toKey prev) :
    m'.orders[m.currId]? = some (m.placed side price qty) := by
  -- The price has no level yet, and its new level is the best.
  have hmem : toKey price ∈ (updateLevel bookSide (toKey price) price qty levels).1 := by
    rw [ExtTreeMap.mem_iff_isSome_getElem?, getElem?_updateLevel, if_pos rfl,
      h.absent_of_better hbetter]
    rfl
  cases hquoted with
  | replaced hrests =>
      obtain ⟨i, o, ho, hside, rfl⟩ := hrests
      exact absurd (hbetter.trans_le (h.above i o ho hside).2) (lt_irrefl _)
  | @improved best hrests hbest hbest' =>
      obtain ⟨hprice, hquantity⟩ := h.best_eq hbest hbest'
      rw [hprice, hquantity]
      exact (getElem?_insert_eq ..).trans (if_pos rfl)
  | @kept best hrests hbest hworse =>
      obtain ⟨key, hlevel, hleast⟩ := bestLevel_eq_some.mp hbest
      obtain rfl := h.updated_priced key best hlevel
      exact absurd (hbetter.trans_le (hworse.trans (hleast _ hmem))) (lt_irrefl _)

end Quote

/-! ### The books -/

namespace Account

variable {originalBid originalAsk : P} {a a' : Account P} {event : FeedEvent P}
  {s' : Strategy P}

/-- The books after an iteration that leaves the strategy in `s'`. -/
def record (s' : Strategy P) (fills : List (Int × Int)) (a : Account P) : Account P :=
  ⟨s', a.seen ++ s'.orderManager.orders.toList.map (·.2), a.fills ++ fills⟩

theorem step_ok (h : a.strategy.step event = .ok s') :
    a.step event = .ok (a.record s' (a.strategy.fillOf event)) := by
  rw [step, h]
  rfl

theorem step_ok_inv (h : a.step event = .ok a') :
    ∃ s', a.strategy.step event = .ok s' ∧ a' = a.record s' (a.strategy.fillOf event) := by
  cases hs : a.strategy.step event with
  | error fault =>
      rw [step, hs] at h
      cases h
  | ok s' =>
      rw [step_ok hs] at h
      exact ⟨s', rfl, (Except.ok.inj h).symm⟩

theorem mem_seen_record {fills : List (Int × Int)} {o : MyOrder P} :
    o ∈ (a.record s' fills).seen ↔
      o ∈ a.seen ∨ ∃ i : Int, s'.orderManager.orders[i]? = some o := by
  simp [record, ExtTreeMap.mem_toList_iff_getElem?_eq_some]

theorem credited_record_nil (id : Int) : (a.record s' []).credited id = a.credited id := by
  simp [credited, record]

theorem credited_record (id other quantity : Int) :
    (a.record s' [(other, quantity)]).credited id =
      a.credited id + if other = id then quantity else 0 := by
  by_cases h : other = id <;> simp [credited, record, h]

/-- What the books say about the orders. -/
structure Inv (originalBid originalAsk : P) (a : Account P) : Prop where
  mirrors : a.strategy.Mirrors originalBid originalAsk
  numbered : a.strategy.orderManager.Numbered
  filled : ∀ (i : Int) (o : MyOrder P), a.strategy.orderManager.orders[i]? = some o →
    o.filled = a.credited i
  active : ∀ (i : Int) (o : MyOrder P), a.strategy.orderManager.orders[i]? = some o → o ∈ a.seen
  /-- The quantity of an order never changes. -/
  seen : ∀ o ∈ a.seen, o.id < a.strategy.orderManager.currId ∧
    ∀ o', a.strategy.orderManager.orders[o.id]? = some o' → o'.quantity = o.quantity
  past : ∀ fill ∈ a.fills, fill.1 < a.strategy.orderManager.currId

theorem Inv.credited_fresh (h : Inv originalBid originalAsk a) :
    a.credited a.strategy.orderManager.currId = 0 := by
  have hnone : (a.fills.filter fun fill => fill.1 = a.strategy.orderManager.currId) = [] := by
    rw [List.filter_eq_nil_iff]
    intro fill hfill
    have := h.past fill hfill
    simp only [decide_eq_true_eq]
    omega
  rw [credited, hnone]
  rfl

theorem start_inv : Inv originalBid originalAsk (start originalBid originalAsk) where
  mirrors := Strategy.mirrors_start
  numbered := OrderManager.new_numbered
  filled i o h := by simp [start, Strategy.start, OrderManager.new] at h
  active i o h := by simp [start, Strategy.start, OrderManager.new] at h
  seen o h := by simp [start] at h
  past fill h := by simp [start] at h

theorem start_sound : (start originalBid originalAsk).Sound where
  positive i o h := by simp [start, Strategy.start, OrderManager.new] at h
  status i o h := by simp [start, Strategy.start, OrderManager.new] at h
  fills o h := by simp [start] at h

/-- An iteration that fills nothing: an order after it is one from before or a new one. -/
theorem Inv.quote (h : Inv originalBid originalAsk a) (hsound : a.Sound)
    (hmirrors : s'.Mirrors originalBid originalAsk) (hnumbered : s'.orderManager.Numbered)
    (hle : a.strategy.orderManager.currId ≤ s'.orderManager.currId)
    (horders : ∀ (i : Int) (o : MyOrder P), s'.orderManager.orders[i]? = some o →
      a.strategy.orderManager.orders[i]? = some o ∨
        (i = a.strategy.orderManager.currId ∧ 0 < o.quantity ∧ o.filled = 0 ∧ o.status = .new)) :
    Inv originalBid originalAsk (a.record s' []) ∧ (a.record s' []).Sound := by
  have hseen : ∀ o ∈ (a.record s' []).seen, o.id < s'.orderManager.currId ∧
      (∀ o', s'.orderManager.orders[o.id]? = some o' → o'.quantity = o.quantity) ∧
      a.credited o.id ≤ o.quantity := by
    intro o ho
    rcases mem_seen_record.mp ho with hold | ⟨i, hi⟩
    · obtain ⟨hlt, hquantity⟩ := h.seen o hold
      refine ⟨hlt.trans_le hle, fun o' ho' => ?_, hsound.fills o hold⟩
      rcases horders _ _ ho' with hbefore | ⟨hid, -⟩
      · exact hquantity o' hbefore
      · omega
    · obtain rfl := hnumbered.own i o hi
      refine ⟨hnumbered.fresh _ _ hi, fun o' ho' => ?_, ?_⟩
      · rw [Option.some.inj (ho'.symm.trans hi)]
      · rcases horders _ _ hi with hbefore | ⟨hid, hpos, -⟩
        · exact hsound.fills o (h.active _ _ hbefore)
        · rw [hid, h.credited_fresh]
          omega
  constructor
  · refine ⟨hmirrors, hnumbered, fun i o ho => ?_, fun i o ho => ?_, fun o ho => ?_,
      fun fill hfill => ?_⟩
    · rw [credited_record_nil]
      rcases horders i o ho with hbefore | ⟨rfl, -, hfilled, -⟩
      · exact h.filled i o hbefore
      · rw [hfilled, h.credited_fresh]
    · exact mem_seen_record.mpr (.inr ⟨i, ho⟩)
    · exact ⟨(hseen o ho).1, (hseen o ho).2.1⟩
    · simp only [record, List.append_nil] at hfill
      exact (h.past fill hfill).trans_le hle
  · refine ⟨fun i o ho => ?_, fun i o ho => ?_, fun o ho => ?_⟩
    · rcases horders i o ho with hbefore | ⟨-, hpos, hfilled, -⟩
      · exact hsound.positive i o hbefore
      · omega
    · rcases horders i o ho with hbefore | ⟨-, -, hfilled, hstatus⟩
      · exact hsound.status i o hbefore
      · simp [hfilled, hstatus]
    · rw [credited_record_nil]
      exact (hseen o ho).2.2

/-- The orders after a fill. -/
theorem fill_orders {id quantity : Int} {old : MyOrder P}
    (hold : a.strategy.orderManager.orders[id]? = some old)
    (hmanager : s'.orderManager = (a.strategy.orderManager.handleFill id quantity).1) {i : Int}
    {o : MyOrder P} (ho : s'.orderManager.orders[i]? = some o) :
    (i = id ∧ old.filled + quantity < old.quantity ∧
        o = { old with filled := old.filled + quantity, status := .partiallyFilled }) ∨
      (i ≠ id ∧ a.strategy.orderManager.orders[i]? = some o) := by
  rw [hmanager] at ho
  rcases OrderManager.handleFill_cases ho with ⟨hi, old', hold', hless, ho'⟩ | hother
  · obtain rfl := Option.some.inj (hold.symm.trans hold')
    exact .inl ⟨hi, hless, ho'⟩
  · exact .inr hother

theorem Inv.fill (h : Inv originalBid originalAsk a) (hmirrors : s'.Mirrors originalBid originalAsk)
    {id quantity : Int} {old : MyOrder P}
    (hold : a.strategy.orderManager.orders[id]? = some old)
    (hmanager : s'.orderManager = (a.strategy.orderManager.handleFill id quantity).1) :
    Inv originalBid originalAsk (a.record s' [(id, quantity)]) := by
  have hnumbered : s'.orderManager.Numbered := hmanager ▸ h.numbered.handleFill id quantity
  have hcurr : s'.orderManager.currId = a.strategy.orderManager.currId :=
    hmanager ▸ OrderManager.handleFill_currId ..
  refine ⟨hmirrors, hnumbered, fun i o ho => ?_, fun i o ho => ?_, fun o ho => ?_,
    fun fill hfill => ?_⟩
  · rw [credited_record]
    rcases fill_orders hold hmanager ho with ⟨rfl, -, rfl⟩ | ⟨hne, hbefore⟩
    · rw [if_pos rfl, ← h.filled i old hold]
    · rw [if_neg (Ne.symm hne), Int.add_zero]
      exact h.filled i o hbefore
  · exact mem_seen_record.mpr (.inr ⟨i, ho⟩)
  · rcases mem_seen_record.mp ho with hseen | ⟨i, hi⟩
    · obtain ⟨hlt, hquantity⟩ := h.seen o hseen
      refine ⟨hcurr ▸ hlt, fun o' ho' => ?_⟩
      rcases fill_orders hold hmanager ho' with ⟨heq, -, rfl⟩ | ⟨-, hbefore⟩
      · exact hquantity old (heq ▸ hold)
      · exact hquantity o' hbefore
    · obtain rfl := hnumbered.own i o hi
      refine ⟨hnumbered.fresh _ _ hi, fun o' ho' => ?_⟩
      rw [Option.some.inj (ho'.symm.trans hi)]
  · rw [record, List.mem_append, List.mem_singleton] at hfill
    change fill.1 < s'.orderManager.currId
    rw [hcurr]
    rcases hfill with hpast | rfl
    · exact h.past fill hpast
    · exact h.numbered.fresh id old hold

/-- A fill of an order that leaves it at a positive amount within its quantity. -/
theorem Inv.fill_sound (h : Inv originalBid originalAsk a) (hsound : a.Sound) {id quantity : Int}
    {old : MyOrder P} (hold : a.strategy.orderManager.orders[id]? = some old)
    (hmanager : s'.orderManager = (a.strategy.orderManager.handleFill id quantity).1)
    (hpos : 0 < old.filled + quantity) (hle : old.filled + quantity ≤ old.quantity) :
    (a.record s' [(id, quantity)]).Sound := by
  have hnumbered : s'.orderManager.Numbered := hmanager ▸ h.numbered.handleFill id quantity
  have hfilled : old.filled = a.credited id := h.filled id old hold
  have hid : old.id = id := h.numbered.own id old hold
  refine ⟨fun i o ho => ?_, fun i o ho => ?_, fun o ho => ?_⟩
  · rcases fill_orders hold hmanager ho with ⟨-, hless, rfl⟩ | ⟨-, hbefore⟩
    · exact ⟨(hsound.positive id old hold).1, hpos.le, hless⟩
    · exact hsound.positive i o hbefore
  · rcases fill_orders hold hmanager ho with ⟨-, -, rfl⟩ | ⟨-, hbefore⟩
    · have hnew : ¬ OrderStatus.partiallyFilled = .new := by simp
      exact ⟨⟨fun hstatus => absurd hstatus hnew, fun hzero => absurd hzero hpos.ne'⟩,
        fun _ => hpos, fun _ => rfl⟩
    · exact hsound.status i o hbefore
  · rw [credited_record]
    rcases mem_seen_record.mp ho with hseen | ⟨i, hi⟩
    · by_cases heq : id = o.id
      · have hquantity := (h.seen o hseen).2 old (heq ▸ hold)
        rw [if_pos heq, ← heq, ← hfilled]
        omega
      · rw [if_neg heq, Int.add_zero]
        exact hsound.fills o hseen
    · have hown := hnumbered.own i o hi
      rcases fill_orders hold hmanager hi with ⟨rfl, -, rfl⟩ | ⟨hne, hbefore⟩
      · change a.credited old.id + (if i = old.id then quantity else 0) ≤ old.quantity
        rw [if_pos hid.symm, hid, ← hfilled]
        exact hle
      · rw [if_neg fun heq => hne (heq.trans hown).symm, Int.add_zero]
        exact hsound.fills o (h.active i o hbefore)

theorem fillOf_quote (htype : event.type ≠ .execution) : a.strategy.fillOf event = [] :=
  if_neg fun h => htype h.1

theorem fillOf_missing (hnone : a.strategy.orderManager.orders[event.orderId]? = none) :
    a.strategy.fillOf event = [] := by
  refine if_neg fun h => ?_
  have hsome := ExtTreeMap.mem_iff_isSome_getElem?.mp h.2
  rw [hnone] at hsome
  cases hsome

theorem fillOf_order (htype : event.type = .execution) {o : MyOrder P}
    (ho : a.strategy.orderManager.orders[event.orderId]? = some o) :
    a.strategy.fillOf event = [(event.orderId, event.quantity)] :=
  if_pos ⟨htype, ExtTreeMap.mem_iff_isSome_getElem?.mpr (by rw [ho]; rfl)⟩

/-- A fair event keeps the books in order. -/
theorem Inv.step (h : Inv originalBid originalAsk a) (hsound : a.Sound) (hfair : Fair event a)
    (hstep : a.step event = .ok a') : Inv originalBid originalAsk a' ∧ a'.Sound := by
  obtain ⟨s', hs', rfl⟩ := step_ok_inv hstep
  have hmirrors := h.mirrors.step hs'
  cases htype : event.type with
  | bid =>
      obtain ⟨-, -, hquoted⟩ := Strategy.step_bid_ok htype hs'
      obtain ⟨hnumbered, hle⟩ := hquoted.numbered h.numbered
      rw [fillOf_quote (by simp [htype])]
      simp only [Fair, htype] at hfair
      exact h.quote hsound hmirrors hnumbered hle fun i o ho =>
        hquoted.orders_of_fair h.mirrors.sells hfair ho
  | ask =>
      obtain ⟨-, -, hquoted⟩ := Strategy.step_ask_ok htype hs'
      obtain ⟨hnumbered, hle⟩ := hquoted.numbered h.numbered
      rw [fillOf_quote (by simp [htype])]
      simp only [Fair, htype] at hfair
      exact h.quote hsound hmirrors hnumbered hle fun i o ho =>
        hquoted.orders_of_fair h.mirrors.buys hfair ho
  | execution =>
      obtain ⟨t, ht, -, -, -, hmanager⟩ := Strategy.step_execution (s := a.strategy) htype
      obtain rfl := Except.ok.inj (hs'.symm.trans ht)
      cases hold : a.strategy.orderManager.orders[event.orderId]? with
      | none =>
          rw [OrderManager.handleFill_missing hold] at hmanager
          rw [fillOf_missing hold]
          refine h.quote hsound hmirrors (hmanager ▸ h.numbered) (hmanager ▸ le_rfl)
            fun i o ho => .inl (hmanager ▸ ho)
      | some old =>
          simp only [Fair, htype] at hfair
          obtain ⟨hpos, hle⟩ := hfair old hold
          rw [fillOf_order htype hold]
          exact ⟨h.fill hmirrors hold hmanager, h.fill_sound hsound hold hmanager hpos hle⟩
  | unknown =>
      rw [Strategy.step_unknown htype] at hs'
      cases hs'
      rw [fillOf_quote (by simp [htype])]
      exact h.quote hsound hmirrors h.numbered le_rfl fun i o ho => .inl ho

/-- A placed quantity that is not positive breaks them. -/
theorem not_sound_of_placed {fills : List (Int × Int)} {i : Int} {side : Side} {price : P}
    {qty : Int} {m : OrderManager P}
    (h : s'.orderManager.orders[i]? = some (m.placed side price qty)) (hqty : ¬ 0 < qty) :
    ¬ (a.record s' fills).Sound :=
  fun hsound => hqty (hsound.positive i _ h).1

/-- After a fill the books say that it left the order at a positive amount within its quantity. -/
theorem Inv.fair_of_sound (h : Inv originalBid originalAsk a) (hsound : a.Sound) {id quantity : Int}
    {old : MyOrder P} (hold : a.strategy.orderManager.orders[id]? = some old)
    (hmanager : s'.orderManager = (a.strategy.orderManager.handleFill id quantity).1)
    (hsound' : (a.record s' [(id, quantity)]).Sound) :
    0 < old.filled + quantity ∧ old.filled + quantity ≤ old.quantity := by
  have hid := h.numbered.own _ old hold
  have hseen : old ∈ (a.record s' [(id, quantity)]).seen :=
    mem_seen_record.mpr (.inl (h.active _ old hold))
  have hcredited := hsound'.fills old hseen
  rw [credited_record, if_pos hid.symm, hid, ← h.filled _ old hold] at hcredited
  refine ⟨?_, hcredited⟩
  by_contra hpos
  -- An order that is not filled stays, as partially filled.
  have hless : ¬ old.filled + quantity ≥ old.quantity := by
    have := (hsound.positive _ old hold).1
    omega
  have hrecord : s'.orderManager.orders[id]? = some
      { old with filled := old.filled + quantity, status := .partiallyFilled } := by
    rw [hmanager, OrderManager.handleFill, hold]
    dsimp only
    rw [if_neg hless]
    exact (getElem?_insert_eq ..).trans (if_pos rfl)
  exact hpos ((hsound'.status _ _ hrecord).2.mp rfl)

/-- An event that is not fair breaks them. -/
theorem Inv.broken (h : Inv originalBid originalAsk a) (hsound : a.Sound)
    (hunfair : ¬ Fair event a) : ∃ a', a.step event = .ok a' ∧ ¬ a'.Sound := by
  cases htype : event.type with
  | bid =>
      simp only [Fair, htype, Classical.not_imp] at hunfair
      obtain ⟨hbetter, hqty⟩ := hunfair
      have hkey : OrderDual.toDual event.price < OrderDual.toDual a.strategy.prevBestBidPrice :=
        hbetter
      have hreads : ¬ a.strategy.EmptiesSide event := by
        rintro ⟨-, ⟨-, honly, -⟩ | ⟨hask, -⟩⟩
        · have hmem := (honly _).mpr rfl
          rw [ExtTreeMap.mem_iff_isSome_getElem?, h.mirrors.sells.absent_of_better hkey] at hmem
          cases hmem
        · rw [htype] at hask
          cases hask
      obtain ⟨s', hs'⟩ := Strategy.step_ok_iff.mpr hreads
      refine ⟨_, step_ok hs', ?_⟩
      obtain ⟨-, -, hquoted⟩ := Strategy.step_bid_ok htype hs'
      exact not_sound_of_placed (hquoted.placed_of_better h.mirrors.sells hkey) hqty
  | ask =>
      simp only [Fair, htype, Classical.not_imp] at hunfair
      obtain ⟨hbetter, hqty⟩ := hunfair
      have hreads : ¬ a.strategy.EmptiesSide event := by
        rintro ⟨-, ⟨hbid, -⟩ | ⟨-, honly, -⟩⟩
        · rw [htype] at hbid
          cases hbid
        · have habsent : a.strategy.snapshot.asks[event.price]? = none :=
            h.mirrors.buys.absent_of_better hbetter
          have hmem := (honly _).mpr rfl
          rw [ExtTreeMap.mem_iff_isSome_getElem?, habsent] at hmem
          cases hmem
      obtain ⟨s', hs'⟩ := Strategy.step_ok_iff.mpr hreads
      refine ⟨_, step_ok hs', ?_⟩
      obtain ⟨-, -, hquoted⟩ := Strategy.step_ask_ok htype hs'
      exact not_sound_of_placed (hquoted.placed_of_better h.mirrors.buys hbetter) hqty
  | execution =>
      simp only [Fair, htype, not_forall] at hunfair
      obtain ⟨old, hold, hbad⟩ := hunfair
      obtain ⟨s', hs', -, -, -, hmanager⟩ := Strategy.step_execution (s := a.strategy) htype
      refine ⟨_, step_ok hs', fun hsound' => ?_⟩
      rw [fillOf_order htype hold] at hsound'
      exact hbad (h.fair_of_sound hsound hold hmanager hsound')
  | unknown => simp [Fair, htype] at hunfair

/-- The orders go through their life as they should, in every state that the loop reaches,
exactly as long as every event is fair. -/
theorem lifecycle_iff (originalBid originalAsk : P) (feed : List (FeedEvent P)) :
    Run.Always Account.step feed (start originalBid originalAsk) Sound ↔
      Run.Steps Account.step feed (start originalBid originalAsk) Fair :=
  Run.always_iff_steps (fun _ _ _ hI hsound hfair hstep => hI.step hsound hfair hstep)
    (fun _ _ hI hsound hunfair => hI.broken hsound hunfair) start_inv start_sound

/-- `BID 101.00 0`: an order of quantity zero. -/
theorem empty_order_placed :
    ¬ Run.Always Account.step [⟨.bid, 10100, 0, -1⟩] (start (10010 : Int) 10020) Sound := by
  intro h
  have hunfair : ¬ Fair ⟨.bid, 10100, 0, -1⟩ (start (10010 : Int) 10020) := by
    simp [Fair, start, Strategy.start]
  obtain ⟨a', hstep, hbad⟩ := start_inv.broken start_sound hunfair
  refine hbad (h _ (List.prefix_refl _) a' ?_)
  rw [Run.run_cons_ok hstep, Run.run_nil]

end Account

end HftProject.Week3
