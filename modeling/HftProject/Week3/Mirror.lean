import HftProject.Week3.Strategy

/-!
The strategy of `phase_3` mirrors the market: its sell orders stand on bid levels and its buy
orders on ask levels, each with the quantity of its level and no two at one price, in every
state that the loop of `main` reaches (`strategy_mirrors`).
-/

namespace HftProject.Week3

open Std

variable {P : Type} [LinearOrder P]

/-! ### One side -/

section Side

variable {K : Type} [LinearOrder K]

/-- The orders of a side stand on the levels, between the original and the remembered best
price. No level is better than the remembered price. -/
structure Mirrored (toKey : P ≃ K) (side : Side) (original prev : P)
    (levels : ExtTreeMap K (PriceLevel P)) (m : OrderManager P) : Prop where
  priced : ∀ (key : K) level, levels[key]? = some level → toKey level.price = key
  remembered : ∀ (key : K) level, levels[key]? = some level → toKey prev ≤ key
  improves : toKey prev ≤ toKey original
  above : ∀ (i : Int) (o : MyOrder P), m.orders[i]? = some o → o.side = side →
    toKey o.price < toKey original ∧ toKey prev ≤ toKey o.price
  onLevel : ∀ (i : Int) (o : MyOrder P), m.orders[i]? = some o → o.side = side →
    ∃ level, levels[toKey o.price]? = some level ∧ level.quantity = o.quantity
  single : ∀ (i j : Int) (o o' : MyOrder P), m.orders[i]? = some o → m.orders[j]? = some o' →
    o.side = side → o'.side = side → o.price = o'.price → i = j

variable {toKey : P ≃ K} {side : Side} {original prev prev' price : P} {qty : Int}
  {levels : ExtTreeMap K (PriceLevel P)} {m m' : OrderManager P} {bookSide : BookSide}

omit [LinearOrder P] in
theorem mirrored_start : Mirrored toKey side original original ∅ .new where
  priced key level h := by simp at h
  remembered key level h := by simp at h
  improves := le_rfl
  above i o h := by simp [OrderManager.new] at h
  onLevel i o h := by simp [OrderManager.new] at h
  single i j o o' h := by simp [OrderManager.new] at h

omit [LinearOrder P] in
theorem Mirrored.updated_priced (h : Mirrored toKey side original prev levels m) (key : K)
    (level : PriceLevel P)
    (hlevel : (updateLevel bookSide (toKey price) price qty levels).1[key]? = some level) :
    toKey level.price = key := by
  rcases updateLevel_cases hlevel with ⟨rfl, -, ⟨-, hprice⟩ | ⟨old, hold, hprice⟩⟩ | ⟨-, hold⟩
  · rw [hprice]
  · rw [hprice, h.priced _ _ hold]
  · exact h.priced _ _ hold

theorem Mirrored.replaced (h : Mirrored toKey side original prev levels m)
    (hrests : m.Rests side price) :
    Mirrored toKey side original prev (updateLevel bookSide (toKey price) price qty levels).1
      (if 0 < qty then ((m.cleared side price).placeOrder side price qty).2.1
      else m.cleared side price) := by
  obtain ⟨i₀, o₀, ho₀, hside₀, rfl⟩ := hrests
  obtain ⟨level₀, hlevel₀, -⟩ := h.onLevel i₀ o₀ ho₀ hside₀
  have habove := h.above i₀ o₀ ho₀ hside₀
  refine ⟨h.updated_priced, ?_, h.improves, ?_, ?_, ?_⟩
  · intro key level hlevel
    rcases updateLevel_cases hlevel with ⟨rfl, -⟩ | ⟨-, hold⟩
    · exact habove.2
    · exact h.remembered _ _ hold
  · intro i o ho hside
    rcases OrderManager.replaced_cases ho with ⟨-, -, rfl⟩ | ⟨hold, -⟩
    · exact habove
    · exact h.above i o hold hside
  · intro i o ho hside
    rcases OrderManager.replaced_cases ho with ⟨hqty, -, rfl⟩ | ⟨hold, hother⟩
    · refine ⟨{ level₀ with quantity := qty }, ?_, rfl⟩
      rw [OrderManager.placed, getElem?_updateLevel, if_pos rfl, hlevel₀]
      exact if_neg (by omega)
    · rw [updateLevel_other fun hprice => hother ⟨hside, hprice⟩]
      exact h.onLevel i o hold hside
  · intro i j o o' ho ho' hside hside' hprice
    rcases OrderManager.replaced_cases ho with ⟨-, hi, rfl⟩ | ⟨hold, hother⟩ <;>
      rcases OrderManager.replaced_cases ho' with ⟨-, hj, rfl⟩ | ⟨hold', hother'⟩
    · rw [hi, hj]
    · exact absurd ⟨hside', hprice.symm⟩ hother'
    · exact absurd ⟨hside, hprice⟩ hother
    · exact h.single i j o o' hold hold' hside hside' hprice

omit [LinearOrder P] in
theorem Mirrored.improved (h : Mirrored toKey side original prev levels m)
    (hrests : ¬ m.Rests side price) {best : PriceLevel P}
    (hbest : bestLevel (updateLevel bookSide (toKey price) price qty levels).1 = some best)
    (hbetter : toKey best.price < toKey prev) :
    Mirrored toKey side original best.price
      (updateLevel bookSide (toKey price) price qty levels).1
      (m.placeOrder side best.price best.quantity).2.1 := by
  obtain ⟨key, hlevel, hleast⟩ := bestLevel_eq_some.mp hbest
  obtain rfl := h.updated_priced key best hlevel
  refine ⟨h.updated_priced, ?_, hbetter.le.trans h.improves, ?_, ?_, ?_⟩
  · intro key level hkey
    exact hleast key (ExtTreeMap.mem_iff_isSome_getElem?.mpr (by rw [hkey]; rfl))
  · intro i o ho hside
    rcases OrderManager.placeOrder_cases ho with ⟨-, rfl⟩ | ⟨-, hold⟩
    · exact ⟨hbetter.trans_le h.improves, le_rfl⟩
    · have habove := h.above i o hold hside
      exact ⟨habove.1, hbetter.le.trans habove.2⟩
  · intro i o ho hside
    rcases OrderManager.placeOrder_cases ho with ⟨-, rfl⟩ | ⟨-, hold⟩
    · exact ⟨best, hlevel, rfl⟩
    · rw [updateLevel_other fun hprice => hrests ⟨i, o, hold, hside, hprice⟩]
      exact h.onLevel i o hold hside
  · have hapart : ∀ (i : Int) (o : MyOrder P), m.orders[i]? = some o → o.side = side →
        o.price ≠ best.price := by
      rintro i o ho hside hprice
      exact absurd ((h.above i o ho hside).2.trans_lt (hprice ▸ hbetter)) (lt_irrefl _)
    intro i j o o' ho ho' hside hside' hprice
    rcases OrderManager.placeOrder_cases ho with ⟨hi, rfl⟩ | ⟨-, hold⟩ <;>
      rcases OrderManager.placeOrder_cases ho' with ⟨hj, rfl⟩ | ⟨-, hold'⟩
    · rw [hi, hj]
    · exact absurd hprice.symm (hapart j o' hold' hside')
    · exact absurd hprice (hapart i o hold hside)
    · exact h.single i j o o' hold hold' hside hside' hprice

omit [LinearOrder P] in
theorem Mirrored.kept (h : Mirrored toKey side original prev levels m)
    (hrests : ¬ m.Rests side price) {best : PriceLevel P}
    (hbest : bestLevel (updateLevel bookSide (toKey price) price qty levels).1 = some best)
    (hworse : toKey prev ≤ toKey best.price) :
    Mirrored toKey side original prev
      (updateLevel bookSide (toKey price) price qty levels).1 m := by
  obtain ⟨key, hlevel, hleast⟩ := bestLevel_eq_some.mp hbest
  obtain rfl := h.updated_priced key best hlevel
  refine ⟨h.updated_priced, ?_, h.improves, h.above, ?_, h.single⟩
  · intro key level hkey
    have hmem : key ∈ (updateLevel bookSide (toKey price) price qty levels).1 :=
      ExtTreeMap.mem_iff_isSome_getElem?.mpr (by rw [hkey]; rfl)
    exact hworse.trans (hleast key hmem)
  · intro i o ho hside
    rw [updateLevel_other fun hprice => hrests ⟨i, o, ho, hside, hprice⟩]
    exact h.onLevel i o ho hside

/-- A quote keeps the orders of its side on the levels. -/
theorem Mirrored.quoted (h : Mirrored toKey side original prev levels m)
    (hquoted : Quoted toKey side price qty prev
      (updateLevel bookSide (toKey price) price qty levels).1 m prev' m') :
    Mirrored toKey side original prev' (updateLevel bookSide (toKey price) price qty levels).1
      m' := by
  cases hquoted with
  | replaced hrests => exact h.replaced hrests
  | improved hrests hbest hbetter => exact h.improved hrests hbest hbetter
  | kept hrests hbest hworse => exact h.kept hrests hbest hworse

/-- A quote leaves the orders of the other side alone. -/
theorem Quoted.other_orders {side' : Side} (hside' : side' ≠ side)
    (hquoted : Quoted toKey side price qty prev levels m prev' m') {i : Int} {o : MyOrder P}
    (ho : m'.orders[i]? = some o) (hside : o.side = side') : m.orders[i]? = some o := by
  cases hquoted with
  | replaced hrests =>
      split at ho
      · rcases OrderManager.placeOrder_cases ho with ⟨-, rfl⟩ | ⟨-, hold⟩
        · exact absurd hside.symm hside'
        · exact (OrderManager.cleared_orders.mp hold).1
      · exact (OrderManager.cleared_orders.mp ho).1
  | improved hrests hbest hbetter =>
      rcases OrderManager.placeOrder_cases ho with ⟨-, rfl⟩ | ⟨-, hold⟩
      · exact absurd hside.symm hside'
      · exact hold
  | kept hrests hbest hworse => exact ho

omit [LinearOrder P] in
/-- Orders that come from before, as far as they are of the side, stay on the levels. -/
theorem Mirrored.mono (h : Mirrored toKey side original prev levels m)
    (hsame : ∀ (i : Int) (o : MyOrder P), m'.orders[i]? = some o → o.side = side →
      ∃ o', m.orders[i]? = some o' ∧ o'.side = side ∧ o'.price = o.price ∧
        o'.quantity = o.quantity) :
    Mirrored toKey side original prev levels m' where
  priced := h.priced
  remembered := h.remembered
  improves := h.improves
  above i o ho hside := by
    obtain ⟨o', ho', hside', hprice, -⟩ := hsame i o ho hside
    rw [← hprice]
    exact h.above i o' ho' hside'
  onLevel i o ho hside := by
    obtain ⟨o', ho', hside', hprice, hquantity⟩ := hsame i o ho hside
    rw [← hprice, ← hquantity]
    exact h.onLevel i o' ho' hside'
  single i j o₁ o₂ ho₁ ho₂ hside₁ hside₂ hprice := by
    obtain ⟨o₁', ho₁', hside₁', hprice₁, -⟩ := hsame i o₁ ho₁ hside₁
    obtain ⟨o₂', ho₂', hside₂', hprice₂, -⟩ := hsame j o₂ ho₂ hside₂
    exact h.single i j o₁' o₂' ho₁' ho₂' hside₁' hside₂'
      (hprice₁.trans (hprice.trans hprice₂.symm))

theorem Mirrored.quoted_other {K' : Type} [LinearOrder K'] {toKey' : P ≃ K'} {side' : Side}
    {remembered : P} {levels' : ExtTreeMap K' (PriceLevel P)}
    (h : Mirrored toKey' side' original remembered levels' m) (hside' : side' ≠ side)
    (hquoted : Quoted toKey side price qty prev levels m prev' m') :
    Mirrored toKey' side' original remembered levels' m' := by
  refine h.mono fun i o ho hside => ?_
  exact ⟨o, hquoted.other_orders hside' ho hside, hside, rfl, rfl⟩

end Side

/-! ### The loop -/

namespace Strategy

variable {originalBid originalAsk : P} {s s' : Strategy P} {event : FeedEvent P}

/-- Both sides are on the levels. -/
structure Mirrors (originalBid originalAsk : P) (s : Strategy P) : Prop where
  sells : Mirrored OrderDual.toDual .sell originalBid s.prevBestBidPrice s.snapshot.bids
    s.orderManager
  buys : Mirrored (Equiv.refl P) .buy originalAsk s.prevBestAskPrice s.snapshot.asks
    s.orderManager

theorem mirrors_start : Mirrors originalBid originalAsk (start originalBid originalAsk) where
  sells := mirrored_start
  buys := mirrored_start

theorem Mirrors.step (h : Mirrors originalBid originalAsk s) (hstep : s.step event = .ok s') :
    Mirrors originalBid originalAsk s' := by
  cases htype : event.type with
  | bid =>
      obtain ⟨hsnapshot, hask, hquoted⟩ := step_bid_ok htype hstep
      constructor
      · rw [hsnapshot]
        exact h.sells.quoted hquoted
      · rw [hsnapshot, hask]
        exact h.buys.quoted_other (by simp) hquoted
  | ask =>
      obtain ⟨hsnapshot, hbid, hquoted⟩ := step_ask_ok htype hstep
      constructor
      · rw [hsnapshot, hbid]
        exact h.sells.quoted_other (by simp) hquoted
      · rw [hsnapshot]
        exact h.buys.quoted hquoted
  | execution =>
      obtain ⟨t, ht, hsnapshot, hbid, hask, hmanager⟩ := step_execution (s := s) htype
      obtain rfl := Except.ok.inj (hstep.symm.trans ht)
      have hsame : ∀ side (i : Int) (o : MyOrder P), s'.orderManager.orders[i]? = some o →
          o.side = side → ∃ o', s.orderManager.orders[i]? = some o' ∧ o'.side = side ∧
            o'.price = o.price ∧ o'.quantity = o.quantity := by
        intro side i o ho hside
        rw [hmanager] at ho
        rcases OrderManager.handleFill_cases ho with ⟨rfl, old, hold, -, rfl⟩ | ⟨-, hold⟩
        · exact ⟨old, hold, hside, rfl, rfl⟩
        · exact ⟨o, hold, hside, rfl, rfl⟩
      constructor
      · rw [hsnapshot, hbid]
        exact h.sells.mono (hsame .sell)
      · rw [hsnapshot, hask]
        exact h.buys.mono (hsame .buy)
  | unknown =>
      rw [step_unknown htype] at hstep
      cases hstep
      exact ⟨h.sells, h.buys⟩

theorem Mirrors.run {feed : List (FeedEvent P)} (h : Mirrors originalBid originalAsk s)
    (hrun : Run.run Strategy.step feed s = .ok s') : Mirrors originalBid originalAsk s' :=
  Run.run_invariant (fun _ _ _ hs hstep => hs.step hstep) h hrun

/-- After every iteration that completes: no two orders stand on one side at one price, a sell
order stands above the original bid and not above the remembered one, on a bid level of its
quantity, and a buy order likewise below the asks. -/
theorem strategy_mirrors (originalBid originalAsk : P) (feed : List (FeedEvent P)) :
    Run.Always Strategy.step feed (start originalBid originalAsk) fun s =>
      (∀ (i j : Int) (o o' : MyOrder P), s.orderManager.orders[i]? = some o →
        s.orderManager.orders[j]? = some o' → o.side = o'.side → o.price = o'.price → i = j) ∧
      (∀ (i : Int) (o : MyOrder P), s.orderManager.orders[i]? = some o → o.side = .sell →
        originalBid < o.price ∧ o.price ≤ s.prevBestBidPrice ∧
          ∃ level, s.snapshot.bids[OrderDual.toDual o.price]? = some level ∧
            level.price = o.price ∧ level.quantity = o.quantity) ∧
      (∀ (i : Int) (o : MyOrder P), s.orderManager.orders[i]? = some o → o.side = .buy →
        o.price < originalAsk ∧ s.prevBestAskPrice ≤ o.price ∧
          ∃ level, s.snapshot.asks[o.price]? = some level ∧
            level.price = o.price ∧ level.quantity = o.quantity) := by
  intro pre hpre s hrun
  have h : Mirrors originalBid originalAsk s := mirrors_start.run hrun
  refine ⟨?_, ?_, ?_⟩
  · intro i j o o' ho ho' hside hprice
    cases hsell : o.side with
    | sell => exact h.sells.single i j o o' ho ho' hsell (hside.symm.trans hsell) hprice
    | buy => exact h.buys.single i j o o' ho ho' hsell (hside.symm.trans hsell) hprice
  · intro i o ho hside
    obtain ⟨habove, hbest⟩ := h.sells.above i o ho hside
    obtain ⟨level, hlevel, hquantity⟩ := h.sells.onLevel i o ho hside
    exact ⟨habove, hbest, level, hlevel, h.sells.priced _ _ hlevel, hquantity⟩
  · intro i o ho hside
    obtain ⟨hbelow, hbest⟩ := h.buys.above i o ho hside
    obtain ⟨level, hlevel, hquantity⟩ := h.buys.onLevel i o ho hside
    exact ⟨hbelow, hbest, level, hlevel, h.buys.priced _ _ hlevel, hquantity⟩

end Strategy

end HftProject.Week3
