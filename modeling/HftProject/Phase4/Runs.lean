import HftProject.Lib.Run
import HftProject.Phase4.Matching
import Mathlib.Data.List.Dedup

/-!
Runs of the component: any interleaving of the calls that `OrderBook`,
`MatchingEngine::matchOrders` and `OrderManager` offer, on one fresh book. A caller
keeps every pointer it is given until it lets go of it.

`BookState` is a state together with its invariant. `BookState.step` is total: from
such a state no call is undefined behaviour and no call throws.
-/

namespace HftProject.Phase4

open Run

variable {P I : Type} [LinearOrder P] [LinearOrder I] {L : Layout}

/-- A call, made by a caller who names the pointers it holds by their position in
`handles`; a position where there is none stands for a null pointer. -/
inductive Op (P I : Type) where
  | addOrder (id : I) (symbol : String) (price : P) (quantity : Int) (isBuy : Bool)
  | deleteOrder (id : I)
  | updateQuantity (id : I) (newQuantity : Int)
  | getOrderById (id : I)
  | matchOrders
  | managerAddOrder (handle : Nat)
  | managerGetOrder (id : I)
  | cancelOrder (id : I)
  | updateOrderFill (id : I) (filledQuantity : Int)
  | reset (handle : Nat)
deriving DecidableEq, Repr

/-- What a call leaves behind; its result is dropped. -/
def Op.step (L : Layout) : Op P I → System P I → Except Fault (System P I)
  | .addOrder id symbol price quantity isBuy, s =>
      (·.2) <$> OrderBook.addOrder L id symbol price quantity isBuy s
  | .deleteOrder id, s => (·.2) <$> OrderBook.deleteOrder L id s
  | .updateQuantity id newQuantity, s => (·.2) <$> OrderBook.updateQuantity id newQuantity s
  | .getOrderById id, s => .ok (OrderBook.getOrderById id s).2
  | .matchOrders, s => s.matchOrders L
  | .managerAddOrder handle, s => (·.2) <$> OrderManager.addOrder s.handles[handle]? s
  | .managerGetOrder id, s => .ok (OrderManager.getOrder id s).2
  | .cancelOrder id, s => (·.2) <$> OrderManager.cancelOrder L id s
  | .updateOrderFill id filledQuantity, s =>
      (·.2) <$> OrderManager.updateOrderFill L id filledQuantity s
  | .reset handle, s => s.reset L s.handles[handle]?

namespace System

variable {s t : System P I}

/-! ### What a call does -/

/-- A step to `t` that keeps the invariant and the dimensions of the pool. -/
structure Stays (L : Layout) (s t : System P I) : Prop where
  ok : t.Ok L
  blockSize : t.book.allocator.blockSize = s.book.allocator.blockSize
  poolSize : t.book.allocator.poolSize = s.book.allocator.poolSize

/-- A step that leaves the entries of the book alone. -/
structure Aside (L : Layout) (s t : System P I) : Prop extends Stays L s t where
  bids : t.book.bids = s.book.bids
  asks : t.book.asks = s.book.asks
  ordersById : t.book.ordersById = s.book.ordersById

/-- Everything a call can do to the entries of the book. -/
inductive BookStep (L : Layout) (s t : System P I) : Op P I → Prop where
  | aside {op : Op P I} : op ≠ .matchOrders → Aside L s t → BookStep L s t op
  | added {id : I} {symbol : String} {price : P} {quantity : Int} {isBuy : Bool}
      {pool : MemoryPool (Order P I)} {q : OrderPtr} :
      id ∉ s.book.ordersById → t = s.added pool q ⟨id, symbol, price, quantity, isBuy⟩ →
        Stays L s t → BookStep L s t (.addOrder id symbol price quantity isBuy)
  | removed {id : I} {q : OrderPtr} {o : Order P I} {pool : MemoryPool (Order P I)} :
      s.book.ordersById[id]? = some q → s.order? q = some o → o.id = id →
        t = (s.removed q o).withPool pool → Stays L s t → BookStep L s t (.deleteOrder id)
  | matched : MatchRun L s t → BookStep L s t .matchOrders

theorem Ok.stays (h : s.Ok L) : Stays L s s := ⟨h, rfl, rfl⟩

theorem Ok.aside (h : s.Ok L) : Aside L s s := ⟨h.stays, rfl, rfl, rfl⟩

theorem BookStep.stays {op : Op P I} (h : BookStep L s t op) : Stays L s t := by
  cases h with
  | aside _ haside => exact haside.toStays
  | added _ _ hstays => exact hstays
  | removed _ _ _ _ hstays => exact hstays
  | matched hrun => exact ⟨hrun.target, hrun.rest.blockSize, hrun.rest.poolSize⟩

theorem Ok.addOrder_step (h : s.Ok L) (id : I) (symbol : String) (price : P) (quantity : Int)
    (isBuy : Bool) :
    ∃ r t, OrderBook.addOrder L id symbol price quantity isBuy s = .ok (r, t) ∧
      BookStep L s t (.addOrder id symbol price quantity isBuy) := by
  obtain ⟨free, hpool⟩ := h.pool
  rcases h.addOrder hpool ⟨id, symbol, price, quantity, isBuy⟩ with
    ⟨_, hadd⟩ | ⟨_, _, hadd⟩ | ⟨hid, a, rest, pool, _, _, hadd, hok, _, _, hbs, hps⟩
  · exact ⟨_, s, hadd, .aside (by simp) h.aside⟩
  · exact ⟨_, s, hadd, .aside (by simp) h.aside⟩
  · exact ⟨_, _, hadd, .added hid rfl ⟨hok, hbs, hps⟩⟩

theorem Ok.deleteOrder_step (h : s.Ok L) (id : I) :
    ∃ b t, OrderBook.deleteOrder L id s = .ok (b, t) ∧ BookStep L s t (.deleteOrder id) := by
  cases hid : s.book.ordersById[id]? with
  | none =>
      exact ⟨false, s, by simp only [OrderBook.deleteOrder, hid], .aside (by simp) h.aside⟩
  | some q =>
      obtain ⟨o, pool, ho, hoid, hdel, hok, -, hbs, hps⟩ := h.deleteOrder hid
      exact ⟨true, _, hdel, .removed hid ho hoid rfl ⟨hok, hbs, hps⟩⟩

theorem Ok.updateQuantity_aside (h : s.Ok L) (id : I) (n : Int) :
    ∃ b t, OrderBook.updateQuantity id n s = .ok (b, t) ∧ Aside L s t := by
  cases hid : s.book.ordersById[id]? with
  | none => exact ⟨false, s, by simp only [OrderBook.updateQuantity, hid], h.aside⟩
  | some q =>
      by_cases hn : 0 < n
      · obtain ⟨pool, hupd, hok, -, hbs, hps⟩ := h.updateQuantity hid hn
        exact ⟨true, _, hupd, ⟨hok, hbs, hps⟩, rfl, rfl, rfl⟩
      · refine ⟨false, s, ?_, h.aside⟩
        simp only [OrderBook.updateQuantity, hid]
        exact if_pos (not_lt.mp hn)

theorem Ok.hold_aside (h : s.Ok L) {q : OrderPtr} (hq : q ∈ s.refs) :
    Aside L s { s with handles := q :: s.handles } :=
  ⟨⟨h.hold hq, rfl, rfl⟩, rfl, rfl, rfl⟩

theorem Ok.getOrderById_aside (h : s.Ok L) (id : I) :
    Aside L s (OrderBook.getOrderById id s).2 := by
  cases hid : s.book.ordersById[id]? with
  | none =>
      simp only [OrderBook.getOrderById, hid]
      exact h.aside
  | some q =>
      simp only [OrderBook.getOrderById, hid]
      exact h.hold_aside (mem_refs_of_indexed _ hid)

theorem Ok.managerAddOrder_aside (h : s.Ok L) (i : Nat) :
    ∃ b t, OrderManager.addOrder s.handles[i]? s = .ok (b, t) ∧ Aside L s t := by
  cases hi : s.handles[i]? with
  | none => exact ⟨false, s, rfl, h.aside⟩
  | some q =>
      obtain ⟨o, -, ⟨_, hadd⟩ | ⟨_, t, hadd, hok, hbook, -⟩⟩ :=
        h.track (mem_refs_of_handle (List.mem_of_getElem? hi))
      · exact ⟨false, s, hadd, h.aside⟩
      · exact ⟨true, t, hadd, ⟨hok, by rw [hbook], by rw [hbook]⟩, by rw [hbook], by rw [hbook],
          by rw [hbook]⟩

theorem Ok.managerGetOrder_aside (h : s.Ok L) (id : I) :
    Aside L s (OrderManager.getOrder id s).2 := by
  cases hid : s.manager.orders[id]? with
  | none =>
      simp only [OrderManager.getOrder, hid]
      exact h.aside
  | some q =>
      simp only [OrderManager.getOrder, hid]
      exact h.hold_aside (mem_refs_of_tracked _ hid)

theorem Ok.cancelOrder_aside (h : s.Ok L) (id : I) :
    ∃ b t, OrderManager.cancelOrder L id s = .ok (b, t) ∧ Aside L s t := by
  cases hid : s.manager.orders[id]? with
  | none => exact ⟨false, s, by simp only [OrderManager.cancelOrder, hid], h.aside⟩
  | some q =>
      obtain ⟨pool, hrel, hok, -, hbs, hps⟩ :=
        h.untrack hid (s.manager.states.insert id .cancelled)
      refine ⟨true, _, ?_, ⟨hok, hbs, hps⟩, rfl, rfl, rfl⟩
      simp only [OrderManager.cancelOrder, hid]
      change (do let s ← System.release L q (s.untracked id _); _ : Except Fault _) = _
      rw [hrel]
      rfl

theorem Ok.updateOrderFill_aside (h : s.Ok L) (id : I) (n : Int) :
    ∃ b t, OrderManager.updateOrderFill L id n s = .ok (b, t) ∧ Aside L s t := by
  cases hid : s.manager.orders[id]? with
  | none => exact ⟨false, s, by simp only [OrderManager.updateOrderFill, hid], h.aside⟩
  | some q =>
      cases hstate : s.manager.states[id]? with
      | none => exact ⟨false, s, by simp only [OrderManager.updateOrderFill, hid, hstate], h.aside⟩
      | some state =>
          obtain ⟨o, ho, -⟩ := h.tracked id q hid
          by_cases hdone : state = .cancelled ∨ state = .filled
          · refine ⟨false, s, ?_, h.aside⟩
            simp only [OrderManager.updateOrderFill, hid, hstate]
            exact if_pos hdone
          rw [updateOrderFill_eq hid hstate hdone ho]
          by_cases hrange : n < 0 ∨ n > o.quantity
          · exact ⟨false, s, if_pos hrange, h.aside⟩
          by_cases hall : n = o.quantity
          · obtain ⟨pool, hrel, hok, -, hbs, hps⟩ :=
              h.untrack hid (s.manager.states.insert id .filled)
            refine ⟨true, _, (if_neg hrange).trans ((if_pos hall).trans ?_), ⟨hok, hbs, hps⟩, rfl,
              rfl, rfl⟩
            rw [hrel]
            rfl
          by_cases hsome : n > 0
          · refine ⟨true, _, (if_neg hrange).trans ((if_neg hall).trans (if_pos hsome)),
              ⟨?_, rfl, rfl⟩, rfl, rfl, rfl⟩
            exact h.shrink rfl rfl (fun _ => Iff.rfl) (List.Sublist.refl _) (List.Sublist.refl _)
              (fun _ _ hi => hi) h.tracked (fun _ _ _ hi => hi)
          · exact ⟨true, s, (if_neg hrange).trans ((if_neg hall).trans (if_neg hsome)), h.aside⟩

theorem Ok.reset_aside (h : s.Ok L) (i : Nat) :
    ∃ t, s.reset L s.handles[i]? = .ok t ∧ Aside L s t := by
  cases hi : s.handles[i]? with
  | none => exact ⟨s, rfl, h.aside⟩
  | some q =>
      obtain ⟨pool, hreset, hok, -, hbs, hps⟩ := h.reset (List.mem_of_getElem? hi)
      exact ⟨_, hreset, ⟨hok, hbs, hps⟩, rfl, rfl, rfl⟩

/-- Every call returns, and does one of the things listed. -/
theorem Ok.step (h : s.Ok L) (op : Op P I) : ∃ t, op.step L s = .ok t ∧ BookStep L s t op := by
  have hresult : ∀ {α : Type} {e : Except Fault (α × System P I)} {Q : System P I → Prop},
      (∃ r t, e = .ok (r, t) ∧ Q t) → ∃ t, (·.2) <$> e = .ok t ∧ Q t := by
    rintro α e Q ⟨r, t, rfl, ht⟩
    exact ⟨t, rfl, ht⟩
  have haside : ∀ {e : Except Fault (System P I)}, op ≠ .matchOrders →
      (∃ t, e = .ok t ∧ Aside L s t) → ∃ t, e = .ok t ∧ BookStep L s t op := by
    rintro e hop ⟨t, ht, hside⟩
    exact ⟨t, ht, .aside hop hside⟩
  cases op with
  | addOrder id symbol price quantity isBuy =>
      exact hresult (h.addOrder_step id symbol price quantity isBuy)
  | deleteOrder id => exact hresult (h.deleteOrder_step id)
  | updateQuantity id n => exact haside (by simp) (hresult (h.updateQuantity_aside id n))
  | getOrderById id => exact haside (by simp) ⟨_, rfl, h.getOrderById_aside id⟩
  | matchOrders =>
      obtain ⟨t, hmatch, hrun⟩ := h.matchOrders
      exact ⟨t, hmatch, .matched hrun⟩
  | managerAddOrder i => exact haside (by simp) (hresult (h.managerAddOrder_aside i))
  | managerGetOrder id => exact haside (by simp) ⟨_, rfl, h.managerGetOrder_aside id⟩
  | cancelOrder id => exact haside (by simp) (hresult (h.cancelOrder_aside id))
  | updateOrderFill id n => exact haside (by simp) (hresult (h.updateOrderFill_aside id n))
  | reset i => exact haside (by simp) (h.reset_aside i)

/-! ### Runs -/

/-- A fresh book over blocks that are large enough for an order, at least one of them. -/
theorem fresh_ok {blockSize poolSize : Nat} (fits : L.sizeofOrder ≤ blockSize)
    (hpos : 0 < poolSize) :
    ∃ s : System P I, OrderBook.fresh L blockSize poolSize = .ok s ∧ s.Ok L ∧
      s.book.allocator.poolSize = poolSize ∧ s.book.bids = [] ∧ s.book.asks = [] ∧
      s.book.ordersById = ∅ ∧ s.manager.orders = ∅ ∧ s.manager.states = ∅ ∧ s.handles = [] := by
  obtain ⟨p, hnew, hok, hempty, -, hps⟩ :=
    MemoryPool.new_ok (O := Order P I) (L := L) fits hpos
  let s : System P I := ⟨⟨p, [], [], ∅⟩, ⟨∅, ∅⟩, [], 0⟩
  have hrefs : ∀ q, q ∉ s.refs := by
    intro q hq
    simp [s, mem_refs, System.resting] at hq
  refine ⟨s, by simp only [OrderBook.fresh, hnew]; rfl, ?_, hps, rfl, rfl, rfl, rfl, rfl, rfl⟩
  exact
    { pool := ⟨_, hok⟩
      live := fun q hq => absurd hq (hrefs q)
      owned := fun a o ho => by
        rw [show s.book.allocator.object? a = none from hempty a] at ho
        cases ho
      inj := fun q hq => absurd hq (hrefs q)
      old := fun q hq => absurd hq (hrefs q)
      bidsSorted := List.Pairwise.nil
      asksSorted := List.Pairwise.nil
      arrival := fun b => by cases b <;> exact List.Pairwise.nil
      once := List.nodup_nil
      placed := fun b k q hq =>
        absurd (mem_refs_of_resting (mem_resting.mpr ⟨b, k, hq⟩)) (hrefs q)
      indexed := fun id q hq => absurd (mem_refs_of_indexed _ hq) (hrefs q)
      tracked := fun id q hq => absurd (mem_refs_of_tracked _ hq) (hrefs q) }

/-- Every run returns and ends in a state that satisfies the invariant. -/
theorem Ok.run (h : s.Ok L) (ops : List (Op P I)) :
    ∃ t, Run.run (Op.step L) ops s = .ok t ∧ Stays L s t := by
  refine run_total (I := Stays L s) (fun op m hm => ?_) h.stays
  obtain ⟨t, hstep, hdone⟩ := hm.ok.step op
  exact ⟨t, hstep, hdone.stays.ok, hdone.stays.blockSize.trans hm.blockSize,
    hdone.stays.poolSize.trans hm.poolSize⟩

end System

/-- A state of the component. -/
def BookState (L : Layout) (P I : Type) [LinearOrder P] [LinearOrder I] : Type :=
  { s : System P I // s.Ok L }

namespace BookState

/-- The result of a call that is known to return. -/
def ofOk {e : Except Fault (System P I)} (h : ∃ t, e = .ok t ∧ t.Ok L) : BookState L P I :=
  match e, h with
  | .ok t, h => ⟨t, by obtain ⟨_, heq, hok⟩ := h; cases heq; exact hok⟩
  | .error _, h => False.elim (by obtain ⟨_, heq, _⟩ := h; cases heq)

theorem ofOk_eq {e : Except Fault (System P I)} (h : ∃ t, e = .ok t ∧ t.Ok L) :
    e = .ok (ofOk h).1 := by
  obtain ⟨t, rfl, hok⟩ := h
  rfl

/-- A fresh book of `poolSize` blocks. -/
def fresh {blockSize poolSize : Nat} (fits : L.sizeofOrder ≤ blockSize) (hpos : 0 < poolSize) :
    BookState L P I :=
  ofOk (e := OrderBook.fresh L blockSize poolSize) <| by
    obtain ⟨s, hfresh, hok, -⟩ := System.fresh_ok (P := P) (I := I) fits hpos
    exact ⟨s, hfresh, hok⟩

/-- One call. -/
def step (s : BookState L P I) (op : Op P I) : BookState L P I :=
  ofOk (e := op.step L s.1) <| by
    obtain ⟨t, hstep, hdone⟩ := s.2.step op
    exact ⟨t, hstep, hdone.stays.ok⟩

theorem step_eq (s : BookState L P I) (op : Op P I) : op.step L s.1 = .ok (s.step op).1 :=
  ofOk_eq _

/-- A run of calls. -/
def calls (s : BookState L P I) (ops : List (Op P I)) : BookState L P I := ops.foldl step s

theorem calls_eq (s : BookState L P I) (ops : List (Op P I)) :
    run (Op.step L) ops s.1 = .ok (s.calls ops).1 := by
  induction ops generalizing s with
  | nil => rfl
  | cons op ops ih =>
      rw [run_cons_ok (s.step_eq op)]
      exact ih (s.step op)

end BookState

/-! ### The pool along a run -/

namespace System

/-- The orders that are alive: one shared pointer for each of them. -/
def liveOrders (s : System P I) : List OrderPtr := s.refs.dedup

/-- The pool's books balance: the free list visits exactly the blocks of `free`, which
are different blocks, none of them that of a live order; live orders have different
blocks; a block holds an order exactly as long as something refers to it; together
they are the `n` blocks of the pool. -/
structure PoolSound (s : System P I) (n : Nat) (free : List Nat) : Prop where
  chain : Memory.Chain Cell.next s.book.allocator.pool s.book.allocator.freeList free
  nodup : free.Nodup
  disjoint : ∀ q ∈ s.liveOrders, q.ptr ∉ free
  distinct : (s.liveOrders.map (·.ptr)).Nodup
  alive : ∀ a, (∃ o, s.book.allocator.object? a = some o) ↔ a ∈ s.liveOrders.map (·.ptr)
  blocks : ∀ a, a ∈ free ∨ a ∈ s.liveOrders.map (·.ptr) →
    ∃ i < n, a = i * s.book.allocator.blockSize
  count : free.length + s.liveOrders.length = n

theorem Ok.poolSound {s : System P I} (h : s.Ok L) :
    ∃ free, s.PoolSound s.book.allocator.poolSize free := by
  obtain ⟨free, hpool⟩ := h.pool
  have hlive : ∀ q, q ∈ s.liveOrders ↔ q ∈ s.refs := fun q => List.mem_dedup
  have hdistinct : (s.liveOrders.map (·.ptr)).Nodup := by
    refine List.Nodup.map_on (fun q hq r hr hptr => ?_) (List.nodup_dedup _)
    exact h.inj q ((hlive q).mp hq) r ((hlive r).mp hr) hptr
  have halive : ∀ a, (∃ o, s.book.allocator.object? a = some o) ↔
      a ∈ s.liveOrders.map (·.ptr) := by
    intro a
    rw [List.mem_map]
    constructor
    · rintro ⟨o, ho⟩
      obtain ⟨q, hq, hqa⟩ := h.owned a o ho
      exact ⟨q, (hlive q).mpr hq, hqa⟩
    · rintro ⟨q, hq, rfl⟩
      exact h.live q ((hlive q).mp hq)
  refine ⟨free, hpool.chain, hpool.nodup, fun q hq hfree => ?_, hdistinct, halive, ?_, ?_⟩
  · obtain ⟨o, ho⟩ := h.live q ((hlive q).mp hq)
    exact hpool.object_not_free ho hfree
  · rintro a (ha | ha)
    · exact hpool.free_block ha
    · obtain ⟨o, ho⟩ := (halive a).mpr ha
      exact hpool.object_block ho
  · have hcount := hpool.count hdistinct fun a => (halive a).symm
    rwa [List.length_map] at hcount

end System

/-- **No block is handed out twice.** Every interleaving of calls on a fresh book whose
blocks are as large as an order returns, and leaves the pool sound. -/
theorem run_poolSound {blockSize poolSize : Nat} (fits : L.sizeofOrder ≤ blockSize)
    (hpos : 0 < poolSize) (ops : List (Op P I)) :
    ∃ s t : System P I, OrderBook.fresh L blockSize poolSize = .ok s ∧
      run (Op.step L) ops s = .ok t ∧ ∃ free, t.PoolSound poolSize free := by
  obtain ⟨s, hfresh, hok, hsize, -⟩ := System.fresh_ok (P := P) (I := I) fits hpos
  obtain ⟨t, hrun, hstays⟩ := hok.run ops
  refine ⟨s, t, hfresh, hrun, ?_⟩
  rw [← hsize, ← hstays.poolSize]
  exact hstays.ok.poolSound

/-- The sizes of a 64-bit build. -/
def Layout.lp64 : Layout := ⟨8, 56, by decide, by decide⟩

theorem run_poolSound_fills : ∃ s t : System Int Int, OrderBook.fresh .lp64 56 2 = .ok s ∧
    run (Op.step .lp64) [.addOrder 1 "A" 100 10 true, .addOrder 2 "A" 99 10 false, .matchOrders,
      .reset 0, .deleteOrder 2] s = .ok t ∧ ∃ free, t.PoolSound 2 free :=
  run_poolSound (by decide) (by decide) _

/-- Blocks that only hold a pointer are too small: the first order overwrites the links
of the blocks behind its own. -/
theorem small_blocks_unsound : ∃ s t : System Int Int, OrderBook.fresh .lp64 8 10 = .ok s ∧
    run (Op.step .lp64) [.addOrder 1 "A" 100 10 true] s = .ok t ∧
      ¬ ∃ free, t.PoolSound 10 free := by
  refine ⟨_, _, rfl, rfl, ?_⟩
  rintro ⟨free, hsound⟩
  obtain ⟨x, _, _, _, hx, -⟩ := Memory.Chain.cons_inv (a := 8) hsound.chain
  cases hx

end HftProject.Phase4
