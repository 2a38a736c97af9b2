import HftProject.Lib.Loop
import HftProject.Phase4.Execution
import HftProject.Phase4.Inversion

/-!
Quantities. The matching loop comes to its end whatever quantities the orders have, because
each pass brings one of the two heads to zero or below (`matchOrders_halts`). `updateQuantity`
and matching keep quantities positive, `addOrder` takes any: nothing else makes matching give
units to an order (`stock_kept_iff`).
-/

namespace HftProject.Phase4

open Run

variable {P I : Type} [LinearOrder P] [LinearOrder I] {L : Layout}

namespace System

variable {s t : System P I}

/-! ### The loop of `matchOrders` -/

/-- The entries of both sides. -/
def size (s : System P I) : Nat := s.book.bids.length + s.book.asks.length

/-- Entries are erased from the front of the sides, at least one. -/
structure Erases (s t : System P I) : Prop where
  bids : t.book.bids <:+ s.book.bids
  asks : t.book.asks <:+ s.book.asks
  fewer : t.size < s.size

theorem Traded.erases {x y : P × OrderPtr} {buy sell : Order P I}
    (h : Traded s t x y buy sell) : Erases s t :=
  ⟨h.side_suffix true, h.side_suffix false, h.shorter⟩

/-- The loop through its states is what `matchLoop` computes. -/
theorem matchLoop_of_passes {states : List (System P I)}
    (h : Loop.Passes (System.matchStep L) s states t) {fuel : Nat} (hfuel : states.length < fuel) :
    s.matchLoop L fuel = .ok t := by
  induction h generalizing fuel with
  | exit hexit =>
      cases fuel with
      | zero => cases hfuel
      | succ fuel => simp only [System.matchLoop, hexit]
  | again hpass _ ih =>
      cases fuel with
      | zero => cases hfuel
      | succ fuel =>
          simp only [System.matchLoop, hpass]
          exact ih (Nat.lt_of_succ_lt_succ hfuel)

/-- Where the loop ends, nothing is left to match. -/
theorem Ok.uncrossed_of_exit (h : s.Ok L) (hexit : s.matchStep L = .ok none) : s.Uncrossed := by
  rcases h.matchStep with ⟨hstop, -⟩ | ⟨x, y, buy, sell, m, hstep, -⟩
  · exact hstop
  · cases hstep.symm.trans hexit

omit [LinearOrder I] in
theorem uncrossed_cases {bids asks : Multimap P OrderPtr}
    (h : ∀ x ∈ bids.head?, ∀ y ∈ asks.head?, x.1 < y.1) :
    bids = [] ∨ asks = [] ∨
      ∃ x y, bids.head? = some x ∧ asks.head? = some y ∧ x.1 < y.1 := by
  cases bids with
  | nil => exact .inl rfl
  | cons x bids =>
      cases asks with
      | nil => exact .inr (.inl rfl)
      | cons y asks => exact .inr (.inr ⟨x, y, rfl, rfl, h x rfl y rfl⟩)

end System

/-- `matchOrders` returns from every state, after at most as many passes as there are entries;
each pass erases an entry or more, and the last leaves one side empty or the best bid below the
best ask. -/
theorem matchOrders_halts (s : BookState L P I) : ∃ states t,
    Loop.Passes (System.matchStep L) s.1 states t ∧ s.1.matchOrders L = .ok t ∧
      states.length ≤ s.1.book.bids.length + s.1.book.asks.length ∧
      List.IsChain System.Erases (s.1 :: states) ∧
      (t.book.bids = [] ∨ t.book.asks = [] ∨
        ∃ x y, t.book.bids.head? = some x ∧ t.book.asks.head? = some y ∧ x.1 < y.1) := by
  have hpasses : ∀ s : System P I, s.Ok L → s.matchStep L = .ok none ∨
      ∃ m, s.matchStep L = .ok (some m) ∧ m.Ok L ∧ System.Erases s m := by
    intro s hs
    rcases hs.matchStep with ⟨-, hexit⟩ | ⟨x, y, buy, sell, m, hpass, hok, htraded⟩
    · exact .inl hexit
    · exact .inr ⟨m, hpass, hok, htraded.erases⟩
  obtain ⟨states, t, hrun, hok, hchain, hlength⟩ :=
    Loop.exists_passes hpasses (fun _ _ herases => herases.fewer) s.2
  refine ⟨states, t, hrun, ?_, hlength, hchain, ?_⟩
  · exact System.matchLoop_of_passes hrun (Nat.lt_succ_of_le hlength)
  · exact System.uncrossed_cases (hok.uncrossed_of_exit hrun.target)

/-! ### What a call does to the records -/

section Records

variable {O : Type} {p p' : MemoryPool O} {a b : Nat} {o : O}

theorem object?_of_destruct (h : p.destruct a = .ok p') (ho : p'.object? b = some o) :
    p.object? b = some o := by
  rw [MemoryPool.destruct] at h
  split at h
  · cases h
    rw [MemoryPool.object?_eq_some] at ho ⊢
    change p.pool.clear a b = _ at ho
    by_cases hb : b = a
    · rw [hb, Memory.clear_same] at ho
      cases ho
    · rwa [Memory.clear_other hb] at ho
  · cases h

theorem object?_of_deallocate (h : p.deallocate L (some a) = .ok p')
    (ho : p'.object? b = some o) : p.object? b = some o := by
  obtain ⟨p'', hwrite, hret⟩ := except_bind_inv h
  cases hret
  rw [MemoryPool.write] at hwrite
  split at hwrite
  · cases hwrite
    rw [MemoryPool.object?_eq_some] at ho ⊢
    simp only [Memory.Chunk.store] at ho
    split at ho
    · cases ho
    · split at ho
      · cases ho
      · rename_i hcell
        split at ho
        · cases ho
        · exact hcell.trans ho
  · cases hwrite

end Records

namespace System

variable {s t : System P I}

/-- Every record that is still there is as it was. -/
def KeepsRecords (s t : System P I) : Prop :=
  ∀ r o, t.order? r = some o → s.order? r = some o

omit [LinearOrder P] in
theorem keepsRecords_of_release {q : OrderPtr} (h : release L q s = .ok t) :
    KeepsRecords s t := by
  intro r o ho
  rcases release_inv h with rfl | ⟨pool, pool', hdestruct, hdeallocate, rfl⟩
  · exact ho
  · exact object?_of_destruct hdestruct (object?_of_deallocate hdeallocate ho)

/-- Calls that write no quantity. -/
def WritesNone : Op P I → Prop
  | .addOrder .. => False
  | .updateQuantity .. => False
  | .matchOrders => False
  | _ => True

theorem keepsRecords {op : Op P I} (hop : WritesNone op) (h : op.step L s = .ok t) :
    KeepsRecords s t := by
  have hsame : KeepsRecords s s := fun _ _ ho => ho
  cases op with
  | addOrder id symbol price quantity isBuy => exact hop.elim
  | updateQuantity id n => exact hop.elim
  | matchOrders => exact hop.elim
  | deleteOrder id =>
      obtain ⟨⟨r, t'⟩, hdelete, rfl⟩ := except_map_inv h
      rcases deleteOrder_inv hdelete with rfl | ⟨q, book, hpool, hrel⟩
      · exact hsame
      · intro r o ho
        have hkept := keepsRecords_of_release hrel r o ho
        rwa [order?, hpool] at hkept
  | getOrderById id =>
      cases h
      rw [OrderBook.getOrderById]
      split <;> exact hsame
  | managerAddOrder handle =>
      obtain ⟨⟨added, t'⟩, hadd, rfl⟩ := except_map_inv h
      rcases track_inv hadd with ⟨-, rfl⟩ | ⟨-, q, o, -, -, -, rfl⟩
      · exact hsame
      · exact hsame
  | managerGetOrder id =>
      cases h
      rw [OrderManager.getOrder]
      split <;> exact hsame
  | cancelOrder id =>
      obtain ⟨⟨done, t'⟩, hcancel, rfl⟩ := except_map_inv h
      rcases cancelOrder_inv hcancel with rfl | ⟨q, -, hrel⟩
      · exact hsame
      · have hkept := keepsRecords_of_release hrel
        exact hkept
  | updateOrderFill id n =>
      obtain ⟨⟨done, t'⟩, hfill, rfl⟩ := except_map_inv h
      rcases updateOrderFill_inv hfill with rfl | ⟨q, -, hrel | rfl⟩
      · exact hsame
      · have hkept := keepsRecords_of_release hrel
        exact hkept
      · exact hsame
  | reset handle =>
      rcases reset_inv h with rfl | ⟨q, hrel⟩
      · exact hsame
      · have hkept := keepsRecords_of_release hrel
        exact hkept

/-! ### Positive quantities -/

/-- The call is no `addOrder` that is accepted with a quantity of zero or less. -/
def AddsStock (op : Op P I) (s : System P I) : Prop :=
  ∀ id symbol price quantity isBuy, op = .addOrder id symbol price quantity isBuy →
    id ∉ s.book.ordersById → (∃ block pool, s.book.allocator.allocate = .ok (block, pool)) →
      0 < quantity

/-- The call, if it is `matchOrders`, increases the quantity of no order. -/
def NeverGrows (L : Layout) (op : Op P I) (s : System P I) : Prop :=
  op = .matchOrders → ∀ t, s.matchOrders L = .ok t → ∀ q o o', s.order? q = some o →
    t.order? q = some o' → o'.quantity ≤ o.quantity

/-- Only `addOrder` puts an order into the book. -/
theorem BookStep.resting {op : Op P I} (h : BookStep L s t op)
    (hop : ∀ id symbol price quantity isBuy, op ≠ .addOrder id symbol price quantity isBuy)
    {q : OrderPtr} (hq : q ∈ t.resting) : q ∈ s.resting := by
  cases h with
  | aside _ haside =>
      rw [System.resting, haside.bids, haside.asks] at hq
      exact hq
  | added => exact absurd rfl (hop _ _ _ _ _)
  | @removed id r o pool _ _ _ ht _ =>
      subst ht
      obtain ⟨b, k, hmem⟩ := mem_resting.mp hq
      rw [withPool_side] at hmem
      exact mem_resting.mpr ⟨b, k, (removed_side_sublist r o b).subset hmem⟩
  | matched hrun => exact hrun.resting hq

theorem Stocked.of_keepsRecords (hpos : s.Stocked) (ht : t.Ok L) (hkeeps : KeepsRecords s t)
    (hresting : ∀ q ∈ t.resting, q ∈ s.resting) : t.Stocked := by
  intro q hq
  obtain ⟨o, ho⟩ := ht.live q (mem_refs_of_resting hq)
  have hold := hpos q (hresting q hq)
  rwa [quantity_of_order (hkeeps q o ho), ← quantity_of_order ho] at hold

/-- An accepted order has the quantity it was given; no other quantity changes. -/
theorem Ok.stocked_addOrder (hs : s.Ok L) (hpos : s.Stocked) {o : Order P I}
    (h : (Op.addOrder o.id o.symbol o.price o.quantity o.isBuy).step L s = .ok t) :
    t.Stocked ↔ AddsStock (.addOrder o.id o.symbol o.price o.quantity o.isBuy) s := by
  obtain ⟨free, hpool⟩ := hs.pool
  obtain ⟨⟨r, t'⟩, hadd, rfl⟩ := except_map_inv h
  rcases hs.addOrder hpool o with ⟨hid, heq⟩ | ⟨hid, rfl, heq⟩ |
    ⟨hid, a, rest, pool, rfl, -, heq, hok, hnew, hobj, -, -⟩
  all_goals
    obtain ⟨-, rfl⟩ := Prod.mk.inj (Except.ok.inj (heq.symm.trans hadd))
  · refine ⟨fun _ => ?_, fun _ => hpos⟩
    rintro _ _ _ _ _ ⟨⟩ hunknown
    exact absurd hid hunknown
  · refine ⟨fun _ => ?_, fun _ => hpos⟩
    rintro _ _ _ _ _ ⟨⟩ - ⟨block, pool, halloc⟩
    rw [hpool.allocate_nil] at halloc
    cases halloc
  · have hself : (s.added pool ⟨s.nextCtrl, a⟩ o).quantity ⟨s.nextCtrl, a⟩ = o.quantity := by
      refine quantity_of_order ?_
      change pool.object? a = some o
      rw [hobj, if_pos rfl]
    have hother : ∀ r ∈ s.refs,
        (s.added pool ⟨s.nextCtrl, a⟩ o).quantity r = s.quantity r := by
      intro r hr
      have horder : (s.added pool ⟨s.nextCtrl, a⟩ o).order? r = s.order? r := by
        change pool.object? r.ptr = _
        rw [hobj, if_neg (hnew r hr)]
        rfl
      rw [quantity, quantity, horder]
    have hresting := fun r => (added_resting_perm s pool ⟨s.nextCtrl, a⟩ o).mem_iff (a := r)
    constructor
    · rintro hstocked _ _ _ _ _ ⟨⟩ - -
      rw [← hself]
      exact hstocked _ ((hresting _).mpr List.mem_cons_self)
    · intro hstock r hr
      rcases List.mem_cons.mp ((hresting r).mp hr) with rfl | hold
      · rw [hself]
        obtain ⟨p₁, -, halloc, -⟩ := hpool.allocate_construct o
        exact hstock _ _ _ _ _ rfl hid ⟨a, p₁, halloc⟩
      · rw [hother r (mem_refs_of_resting hold)]
        exact hpos r hold

/-- `updateQuantity` writes positive quantities only. -/
theorem Ok.stocked_updateQuantity (hs : s.Ok L) (hpos : s.Stocked) {id : I} {n : Int}
    (h : (Op.updateQuantity id n : Op P I).step L s = .ok t) : t.Stocked := by
  obtain ⟨⟨r, t'⟩, hupdate, rfl⟩ := except_map_inv h
  cases hid : s.book.ordersById[id]? with
  | none =>
      simp only [OrderBook.updateQuantity, hid] at hupdate
      cases hupdate
      exact hpos
  | some q =>
      by_cases hn : 0 < n
      · obtain ⟨pool, heq, hok, horder, -⟩ := hs.updateQuantity hid hn
        obtain ⟨-, rfl⟩ := Prod.mk.inj (Except.ok.inj (heq.symm.trans hupdate))
        intro r hr
        have hold := hpos r hr
        obtain ⟨o, ho⟩ := hs.live r (mem_refs_of_resting hr)
        by_cases hptr : r.ptr = q.ptr
        · have hnew : (s.withPool pool).order? r = some { o with quantity := n } := by
            rw [horder, if_pos hptr, ho]
            rfl
          rwa [quantity_of_order hnew]
        · have hsame : (s.withPool pool).order? r = s.order? r := by rw [horder, if_neg hptr]
          rwa [quantity, hsame, ← quantity]
      · simp only [OrderBook.updateQuantity, hid, if_pos (not_lt.mp hn)] at hupdate
        cases hupdate
        exact hpos

/-- Every call keeps the quantities of resting orders positive exactly if it adds no order with
a quantity of zero or less. -/
theorem Ok.stocked_step (hs : s.Ok L) (hpos : s.Stocked) {op : Op P I}
    (h : op.step L s = .ok t) : t.Stocked ↔ AddsStock op s := by
  obtain ⟨t', hstep, hdone⟩ := hs.step op
  obtain rfl := Except.ok.inj (hstep.symm.trans h)
  have hnone : WritesNone op → t'.Stocked := fun hop => by
    refine hpos.of_keepsRecords hdone.stays.ok (keepsRecords hop h) fun q hq => ?_
    refine hdone.resting ?_ hq
    rintro id symbol price quantity isBuy rfl
    exact hop
  cases op with
  | addOrder id symbol price quantity isBuy =>
      exact hs.stocked_addOrder hpos (o := ⟨id, symbol, price, quantity, isBuy⟩) h
  | updateQuantity id n =>
      exact iff_of_true (hs.stocked_updateQuantity hpos h) (by rintro _ _ _ _ _ ⟨⟩)
  | matchOrders =>
      cases hdone with
      | aside hop _ => exact absurd rfl hop
      | matched hrun => exact iff_of_true (hrun.stocked hpos) (by rintro _ _ _ _ _ ⟨⟩)
  | deleteOrder id => exact iff_of_true (hnone trivial) (by rintro _ _ _ _ _ ⟨⟩)
  | getOrderById id => exact iff_of_true (hnone trivial) (by rintro _ _ _ _ _ ⟨⟩)
  | managerAddOrder handle => exact iff_of_true (hnone trivial) (by rintro _ _ _ _ _ ⟨⟩)
  | managerGetOrder id => exact iff_of_true (hnone trivial) (by rintro _ _ _ _ _ ⟨⟩)
  | cancelOrder id => exact iff_of_true (hnone trivial) (by rintro _ _ _ _ _ ⟨⟩)
  | updateOrderFill id n => exact iff_of_true (hnone trivial) (by rintro _ _ _ _ _ ⟨⟩)
  | reset handle => exact iff_of_true (hnone trivial) (by rintro _ _ _ _ _ ⟨⟩)

/-- Matching takes units off the orders that rest, and none off the others. -/
theorem Ok.neverGrows (hs : s.Ok L) (hpos : s.Stocked) (op : Op P I) : NeverGrows L op s := by
  rintro - t hmatch q o o' ho ho'
  obtain ⟨t', hmatch', hrun⟩ := hs.matchOrders
  obtain rfl := Except.ok.inj (hmatch'.symm.trans hmatch)
  by_cases hrests : ∃ r ∈ s.resting, r.ptr = q.ptr
  · obtain ⟨r, hr, hptr⟩ := hrests
    have hr' : t'.order? r = some o' := by rw [← ho', order?, order?, hptr]
    have hbounds := hrun.quantity_bounds hpos hr' (hpos r hr).le
    have hro : s.order? r = some o := by rw [← ho, order?, order?, hptr]
    rw [quantity_of_order hr', quantity_of_order hro] at hbounds
    exact hbounds.2
  · have hidle := hrun.idle (fun r hr hptr => hrests ⟨r, hr, hptr⟩) ho'
    obtain rfl := Option.some.inj (hidle.symm.trans ho)
    exact le_refl _

/-! ### A book without blocks -/

/-- The book whose pool has no block: nothing rests, and no order can be added. -/
def empty (blockSize : Nat) : System P I :=
  ⟨⟨⟨blockSize, 0, fun _ => none, some 0⟩, [], [], ∅⟩, ⟨∅, ∅⟩, [], 0⟩

omit [LinearOrder P] in
theorem fresh_empty (L : Layout) (blockSize : Nat) :
    OrderBook.fresh L blockSize 0 = .ok (empty blockSize : System P I) := rfl

theorem empty_step {blockSize : Nat} {op : Op P I} (h : op.step L (empty blockSize) = .ok t) :
    t = empty blockSize := by
  have hbook : ∀ id : I, (empty blockSize : System P I).book.ordersById[id]? = none :=
    fun _ => Std.ExtTreeMap.getElem?_empty
  have hmanager : ∀ id : I, (empty blockSize : System P I).manager.orders[id]? = none :=
    fun _ => Std.ExtTreeMap.getElem?_empty
  cases op with
  | addOrder id symbol price quantity isBuy => cases h
  | deleteOrder id =>
      rw [Op.step, OrderBook.deleteOrder, hbook] at h
      cases h
      rfl
  | updateQuantity id n =>
      rw [Op.step, OrderBook.updateQuantity, hbook] at h
      cases h
      rfl
  | getOrderById id =>
      rw [Op.step, OrderBook.getOrderById, hbook] at h
      cases h
      rfl
  | matchOrders =>
      cases h
      rfl
  | managerAddOrder handle =>
      cases h
      rfl
  | managerGetOrder id =>
      rw [Op.step, OrderManager.getOrder, hmanager] at h
      cases h
      rfl
  | cancelOrder id =>
      rw [Op.step, OrderManager.cancelOrder, hmanager] at h
      cases h
      rfl
  | updateOrderFill id n =>
      rw [Op.step, OrderManager.updateOrderFill, hmanager] at h
      cases h
      rfl
  | reset handle =>
      cases h
      rfl

end System

namespace System

variable {s : System P I}

theorem Ok.always_stocked_iff (hs : s.Ok L) (hpos : s.Stocked) (ops : List (Op P I)) :
    Always (Op.step L) ops s Stocked ↔ Steps (Op.step L) ops s AddsStock := by
  refine always_iff_steps (I := System.Ok L) ?_ ?_ hs hpos
  · intro op m m' hm hgood hadds hstep
    obtain ⟨t, hstep', hdone⟩ := hm.step op
    obtain rfl := Except.ok.inj (hstep'.symm.trans hstep)
    exact ⟨hdone.stays.ok, (hm.stocked_step hgood hstep).mpr hadds⟩
  · intro op m hm hgood hnot
    obtain ⟨t, hstep, -⟩ := hm.step op
    exact ⟨t, hstep, fun hstocked => hnot ((hm.stocked_step hgood hstep).mp hstocked)⟩

theorem Ok.steps_neverGrows (hs : s.Ok L) {ops : List (Op P I)}
    (hstocked : Always (Op.step L) ops s Stocked) :
    Steps (Op.step L) ops s (NeverGrows L) := by
  intro pre op hpre t hrun
  obtain ⟨t', hrun', hstays⟩ := hs.run pre
  obtain rfl := Except.ok.inj (hrun'.symm.trans hrun)
  exact hstays.ok.neverGrows (hstocked pre ((List.prefix_append pre [op]).trans hpre) t' hrun) op

end System

/-- **When quantities stay positive.** Along a run on a fresh book every resting order has a
positive quantity, and no matching increases a quantity, exactly if every `addOrder` that is
accepted is made with a positive quantity. -/
theorem stock_kept_iff {blockSize poolSize : Nat} (fits : L.sizeofOrder ≤ blockSize)
    {s : System P I} (hfresh : OrderBook.fresh L blockSize poolSize = .ok s)
    (ops : List (Op P I)) :
    (Always (Op.step L) ops s System.Stocked ∧ Steps (Op.step L) ops s (System.NeverGrows L)) ↔
      Steps (Op.step L) ops s System.AddsStock := by
  rcases Nat.eq_zero_or_pos poolSize with rfl | hpos
  · obtain rfl := Except.ok.inj ((System.fresh_empty L blockSize).symm.trans hfresh)
    have hstays : ∀ {pre : List (Op P I)} {t : System P I},
        run (Op.step L) pre (System.empty blockSize) = .ok t → t = System.empty blockSize :=
      fun hrun => run_invariant (I := (· = System.empty blockSize))
        (fun op m m' hm hstep => System.empty_step (hm ▸ hstep)) rfl hrun
    refine iff_of_true ⟨fun pre _ t hrun => ?_, fun pre op _ t hrun => ?_⟩ fun pre op _ t hrun => ?_
    · rw [hstays hrun]
      intro q hq
      cases hq
    · rw [hstays hrun]
      rintro - m - q o o' ho
      cases ho
    · rw [hstays hrun]
      rintro id symbol price quantity isBuy - - ⟨block, pool, halloc⟩
      cases halloc
  · obtain ⟨s', hfresh', hok, -, hbids, hasks, -⟩ :=
      System.fresh_ok (P := P) (I := I) (L := L) fits hpos
    obtain rfl := Except.ok.inj (hfresh'.symm.trans hfresh)
    have hstocked : s'.Stocked := by
      intro q hq
      rw [System.resting, hbids, hasks] at hq
      cases hq
    have hiff := hok.always_stocked_iff hstocked ops
    exact ⟨fun h => hiff.mp h.1, fun h => ⟨hiff.mpr h, hok.steps_neverGrows (hiff.mpr h)⟩⟩

theorem stock_kept_sample : ∃ s : System Int Int, OrderBook.fresh .lp64 56 4 = .ok s ∧
    Always (Op.step .lp64) [.addOrder 1 "A" 100 10 true, .matchOrders] s System.Stocked := by
  have fits : Layout.lp64.sizeofOrder ≤ 56 := by decide
  obtain ⟨s, hfresh, -⟩ := System.fresh_ok (P := Int) (I := Int) fits (show 0 < 4 by decide)
  refine ⟨s, hfresh, ((stock_kept_iff fits hfresh _).mpr ?_).1⟩
  refine steps_cons.mpr ⟨?_, fun s' _ => steps_cons.mpr ⟨?_, fun _ _ => steps_nil⟩⟩
  · rintro _ _ _ _ _ ⟨⟩ - -
    decide
  · rintro _ _ _ _ _ ⟨⟩

/-- An order of -5 units is accepted, and matching makes 15 units of the 10 on the other
side. -/
theorem negative_order_creates_volume : ∃ s t u : System Int Int,
    OrderBook.fresh .lp64 56 4 = .ok s ∧
      run (Op.step .lp64) [.addOrder 1 "A" 100 10 true, .addOrder 2 "A" 99 (-5) false] s = .ok t ∧
      ¬ t.Stocked ∧ t.matchOrders .lp64 = .ok u ∧
      ∃ q ∈ t.resting, t.quantity q = 10 ∧ u.quantity q = 15 := by
  refine ⟨_, _, _, rfl, rfl, by decide +kernel, rfl, ⟨0, 0⟩, by decide +kernel, ?_⟩
  decide +kernel

end HftProject.Phase4
