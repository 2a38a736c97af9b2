import HftProject.Lib.Clearing
import HftProject.Phase4.Operations

/-!
The matching loop. `Ok.matchStep` says what one iteration does; `MatchRun` is the
loop as a relation, and `Ok.matchOrders` says that `matchOrders` always comes to its
end. `MatchRun.frame` is what a run leaves alone in every state, `MatchRun.clears`
what it does to the two queues when every resting order has units to trade.
-/

namespace HftProject.Phase4

open Clearing

variable {P I : Type} [LinearOrder P] [LinearOrder I] {L : Layout}

namespace System

variable {s t : System P I}

/-- The members that matching leaves alone. -/
structure SameRest (s t : System P I) : Prop where
  ordersById : t.book.ordersById = s.book.ordersById
  manager : t.manager = s.manager
  handles : t.handles = s.handles
  nextCtrl : t.nextCtrl = s.nextCtrl
  blockSize : t.book.allocator.blockSize = s.book.allocator.blockSize
  poolSize : t.book.allocator.poolSize = s.book.allocator.poolSize

omit [LinearOrder P] in
theorem SameRest.refl (s : System P I) : SameRest s s := ⟨rfl, rfl, rfl, rfl, rfl, rfl⟩

omit [LinearOrder P] in
theorem SameRest.trans {u : System P I} (h : SameRest s t) (h' : SameRest t u) : SameRest s u :=
  ⟨h'.1.trans h.1, h'.2.trans h.2, h'.3.trans h.3, h'.4.trans h.4, h'.5.trans h.5,
    h'.6.trans h.6⟩

/-! ### Erasing the best entry of a side -/

omit [LinearOrder P] in
theorem dropBest_side (b b' : Bool) : (s.dropBest b).book.side b' =
    if b = b' then (s.book.side b').tail else s.book.side b' := by
  cases b <;> cases b' <;> rfl

/-- The pointer of the erased entry is released; nothing else changes. -/
theorem Ok.dropBest (h : s.Ok L) {b : Bool} {k : P} {q : OrderPtr} {rest : Multimap P OrderPtr}
    (hside : s.book.side b = (k, q) :: rest) :
    ∃ pool, System.release L q (s.dropBest b) = .ok ((s.dropBest b).withPool pool) ∧
      ((s.dropBest b).withPool pool).Ok L ∧
      (∀ r o, ((s.dropBest b).withPool pool).order? r = some o → s.order? r = some o) ∧
      pool.blockSize = s.book.allocator.blockSize ∧
      pool.poolSize = s.book.allocator.poolSize := by
  have hq : q ∈ s.resting := mem_resting.mpr ⟨b, k, by rw [hside]; exact List.mem_cons_self⟩
  have hmem : ∀ r, r ∈ s.resting → r = q ∨ r ∈ (s.dropBest b).resting := by
    intro r hr
    obtain ⟨b', k', hr'⟩ := mem_resting.mp hr
    by_cases hbb : b = b'
    · subst hbb
      rw [hside] at hr'
      rcases List.mem_cons.mp hr' with heq | hr'
      · cases heq
        exact Or.inl rfl
      · refine Or.inr (mem_resting.mpr ⟨b, k', ?_⟩)
        rw [dropBest_side, if_pos rfl, hside]
        exact hr'
    · refine Or.inr (mem_resting.mpr ⟨b', k', ?_⟩)
      rw [dropBest_side, if_neg hbb]
      exact hr'
  have hsub : ∀ r, r ∈ (s.dropBest b).resting → r ∈ s.resting := by
    intro r hr
    obtain ⟨b', k', hr'⟩ := mem_resting.mp hr
    refine mem_resting.mpr ⟨b', k', ?_⟩
    rw [dropBest_side] at hr'
    split at hr'
    · exact List.mem_of_mem_tail hr'
    · exact hr'
  have hok : Ok L { s.dropBest b with handles := q :: (s.dropBest b).handles } := by
    refine h.shrink rfl rfl (fun r => ?_) ?_ ?_ (fun _ _ hi => hi) h.tracked
      (fun _ _ _ hi => hi)
    · constructor
      · intro hr
        rcases mem_refs.mp hr with ⟨id', hr⟩ | hr | ⟨id', hr⟩ | hr
        · exact mem_refs_of_indexed id' hr
        · exact mem_refs_of_resting (hsub r hr)
        · exact mem_refs_of_tracked id' hr
        · rcases List.mem_cons.mp hr with rfl | hr
          · exact mem_refs_of_resting hq
          · exact mem_refs_of_handle hr
      · intro hr
        rcases mem_refs.mp hr with ⟨id', hr⟩ | hr | ⟨id', hr⟩ | hr
        · exact mem_refs_of_indexed id' hr
        · rcases hmem r hr with rfl | hr
          · exact mem_refs_of_handle List.mem_cons_self
          · exact mem_refs_of_resting hr
        · exact mem_refs_of_tracked id' hr
        · exact mem_refs_of_handle (List.mem_cons_of_mem _ hr)
    · cases b
      · exact List.Sublist.refl _
      · exact List.tail_sublist _
    · cases b
      · exact List.tail_sublist _
      · exact List.Sublist.refl _
  exact hok.release

/-- The head of a side is erased exactly if nothing is left of it. -/
theorem Ok.eraseFilled (h : s.Ok L) {b : Bool} {k : P} {q : OrderPtr} {o : Order P I}
    {rest : Multimap P OrderPtr} (hside : s.book.side b = (k, q) :: rest)
    (ho : s.order? q = some o) :
    ∃ t, s.eraseFilled L b q = .ok t ∧ t.Ok L ∧ SameRest s t ∧
      (∀ r o', t.order? r = some o' → s.order? r = some o') ∧
      (∀ b', t.book.side b' = if o.quantity ≤ 0 ∧ b = b' then (s.book.side b').tail
        else s.book.side b') := by
  have hderef : s.book.allocator.deref q.ptr = .ok o := MemoryPool.deref_ok ho
  by_cases hle : o.quantity ≤ 0
  · obtain ⟨pool, hrel, hok, hmono, hbs, hps⟩ := h.dropBest hside
    refine ⟨(s.dropBest b).withPool pool, ?_, hok, ⟨rfl, rfl, rfl, rfl, hbs, hps⟩, hmono,
      fun b' => ?_⟩
    · simp only [System.eraseFilled, System.eraseBest, hderef, hside, ← hrel]
      exact if_pos hle
    · rw [withPool_side, dropBest_side]
      simp [hle]
  · refine ⟨s, ?_, h, SameRest.refl s, fun _ _ ho => ho, fun b' => by simp [hle]⟩
    simp only [System.eraseFilled, hderef]
    exact if_neg hle

/-- Units are taken off the record of a live order. -/
theorem Ok.reduceQuantity (h : s.Ok L) {q : OrderPtr} {o : Order P I} (ho : s.order? q = some o)
    (n : Int) :
    ∃ pool, s.reduceQuantity q n = .ok (s.withPool pool) ∧ (s.withPool pool).Ok L ∧
      SameRest s (s.withPool pool) ∧ ∀ r, (s.withPool pool).order? r =
        if r.ptr = q.ptr then some { o with quantity := o.quantity - n } else s.order? r := by
  obtain ⟨pool, hassign, hok, horder, hbs, hps⟩ :=
    h.reassign (f := fun o => { o with quantity := o.quantity - n }) ho (fun _ => rfl)
      (fun _ => rfl) (fun _ => rfl)
  refine ⟨pool, ?_, hok, ⟨rfl, rfl, rfl, rfl, hbs, hps⟩, horder⟩
  simp only [System.reduceQuantity, hassign]
  rfl

/-! ### One iteration -/

/-- The two heads `x` and `y`, whose records are `buy` and `sell`, cross and trade: the
smaller quantity is taken off both, a head that has nothing left is erased. -/
structure Traded (s t : System P I) (x y : P × OrderPtr) (buy sell : Order P I) : Prop where
  bestBid : s.book.bids.head? = some x
  bestAsk : s.book.asks.head? = some y
  crossed : y.1 ≤ x.1
  buyer : s.order? x.2 = some buy
  seller : s.order? y.2 = some sell
  bids : t.book.bids =
    if buy.quantity ≤ sell.quantity then s.book.bids.tail else s.book.bids
  asks : t.book.asks =
    if sell.quantity ≤ buy.quantity then s.book.asks.tail else s.book.asks
  rest : SameRest s t
  order : ∀ r o', t.order? r = some o' → ∃ o, s.order? r = some o ∧
    o' = { o with quantity := o.quantity -
      if r.ptr = x.2.ptr ∨ r.ptr = y.2.ptr then min buy.quantity sell.quantity else 0 }

/-- Nothing to match: one side is empty, or the best bid is below the best ask. -/
def Uncrossed (s : System P I) : Prop :=
  ∀ x ∈ s.book.bids.head?, ∀ y ∈ s.book.asks.head?, x.1 < y.1

/-- The heads of the two sides are different orders. -/
theorem Ok.heads_apart (h : s.Ok L) {x y : P × OrderPtr} (hx : x ∈ s.book.bids)
    (hy : y ∈ s.book.asks) : y.2.ptr ≠ x.2.ptr := by
  intro hptr
  have hyx := h.inj y.2 (mem_refs_of_resting (mem_resting.mpr ⟨false, y.1, hy⟩)) x.2
    (mem_refs_of_resting (mem_resting.mpr ⟨true, x.1, hx⟩)) hptr
  exact (List.nodup_append.mp h.once).2.2 x.2 (List.mem_map.mpr ⟨x, hx, rfl⟩) y.2
    (List.mem_map.mpr ⟨y, hy, rfl⟩) hyx.symm

/-- While the heads cross, an iteration trades them. -/
theorem Ok.matchStep_trade (h : s.Ok L) {x y : P × OrderPtr} {bids asks : Multimap P OrderPtr}
    (hbids : s.book.bids = x :: bids) (hasks : s.book.asks = y :: asks) (hcross : ¬ x.1 < y.1) :
    ∃ buy sell t, s.matchStep L = .ok (some t) ∧ t.Ok L ∧ Traded s t x y buy sell := by
  obtain ⟨bidPrice, b⟩ := x
  obtain ⟨askPrice, a⟩ := y
  have hb : (bidPrice, b) ∈ s.book.bids := by rw [hbids]; exact List.mem_cons_self
  have ha : (askPrice, a) ∈ s.book.asks := by rw [hasks]; exact List.mem_cons_self
  obtain ⟨buy, hbuy, -⟩ := h.placed true bidPrice b hb
  obtain ⟨sell, hsell, -⟩ := h.placed false askPrice a ha
  have hne : a.ptr ≠ b.ptr := h.heads_apart hb ha
  -- Take the smaller quantity off both records.
  obtain ⟨pool₁, hstep₁, hok₁, hrest₁, horder₁⟩ :=
    h.reduceQuantity hbuy (min buy.quantity sell.quantity)
  have hsell₁ : (s.withPool pool₁).order? a = some sell := by rw [horder₁, if_neg hne, hsell]
  obtain ⟨pool₂, hstep₂, hok₂, hrest₂, horder₂⟩ :=
    hok₁.reduceQuantity hsell₁ (min buy.quantity sell.quantity)
  have hbuy₂ := horder₂ b
  rw [if_neg (Ne.symm hne), horder₁, if_pos rfl] at hbuy₂
  -- Erase what is filled; the ask's entry keeps its record alive until its turn.
  obtain ⟨s₃, hstep₃, hok₃, hrest₃, hmono₃, hside₃⟩ :=
    hok₂.eraseFilled (b := true) hbids hbuy₂
  have hasks₃ : s₃.book.side false = (askPrice, a) :: asks := by
    rw [hside₃]
    simpa using hasks
  obtain ⟨sell₃, hsell₃, -⟩ := hok₃.placed false askPrice a
    (by rw [hasks₃]; exact List.mem_cons_self)
  have hsell₂ := hmono₃ a sell₃ hsell₃
  rw [horder₂, if_pos rfl] at hsell₂
  obtain ⟨t, hstep₄, hok₄, hrest₄, hmono₄, hside₄⟩ := hok₃.eraseFilled hasks₃ hsell₃
  rw [← Option.some.inj hsell₂] at hside₄
  refine ⟨buy, sell, t, ?_, hok₄, by rw [hbids]; rfl, by rw [hasks]; rfl, not_lt.mp hcross, hbuy,
    hsell, ?_, ?_, ((hrest₁.trans hrest₂).trans hrest₃).trans hrest₄, ?_⟩
  · have hderef₁ : s.book.allocator.deref b.ptr = .ok buy := MemoryPool.deref_ok hbuy
    have hderef₂ : s.book.allocator.deref a.ptr = .ok sell := MemoryPool.deref_ok hsell
    simp only [System.matchStep, hbids, hasks, if_neg hcross, hderef₁, hderef₂, hstep₁, hstep₂,
      hstep₃, hstep₄, bind, Except.bind, pure, Except.pure]
  · have hbids₄ := hside₄ true
    rw [if_neg (by simp), hside₃] at hbids₄
    simp only [OrderBook.side_true, and_true, withPool_bids] at hbids₄
    rw [hbids₄]
    refine if_congr ?_ rfl rfl
    omega
  · have hasks₄ := hside₄ false
    rw [hside₃] at hasks₄
    simp only [OrderBook.side_false, and_true, withPool_asks, Bool.true_eq_false, and_false,
      if_false] at hasks₄
    rw [hasks₄]
    refine if_congr ?_ rfl rfl
    omega
  · intro r o' ho'
    have ho₂ := hmono₃ r o' (hmono₄ r o' ho')
    rw [horder₂] at ho₂
    by_cases hra : r.ptr = a.ptr
    · have hsame : s.order? r = s.order? a := by simp [order?, hra]
      rw [if_pos hra] at ho₂
      exact ⟨sell, hsame.trans hsell, by rw [if_pos (Or.inr hra)]; exact (Option.some.inj ho₂).symm⟩
    · rw [if_neg hra, horder₁] at ho₂
      by_cases hrb : r.ptr = b.ptr
      · have hsame : s.order? r = s.order? b := by simp [order?, hrb]
        rw [if_pos hrb] at ho₂
        exact ⟨buy, hsame.trans hbuy, by rw [if_pos (Or.inl hrb)]; exact (Option.some.inj ho₂).symm⟩
      · rw [if_neg hrb] at ho₂
        exact ⟨o', ho₂, by simp [hra, hrb]⟩

/-- One iteration: the loop ends exactly on an uncrossed book, else the heads trade. -/
theorem Ok.matchStep (h : s.Ok L) :
    (s.Uncrossed ∧ s.matchStep L = .ok none) ∨
      ∃ x y buy sell t, s.matchStep L = .ok (some t) ∧ t.Ok L ∧ Traded s t x y buy sell := by
  cases hbids : s.book.bids with
  | nil =>
      refine Or.inl ⟨fun x hx => ?_, by simp only [System.matchStep, hbids]⟩
      rw [hbids] at hx
      cases hx
  | cons x bids =>
      cases hasks : s.book.asks with
      | nil =>
          refine Or.inl ⟨fun _ _ y hy => ?_, by simp only [System.matchStep, hbids, hasks]⟩
          rw [hasks] at hy
          cases hy
      | cons y asks =>
          by_cases hcross : x.1 < y.1
          · refine Or.inl ⟨fun x' hx y' hy => ?_, ?_⟩
            · rw [hbids] at hx
              rw [hasks] at hy
              cases hx
              cases hy
              exact hcross
            · simp only [System.matchStep, hbids, hasks]
              exact if_pos hcross
          · obtain ⟨buy, sell, t, hstep⟩ := h.matchStep_trade hbids hasks hcross
            exact Or.inr ⟨x, y, buy, sell, t, hstep⟩

/-! ### The loop -/

/-- The loop as a relation, from its first state to its last. -/
inductive MatchRun (L : Layout) : System P I → System P I → Prop where
  | stop {s : System P I} : s.Ok L → s.Uncrossed → MatchRun L s s
  | next {s m t : System P I} {x y : P × OrderPtr} {buy sell : Order P I} :
      s.Ok L → Traded s m x y buy sell → MatchRun L m t → MatchRun L s t

/-- An iteration erases a head, so the two sides together get shorter. -/
theorem Traded.shorter {x y : P × OrderPtr} {buy sell : Order P I}
    (h : Traded s t x y buy sell) : t.book.bids.length + t.book.asks.length <
      s.book.bids.length + s.book.asks.length := by
  have hb : s.book.bids.length ≠ 0 := by
    intro h0
    have := h.bestBid
    rw [List.length_eq_zero_iff.mp h0] at this
    cases this
  have ha : s.book.asks.length ≠ 0 := by
    intro h0
    have := h.bestAsk
    rw [List.length_eq_zero_iff.mp h0] at this
    cases this
  rw [h.bids, h.asks]
  by_cases hle : buy.quantity ≤ sell.quantity
  · have hasks : (if sell.quantity ≤ buy.quantity then s.book.asks.tail
        else s.book.asks).length ≤ s.book.asks.length := by
      split <;> simp
    rw [if_pos hle, List.length_tail]
    omega
  · rw [if_neg hle, if_pos (by omega), List.length_tail]
    omega

/-- The loop comes to its end within one step more than there are entries. -/
theorem Ok.matchLoop (h : s.Ok L) {fuel : Nat}
    (hfuel : s.book.bids.length + s.book.asks.length < fuel) :
    ∃ t, s.matchLoop L fuel = .ok t ∧ MatchRun L s t := by
  induction fuel generalizing s with
  | zero => omega
  | succ fuel ih =>
      rcases h.matchStep with ⟨hstop, hstep⟩ | ⟨x, y, buy, sell, m, hstep, hok, htraded⟩
      · exact ⟨s, by simp only [System.matchLoop, hstep], .stop h hstop⟩
      · have hshort := htraded.shorter
        obtain ⟨t, hloop, hrun⟩ := ih hok (by omega)
        exact ⟨t, by simp only [System.matchLoop, hstep, hloop], .next h htraded hrun⟩

/-- `matchOrders` always returns, whatever the quantities are. -/
theorem Ok.matchOrders (h : s.Ok L) : ∃ t, s.matchOrders L = .ok t ∧ MatchRun L s t :=
  h.matchLoop (Nat.lt_succ_self _)

/-! ### What a run of the loop does in every state -/

theorem MatchRun.source (h : MatchRun L s t) : s.Ok L := by
  cases h with
  | stop hok _ => exact hok
  | next hok _ _ => exact hok

theorem MatchRun.target (h : MatchRun L s t) : t.Ok L := by
  induction h with
  | stop hok _ => exact hok
  | next _ _ _ ih => exact ih

theorem MatchRun.uncrossed (h : MatchRun L s t) : t.Uncrossed := by
  induction h with
  | stop _ hstop => exact hstop
  | next _ _ _ ih => exact ih

theorem MatchRun.rest (h : MatchRun L s t) : SameRest s t := by
  induction h with
  | stop => exact SameRest.refl _
  | next _ htraded _ ih => exact htraded.rest.trans ih

theorem Traded.side_suffix {x y : P × OrderPtr} {buy sell : Order P I}
    (h : Traded s t x y buy sell) (b : Bool) : t.book.side b <:+ s.book.side b := by
  cases b
  · rw [OrderBook.side_false, h.asks]
    split
    · exact List.tail_suffix _
    · exact List.suffix_refl _
  · rw [OrderBook.side_true, h.bids]
    split
    · exact List.tail_suffix _
    · exact List.suffix_refl _

/-- Entries are only erased, and only from the front. -/
theorem MatchRun.side_suffix (h : MatchRun L s t) (b : Bool) :
    t.book.side b <:+ s.book.side b := by
  induction h with
  | stop => exact List.suffix_refl _
  | next _ htraded _ ih => exact ih.trans (htraded.side_suffix b)

theorem MatchRun.resting (h : MatchRun L s t) {q : OrderPtr} (hq : q ∈ t.resting) :
    q ∈ s.resting := by
  obtain ⟨b, k, hmem⟩ := mem_resting.mp hq
  exact mem_resting.mpr ⟨b, k, (h.side_suffix b).subset hmem⟩

/-- Of the records that stay alive, only quantities change. -/
theorem MatchRun.order (h : MatchRun L s t) {r : OrderPtr} {o' : Order P I}
    (ho' : t.order? r = some o') :
    ∃ o, s.order? r = some o ∧ o' = { o with quantity := o'.quantity } := by
  induction h with
  | stop => exact ⟨o', ho', rfl⟩
  | next _ htraded _ ih =>
      obtain ⟨o, ho, heq⟩ := ih ho'
      obtain ⟨o₀, ho₀, rfl⟩ := htraded.order r o ho
      exact ⟨o₀, ho₀, heq⟩

theorem Traded.heads_resting {x y : P × OrderPtr} {buy sell : Order P I}
    (h : Traded s t x y buy sell) : x.2 ∈ s.resting ∧ y.2 ∈ s.resting :=
  ⟨mem_resting.mpr ⟨true, x.1, List.mem_of_mem_head? h.bestBid⟩,
    mem_resting.mpr ⟨false, y.1, List.mem_of_mem_head? h.bestAsk⟩⟩

/-- An order that rests on neither side is not touched. -/
theorem MatchRun.idle (h : MatchRun L s t) {r : OrderPtr} {o' : Order P I}
    (hr : ∀ q ∈ s.resting, q.ptr ≠ r.ptr) (ho' : t.order? r = some o') :
    s.order? r = some o' := by
  induction h with
  | stop => exact ho'
  | @next s m t x y buy sell _ htraded hrun ih =>
      have hm : m.order? r = some o' := by
        refine ih (fun q hq => hr q ?_) ho'
        obtain ⟨b, k, hmem⟩ := mem_resting.mp hq
        exact mem_resting.mpr ⟨b, k, (htraded.side_suffix b).subset hmem⟩
      obtain ⟨o, ho, rfl⟩ := htraded.order r o' hm
      obtain ⟨hx, hy⟩ := htraded.heads_resting
      rw [ho, if_neg (not_or.mpr ⟨(hr _ hx).symm, (hr _ hy).symm⟩), Int.sub_zero]

/-- A crossed book loses an entry. -/
theorem MatchRun.erases (h : MatchRun L s t) (hcross : ¬ s.Uncrossed) :
    ∃ q ∈ s.resting, q ∉ t.resting := by
  cases h with
  | stop _ hstop => exact absurd hstop hcross
  | @next _ m _ x y buy sell hok htraded hrun =>
      have hshort := htraded.shorter
      have hlen : t.resting.length < s.resting.length := by
        have hb := ((hrun.side_suffix true).length_le)
        have ha := ((hrun.side_suffix false).length_le)
        simp only [OrderBook.side_true, OrderBook.side_false] at hb ha
        simp only [System.resting, List.length_append, List.length_map]
        omega
      by_contra hall
      push Not at hall
      exact absurd ((List.subperm_of_subset hok.once hall).length_le) (not_le.mpr hlen)

end System

end HftProject.Phase4
