import HftProject.Phase4.Invariant

/-!
What each operation of `OrderBook` and `OrderManager` does in a state that satisfies
`System.Ok`: it returns, its result is the one stated, and the invariant holds
afterwards.
-/

namespace HftProject.Phase4

variable {P I : Type} [LinearOrder P] [LinearOrder I] {L : Layout}

namespace System

variable {s t : System P I}

/-! ### References that come and go without any effect on the book -/

/-- Copying a pointer. -/
theorem Ok.hold (h : s.Ok L) {q : OrderPtr} (hq : q ∈ s.refs) :
    Ok L { s with handles := q :: s.handles } := by
  refine h.shrink rfl rfl (fun r => ?_) (List.Sublist.refl _) (List.Sublist.refl _)
    (fun _ _ hi => hi) h.tracked (fun _ _ _ hi => hi)
  rw [mem_cons_handle_refs]
  constructor
  · rintro (rfl | hr)
    · exact hq
    · exact hr
  · exact Or.inr

/-- The containers after a caller let go of one pointer. -/
def dropped (s : System P I) (q : OrderPtr) : System P I :=
  { s with handles := s.handles.erase q }

/-- A caller lets go of a pointer it holds. -/
theorem Ok.reset (h : s.Ok L) {q : OrderPtr} (hq : q ∈ s.handles) :
    ∃ pool, s.reset L (some q) = .ok ((s.dropped q).withPool pool) ∧
      ((s.dropped q).withPool pool).Ok L ∧
      (∀ r o, ((s.dropped q).withPool pool).order? r = some o → s.order? r = some o) ∧
      pool.blockSize = s.book.allocator.blockSize ∧
      pool.poolSize = s.book.allocator.poolSize := by
  have hperm := List.perm_cons_erase hq
  have hok : Ok L { s with handles := q :: s.handles.erase q } := by
    refine h.shrink rfl rfl (fun r => ?_) (List.Sublist.refl _) (List.Sublist.refl _)
      (fun _ _ hi => hi) h.tracked (fun _ _ _ hi => hi)
    simp only [mem_refs, resting, hperm.mem_iff]
  exact Ok.release (s := s.dropped q) hok

/-! ### `OrderBook::addOrder` -/

/-- The containers after an order was added. -/
def added (s : System P I) (pool : MemoryPool (Order P I)) (q : OrderPtr) (o : Order P I) :
    System P I :=
  { s with
    book :=
      { allocator := pool
        ordersById := s.book.ordersById.insertIfNew o.id q
        bids := if o.isBuy then s.book.bids.emplace (· > ·) o.price q else s.book.bids
        asks := if o.isBuy then s.book.asks else s.book.asks.emplace (· < ·) o.price q }
    handles := q :: s.handles
    nextCtrl := s.nextCtrl + 1 }

theorem mem_added_side {pool : MemoryPool (Order P I)} {q : OrderPtr} {o : Order P I} {b : Bool}
    {e : P × OrderPtr} : e ∈ (s.added pool q o).book.side b ↔
      (b = o.isBuy ∧ e = (o.price, q)) ∨ e ∈ s.book.side b := by
  cases hb : o.isBuy <;> cases b <;> simp [added, hb, OrderBook.side]

theorem added_resting_perm (s : System P I) (pool : MemoryPool (Order P I)) (q : OrderPtr)
    (o : Order P I) : (s.added pool q o).resting.Perm (q :: s.resting) := by
  cases hb : o.isBuy with
  | true =>
      have hperm := (Multimap.emplace_perm (· > ·) o.price q s.book.bids).map (·.2)
      simpa [resting, added, hb] using hperm.append_right _
  | false =>
      have hperm := (Multimap.emplace_perm (· < ·) o.price q s.book.asks).map (·.2)
      have := (hperm.append_left (s.book.bids.map (·.2)))
      simpa [resting, added, hb] using this.trans List.perm_middle

theorem added_ordersById {pool : MemoryPool (Order P I)} {q : OrderPtr} {o : Order P I}
    (hid : o.id ∉ s.book.ordersById) (id : I) :
    (s.added pool q o).book.ordersById[id]? =
      if o.id = id then some q else s.book.ordersById[id]? :=
  getElem?_insertIfNew_new hid id q

theorem mem_added_refs {pool : MemoryPool (Order P I)} {q : OrderPtr} {o : Order P I}
    (hid : o.id ∉ s.book.ordersById) {r : OrderPtr} :
    r ∈ (s.added pool q o).refs ↔ r = q ∨ r ∈ s.refs := by
  have hresting : r ∈ (s.added pool q o).resting ↔ r = q ∨ r ∈ s.resting := by
    rw [(added_resting_perm s pool q o).mem_iff, List.mem_cons]
  have hindex : (∃ id : I, (s.added pool q o).book.ordersById[id]? = some r) ↔
      r = q ∨ ∃ id : I, s.book.ordersById[id]? = some r := exists_insertIfNew_new hid
  rw [mem_refs, mem_refs, hresting, hindex]
  by_cases hrq : r = q
  · simp [hrq]
  · simp [hrq, added]

theorem Ok.added_bidsSorted (h : s.Ok L) (pool : MemoryPool (Order P I)) (q : OrderPtr)
    (o : Order P I) : Multimap.Sorted (· > ·) (s.added pool q o).book.bids := by
  change Multimap.Sorted (· > ·) (if o.isBuy then _ else _)
  split
  · exact h.bidsSorted.emplace (fun _ _ => lt_asymm) Multimap.negTrans_gt _ _
  · exact h.bidsSorted

theorem Ok.added_asksSorted (h : s.Ok L) (pool : MemoryPool (Order P I)) (q : OrderPtr)
    (o : Order P I) : Multimap.Sorted (· < ·) (s.added pool q o).book.asks := by
  change Multimap.Sorted (· < ·) (if o.isBuy then _ else _)
  split
  · exact h.asksSorted
  · exact h.asksSorted.emplace (fun _ _ => lt_asymm) Multimap.negTrans_lt _ _

/-- The new entry stands behind the entries of its price, and its control block is the
newest. -/
theorem Ok.added_arrival (h : s.Ok L) (pool : MemoryPool (Order P I)) {q : OrderPtr}
    (o : Order P I) (hctrl : q.ctrl = s.nextCtrl) (b : Bool) :
    ((s.added pool q o).book.side b).Pairwise fun e f => e.1 = f.1 → e.2.ctrl < f.2.ctrl := by
  have hold : ∀ e ∈ s.book.side b, e.2.ctrl < q.ctrl := by
    intro e he
    rw [hctrl]
    exact h.old _ (mem_refs_of_resting (mem_resting.mpr ⟨b, e.1, he⟩))
  cases b with
  | true =>
      change List.Pairwise _ (if o.isBuy then _ else _ : Multimap P OrderPtr)
      split
      · exact Multimap.pairwise_emplace Multimap.negTrans_gt h.bidsSorted (h.arrival true)
          (fun e he _ _ => hold e he) (fun e _ hlt heq => absurd heq (ne_of_gt hlt))
      · exact h.arrival true
  | false =>
      change List.Pairwise _ (if o.isBuy then _ else _ : Multimap P OrderPtr)
      split
      · exact h.arrival false
      · exact Multimap.pairwise_emplace Multimap.negTrans_lt h.asksSorted (h.arrival false)
          (fun e he _ _ => hold e he) (fun e _ hlt heq => absurd heq (ne_of_lt hlt))

/-- Adding an order whose id is unknown, in a block that no reference points to. -/
theorem Ok.added (h : s.Ok L) {free : List Nat} {pool : MemoryPool (Order P I)} {q : OrderPtr}
    {o : Order P I} (hid : o.id ∉ s.book.ordersById) (hctrl : q.ctrl = s.nextCtrl)
    (hpool : pool.Ok L free) (hnew : ∀ r ∈ s.refs, r.ptr ≠ q.ptr)
    (hobj : ∀ a, pool.object? a = if a = q.ptr then some o else s.book.allocator.object? a) :
    (s.added pool q o).Ok L := by
  have horder : ∀ r ∈ s.refs, (s.added pool q o).order? r = s.order? r := by
    intro r hr
    change pool.object? r.ptr = _
    rw [hobj, if_neg (hnew r hr)]
    rfl
  have hself : (s.added pool q o).order? q = some o := by
    change pool.object? q.ptr = _
    rw [hobj, if_pos rfl]
  have hnot : q ∉ s.refs := fun hq => hnew q hq rfl
  refine ⟨⟨free, hpool⟩, ?_, ?_, ?_, ?_, h.added_bidsSorted pool q o, h.added_asksSorted pool q o,
    h.added_arrival pool o hctrl, ?_, ?_, ?_, ?_⟩
  · intro r hr
    rcases (mem_added_refs hid).mp hr with rfl | hr
    · exact ⟨o, hself⟩
    · rw [horder r hr]
      exact h.live r hr
  · intro a o' ho'
    have ho'' : pool.object? a = some o' := ho'
    rw [hobj] at ho''
    by_cases ha : a = q.ptr
    · exact ⟨q, (mem_added_refs hid).mpr (Or.inl rfl), ha.symm⟩
    · rw [if_neg ha] at ho''
      obtain ⟨r, hr, hra⟩ := h.owned a o' ho''
      exact ⟨r, (mem_added_refs hid).mpr (Or.inr hr), hra⟩
  · intro r hr r' hr' hptr
    rcases (mem_added_refs hid).mp hr with heq | hr <;>
      rcases (mem_added_refs hid).mp hr' with heq' | hr'
    · rw [heq, heq']
    · exact absurd (by rw [← hptr, heq]) (hnew r' hr')
    · exact absurd (by rw [hptr, heq']) (hnew r hr)
    · exact h.inj r hr r' hr' hptr
  · intro r hr
    change r.ctrl < s.nextCtrl + 1
    rcases (mem_added_refs hid).mp hr with rfl | hr
    · omega
    · have := h.old r hr
      omega
  · rw [(added_resting_perm s pool q o).nodup_iff, List.nodup_cons]
    exact ⟨fun hq => hnot (mem_refs_of_resting hq), h.once⟩
  · intro b k r hmem
    rcases mem_added_side.mp hmem with ⟨rfl, heq⟩ | hmem
    · cases heq
      exact ⟨o, hself, rfl, rfl, by rw [added_ordersById hid, if_pos rfl]⟩
    · obtain ⟨o', ho', hk, hb, hidx⟩ := h.placed b k r hmem
      have hr : r ∈ s.refs := mem_refs_of_resting (mem_resting.mpr ⟨b, k, hmem⟩)
      refine ⟨o', by rw [horder r hr, ho'], hk, hb, ?_⟩
      rw [added_ordersById hid, if_neg (ne_of_not_mem hid hidx), hidx]
  · intro id r hr
    rw [added_ordersById hid] at hr
    split at hr
    · rename_i heq
      cases hr
      exact ⟨o, hself, heq⟩
    · rw [horder r (mem_refs_of_indexed _ hr)]
      exact h.indexed id r hr
  · intro id r hr
    rw [horder r (mem_refs_of_tracked _ hr)]
    exact h.tracked id r hr

/-- Everything `addOrder` can do: reject a known id, find the free list empty, or add
the order in the block at the head of the free list. -/
theorem Ok.addOrder (h : s.Ok L) {free : List Nat} (hpool : s.book.allocator.Ok L free)
    (o : Order P I) :
    (o.id ∈ s.book.ordersById ∧
      OrderBook.addOrder L o.id o.symbol o.price o.quantity o.isBuy s =
        .ok (.error (.duplicateId o.id), s)) ∨
    (o.id ∉ s.book.ordersById ∧ free = [] ∧
      OrderBook.addOrder L o.id o.symbol o.price o.quantity o.isBuy s =
        .ok (.error .poolExhausted, s)) ∨
    (o.id ∉ s.book.ordersById ∧ ∃ a rest pool, free = a :: rest ∧ pool.Ok L rest ∧
      OrderBook.addOrder L o.id o.symbol o.price o.quantity o.isBuy s =
        .ok (.ok ⟨s.nextCtrl, a⟩, s.added pool ⟨s.nextCtrl, a⟩ o) ∧
      (s.added pool ⟨s.nextCtrl, a⟩ o).Ok L ∧
      (∀ r ∈ s.refs, r.ptr ≠ a) ∧
      (∀ b, pool.object? b = if b = a then some o else s.book.allocator.object? b) ∧
      pool.blockSize = s.book.allocator.blockSize ∧
      pool.poolSize = s.book.allocator.poolSize) := by
  by_cases hid : o.id ∈ s.book.ordersById
  · exact Or.inl ⟨hid, by simp [OrderBook.addOrder, hid]⟩
  · right
    cases free with
    | nil =>
        left
        exact ⟨hid, rfl, by simp [OrderBook.addOrder, hid, hpool.allocate_nil]⟩
    | cons a rest =>
        right
        obtain ⟨p₁, p₂, halloc, hcons, hok, hobj, hbs, hps⟩ := hpool.allocate_construct o
        have hnew : ∀ r ∈ s.refs, r.ptr ≠ a := by
          intro r hr hra
          obtain ⟨o', ho'⟩ := h.live r hr
          have hobj' : s.book.allocator.object? r.ptr = some o' := ho'
          rw [hra] at hobj'
          exact hpool.object_not_free hobj' List.mem_cons_self
        refine ⟨hid, a, rest, p₂, rfl, hok, ?_, h.added hid rfl hok hnew hobj, hnew, hobj, hbs, hps⟩
        simp only [OrderBook.addOrder, hid, if_false, halloc]
        change (do let pool ← p₁.construct L a o; _ : Except Fault _) = _
        rw [hcons]
        rfl

/-! ### `OrderBook::deleteOrder` -/

/-- The containers after the entries of `q`, known as `o`, were erased. -/
def removed (s : System P I) (q : OrderPtr) (o : Order P I) : System P I :=
  { s with book := { s.book with
      ordersById := s.book.ordersById.erase o.id
      bids := if o.isBuy then s.book.bids.eraseP (OrderBook.isEntryOf o.price q) else s.book.bids
      asks := if o.isBuy then s.book.asks
        else s.book.asks.eraseP (OrderBook.isEntryOf o.price q) } }

theorem removed_ordersById (q : OrderPtr) (o : Order P I) (id : I) :
    (s.removed q o).book.ordersById[id]? =
      if o.id = id then none else s.book.ordersById[id]? :=
  getElem?_erase_eq _ _ _

theorem removed_side (q : OrderPtr) (o : Order P I) (b : Bool) :
    (s.removed q o).book.side b =
      if b = o.isBuy then (s.book.side b).eraseP (OrderBook.isEntryOf o.price q)
      else s.book.side b := by
  cases hb : o.isBuy <;> cases b <;> simp [removed, hb, OrderBook.side]

theorem removed_side_sublist (q : OrderPtr) (o : Order P I) (b : Bool) :
    ((s.removed q o).book.side b).Sublist (s.book.side b) := by
  rw [removed_side]
  split
  · exact List.eraseP_sublist
  · exact List.Sublist.refl _

/-- The pointers of each side occur once. -/
theorem Ok.side_once (h : s.Ok L) (b : Bool) : ((s.book.side b).map (·.2)).Nodup := by
  have hsplit := List.nodup_append.mp h.once
  cases b
  · exact hsplit.2.1
  · exact hsplit.1

/-- The erased entry is the only one of `q`. -/
theorem Ok.isEntryOf_iff (h : s.Ok L) {q : OrderPtr} {o : Order P I} (hq : q ∈ s.refs)
    (ho : s.order? q = some o) {b : Bool} {e : P × OrderPtr} (he : e ∈ s.book.side b) :
    OrderBook.isEntryOf o.price q e = true ↔ e.2 = q := by
  obtain ⟨k, r⟩ := e
  have hr : r ∈ s.refs := mem_refs_of_resting (mem_resting.mpr ⟨b, k, he⟩)
  simp only [OrderBook.isEntryOf, Bool.and_eq_true, decide_eq_true_eq]
  constructor
  · rintro ⟨-, hptr⟩
    exact h.inj r hr q hq hptr
  · rintro rfl
    obtain ⟨o', ho', hk, -⟩ := h.placed b k r he
    rw [ho] at ho'
    cases ho'
    exact ⟨hk.symm, rfl⟩

/-- After the erasure an order rests exactly if it did before and is not `q`. -/
theorem Ok.mem_removed_side (h : s.Ok L) {q : OrderPtr} {o : Order P I} (hq : q ∈ s.refs)
    (ho : s.order? q = some o) {b : Bool} {k : P} {r : OrderPtr} :
    (k, r) ∈ (s.removed q o).book.side b ↔ (k, r) ∈ s.book.side b ∧ r ≠ q := by
  rw [removed_side]
  by_cases hb : b = o.isBuy
  · rw [if_pos hb]
    have hvalues := Multimap.eraseP_values (h.side_once b) (v := q)
      (p := OrderBook.isEntryOf o.price q) fun e he => h.isEntryOf_iff hq ho he
    constructor
    · intro hmem
      refine ⟨List.mem_of_mem_eraseP hmem, ?_⟩
      rintro rfl
      have hval : r ∈ ((s.book.side b).eraseP (OrderBook.isEntryOf o.price r)).map (·.2) :=
        List.mem_map.mpr ⟨(k, r), hmem, rfl⟩
      rw [hvalues] at hval
      exact (h.side_once b).not_mem_erase hval
    · rintro ⟨hmem, hne⟩
      refine (List.mem_eraseP_of_neg ?_).mpr hmem
      rw [h.isEntryOf_iff hq ho hmem]
      exact hne
  · rw [if_neg hb]
    refine ⟨fun hmem => ⟨hmem, ?_⟩, fun hmem => hmem.1⟩
    rintro rfl
    obtain ⟨o', ho', -, hside, -⟩ := h.placed b k r hmem
    rw [ho] at ho'
    cases ho'
    exact hb hside.symm

theorem Ok.mem_removed_resting (h : s.Ok L) {q : OrderPtr} {o : Order P I} (hq : q ∈ s.refs)
    (ho : s.order? q = some o) {r : OrderPtr} :
    r ∈ (s.removed q o).resting ↔ r ∈ s.resting ∧ r ≠ q := by
  simp only [mem_resting, h.mem_removed_side hq ho]
  constructor
  · rintro ⟨b, k, hmem, hne⟩
    exact ⟨⟨b, k, hmem⟩, hne⟩
  · rintro ⟨⟨b, k, hmem⟩, hne⟩
    exact ⟨b, k, hmem, hne⟩

/-- The erasure loses no reference but `q`. -/
theorem Ok.mem_removed_refs (h : s.Ok L) {q : OrderPtr} {o : Order P I} (ho : s.order? q = some o)
    (hid : s.book.ordersById[o.id]? = some q) {r : OrderPtr} :
    r = q ∨ r ∈ (s.removed q o).refs ↔ r ∈ s.refs := by
  have hq : q ∈ s.refs := mem_refs_of_indexed _ hid
  by_cases hrq : r = q
  · rw [hrq]
    exact ⟨fun _ => hq, fun _ => Or.inl rfl⟩
  · have hindex : (∃ id : I, (s.removed q o).book.ordersById[id]? = some r) ↔
        ∃ id : I, s.book.ordersById[id]? = some r := exists_erase_iff hid hrq
    have hresting : r ∈ (s.removed q o).resting ↔ r ∈ s.resting := by
      rw [h.mem_removed_resting hq ho]
      exact and_iff_left hrq
    rw [or_iff_right hrq, mem_refs, mem_refs, hindex, hresting]
    rfl

/-- `deleteOrder` on a known id: the entries go and the reference is released. -/
theorem Ok.deleteOrder (h : s.Ok L) {id : I} {q : OrderPtr}
    (hid : s.book.ordersById[id]? = some q) :
    ∃ o pool, s.order? q = some o ∧ o.id = id ∧
      OrderBook.deleteOrder L id s = .ok (true, (s.removed q o).withPool pool) ∧
      ((s.removed q o).withPool pool).Ok L ∧
      (∀ r o', ((s.removed q o).withPool pool).order? r = some o' → s.order? r = some o') ∧
      pool.blockSize = s.book.allocator.blockSize ∧
      pool.poolSize = s.book.allocator.poolSize := by
  obtain ⟨o, ho, rfl⟩ := h.indexed id q hid
  have hq : q ∈ s.refs := mem_refs_of_indexed _ hid
  have hok : Ok L { s.removed q o with handles := q :: (s.removed q o).handles } := by
    refine h.shrink rfl rfl (fun r => ?_) (removed_side_sublist q o true)
      (removed_side_sublist q o false) ?_ h.tracked ?_
    · rw [mem_cons_handle_refs]
      exact h.mem_removed_refs ho hid
    · intro id' r hr
      have hr' : (s.removed q o).book.ordersById[id']? = some r := hr
      rw [removed_ordersById] at hr'
      split at hr'
      · cases hr'
      · exact hr'
    · intro r hr id' hidx
      change (s.removed q o).book.ordersById[id']? = some r
      rw [removed_ordersById, if_neg, hidx]
      rintro rfl
      rw [hid] at hidx
      exact ((h.mem_removed_resting hq ho).mp hr).2 (Option.some.inj hidx).symm
  obtain ⟨pool, hrel, hok', hmono, hbs, hps⟩ := hok.release
  refine ⟨o, pool, ho, rfl, ?_, hok', hmono, hbs, hps⟩
  have hderef : s.book.allocator.deref q.ptr = .ok o := MemoryPool.deref_ok ho
  have hrel' : System.release L q (s.removed q o) = .ok ((s.removed q o).withPool pool) := hrel
  simp only [OrderBook.deleteOrder, hid, hderef]
  change (do let s ← System.release L q (s.removed q o); _ : Except Fault _) = _
  rw [hrel']
  rfl

/-! ### `OrderBook::updateQuantity` -/

/-- `updateQuantity` with a positive quantity on a known id. -/
theorem Ok.updateQuantity (h : s.Ok L) {id : I} {q : OrderPtr}
    (hid : s.book.ordersById[id]? = some q) {n : Int} (hn : 0 < n) :
    ∃ pool, OrderBook.updateQuantity id n s = .ok (true, s.withPool pool) ∧
      (s.withPool pool).Ok L ∧
      (∀ r, (s.withPool pool).order? r = if r.ptr = q.ptr then
        (s.order? r).map fun o => { o with quantity := n } else s.order? r) ∧
      pool.blockSize = s.book.allocator.blockSize ∧
      pool.poolSize = s.book.allocator.poolSize := by
  obtain ⟨o, ho, -⟩ := h.indexed id q hid
  obtain ⟨pool, hassign, hok, horder, hbs, hps⟩ :=
    h.reassign (f := fun o => { o with quantity := n }) ho (fun _ => rfl) (fun _ => rfl)
      (fun _ => rfl)
  refine ⟨pool, ?_, hok, fun r => ?_, hbs, hps⟩
  · simp only [OrderBook.updateQuantity, hid, not_le.mpr hn, if_false, hassign]
    rfl
  · rw [horder]
    by_cases hr : r.ptr = q.ptr
    · have hsame : s.order? r = some o := by
        rw [← ho]
        simp [order?, hr]
      rw [if_pos hr, if_pos hr, hsame]
      rfl
    · rw [if_neg hr, if_neg hr]

/-! ### The manager -/

/-- The containers after the manager forgot `id`. -/
def untracked (s : System P I) (id : I) (states : Std.ExtTreeMap I OrderState) : System P I :=
  { s with manager := { orders := s.manager.orders.erase id, states := states } }

omit [LinearOrder P] in
/-- Forgetting `id` loses no reference but its own. -/
theorem mem_untracked_refs {id : I} {q : OrderPtr} (hid : s.manager.orders[id]? = some q)
    (states : Std.ExtTreeMap I OrderState) {r : OrderPtr} :
    r = q ∨ r ∈ (s.untracked id states).refs ↔ r ∈ s.refs := by
  by_cases hrq : r = q
  · rw [hrq]
    exact ⟨fun _ => mem_refs_of_tracked _ hid, fun _ => Or.inl rfl⟩
  · have htracked : (∃ id' : I, (s.untracked id states).manager.orders[id']? = some r) ↔
        ∃ id' : I, s.manager.orders[id']? = some r := exists_erase_iff hid hrq
    rw [or_iff_right hrq, mem_refs, mem_refs, htracked]
    rfl

/-- Erasing an entry of `OrderManager::orders` and releasing its pointer. -/
theorem Ok.untrack (h : s.Ok L) {id : I} {q : OrderPtr} (hid : s.manager.orders[id]? = some q)
    (states : Std.ExtTreeMap I OrderState) :
    ∃ pool, System.release L q (s.untracked id states) =
        .ok ((s.untracked id states).withPool pool) ∧
      ((s.untracked id states).withPool pool).Ok L ∧
      (∀ r o, ((s.untracked id states).withPool pool).order? r = some o → s.order? r = some o) ∧
      pool.blockSize = s.book.allocator.blockSize ∧
      pool.poolSize = s.book.allocator.poolSize := by
  have hok : Ok L { s.untracked id states with
      handles := q :: (s.untracked id states).handles } := by
    refine h.shrink rfl rfl (fun r => ?_) (List.Sublist.refl _) (List.Sublist.refl _)
      (fun _ _ hi => hi) (fun id' r hr => ?_) (fun _ _ _ hi => hi)
    · rw [mem_cons_handle_refs]
      exact mem_untracked_refs hid states
    · have hr' : (s.manager.orders.erase id)[id']? = some r := hr
      rw [getElem?_erase_eq] at hr'
      split at hr'
      · cases hr'
      · exact h.tracked id' r hr'
  exact hok.release

omit [LinearOrder P] in
/-- A fill of an order whose state is not final, by the quantity of the order. -/
theorem updateOrderFill_eq {id : I} {q : OrderPtr} {o : Order P I} {state : OrderState} {n : Int}
    (hq : s.manager.orders[id]? = some q) (hstate : s.manager.states[id]? = some state)
    (hopen : ¬ (state = .cancelled ∨ state = .filled)) (ho : s.order? q = some o) :
    OrderManager.updateOrderFill L id n s =
      if n < 0 ∨ n > o.quantity then .ok (false, s)
      else if n = o.quantity then
        (fun t => (true, t)) <$>
          System.release L q (s.untracked id (s.manager.states.insert id .filled))
      else if n > 0 then
        .ok (true, { s with manager :=
          { s.manager with states := s.manager.states.insert id .partiallyFilled } })
      else .ok (true, s) := by
  have hderef : s.book.allocator.deref q.ptr = .ok o := MemoryPool.deref_ok ho
  rw [OrderManager.updateOrderFill, hq, hstate]
  simp only [if_neg hopen, hderef]
  rfl

omit [LinearOrder P] in
/-- An order that is not tracked takes no fill. -/
theorem updateOrderFill_gone {id : I} {n : Int} (hgone : id ∉ s.manager.orders) :
    OrderManager.updateOrderFill L id n s = .ok (false, s) := by
  rw [OrderManager.updateOrderFill, Std.ExtTreeMap.getElem?_eq_none hgone]

omit [LinearOrder P] in
/-- The manager takes over a pointer unless it tracks the id. -/
theorem track_eq {q : OrderPtr} {o : Order P I} (ho : s.order? q = some o) :
    OrderManager.addOrder (some q) s =
      if o.id ∈ s.manager.orders then .ok (false, s)
      else .ok (true, { s with manager :=
        { orders := s.manager.orders.insertIfNew o.id q
          states := s.manager.states.insertIfNew o.id .new } }) := by
  rw [OrderManager.addOrder, MemoryPool.deref_ok ho]
  rfl

/-- The manager takes over a pointer that exists. -/
theorem Ok.track (h : s.Ok L) {q : OrderPtr} (hq : q ∈ s.refs) :
    ∃ o, s.order? q = some o ∧
      ((o.id ∈ s.manager.orders ∧ OrderManager.addOrder (some q) s = .ok (false, s)) ∨
        (o.id ∉ s.manager.orders ∧ ∃ t, OrderManager.addOrder (some q) s = .ok (true, t) ∧
          t.Ok L ∧ t.book = s.book ∧ t.handles = s.handles ∧ t.nextCtrl = s.nextCtrl ∧
          t.manager.orders = s.manager.orders.insertIfNew o.id q ∧
          t.manager.states = s.manager.states.insertIfNew o.id .new)) := by
  obtain ⟨o, ho⟩ := h.live q hq
  refine ⟨o, ho, ?_⟩
  by_cases hid : o.id ∈ s.manager.orders
  · exact Or.inl ⟨hid, (track_eq ho).trans (if_pos hid)⟩
  · right
    let t : System P I := { s with manager :=
      { orders := s.manager.orders.insertIfNew o.id q
        states := s.manager.states.insertIfNew o.id .new } }
    have hget : ∀ id' : I, t.manager.orders[id']? =
        if o.id = id' then some q else s.manager.orders[id']? := fun id' =>
      getElem?_insertIfNew_new hid id' q
    have htracked : ∀ r, (∃ id' : I, t.manager.orders[id']? = some r) ↔
        r = q ∨ ∃ id' : I, s.manager.orders[id']? = some r := fun r => exists_insertIfNew_new hid
    refine ⟨hid, t, (track_eq ho).trans (if_neg hid), ?_, rfl, rfl, rfl, rfl, rfl⟩
    · refine h.shrink rfl rfl (fun r => ?_) (List.Sublist.refl _) (List.Sublist.refl _)
        (fun _ _ hi => hi) (fun id' r hr => ?_) (fun _ _ _ hi => hi)
      · have hrefs : r ∈ t.refs ↔ r = q ∨ r ∈ s.refs := by
          rw [mem_refs, mem_refs, htracked]
          change (∃ id' : I, s.book.ordersById[id']? = some r) ∨ r ∈ s.resting ∨ _ ∨
            r ∈ s.handles ↔ _
          by_cases hrq : r = q
          · simp [hrq]
          · simp [hrq]
        rw [hrefs]
        constructor
        · rintro (rfl | hr)
          · exact hq
          · exact hr
        · exact Or.inr
      · rw [hget] at hr
        split at hr
        · rename_i heq
          cases hr
          exact ⟨o, ho, heq⟩
        · exact h.tracked id' r hr

end System

end HftProject.Phase4
