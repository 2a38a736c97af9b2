import HftProject.Phase4.MatchingEngine

/-!
The invariant of a book, a manager and their callers, `System.Ok`, and what each
operation does to it.

`System.Ok` holds in every state the operations reach, whatever their arguments are:
the pool's blocks are either free or hold an order that something refers to, no two
orders share a block, both sides are sorted by price and then by arrival, and an order
rests at most once, on its own side, under its own price, and only while `ordersById`
still knows its id. The
converse, that `ordersById` knows resting orders only, is not part of it: matching
does not keep it.
-/

namespace HftProject.Phase4

variable {P I : Type} [LinearOrder I]

/-! ### Vocabulary -/

namespace System

/-- The pointers in both sides. -/
def resting (s : System P I) : List OrderPtr :=
  s.book.bids.map (·.2) ++ s.book.asks.map (·.2)

theorem mem_resting {s : System P I} {q : OrderPtr} :
    q ∈ s.resting ↔ ∃ b k, (k, q) ∈ s.book.side b := by
  simp [resting, List.mem_append, List.mem_map, or_comm]

theorem mem_refs {s : System P I} {q : OrderPtr} :
    q ∈ s.refs ↔ (∃ id : I, s.book.ordersById[id]? = some q) ∨ q ∈ s.resting ∨
      (∃ id : I, s.manager.orders[id]? = some q) ∨ q ∈ s.handles := by
  simp [refs, resting, List.mem_append, List.mem_map,
    Std.ExtTreeMap.mem_toList_iff_getElem?_eq_some, or_assoc]

theorem mem_refs_of_indexed {s : System P I} (id : I) {q : OrderPtr}
    (h : s.book.ordersById[id]? = some q) : q ∈ s.refs :=
  mem_refs.mpr (Or.inl ⟨id, h⟩)

theorem mem_refs_of_resting {s : System P I} {q : OrderPtr} (h : q ∈ s.resting) : q ∈ s.refs :=
  mem_refs.mpr (Or.inr (Or.inl h))

theorem mem_refs_of_tracked {s : System P I} (id : I) {q : OrderPtr}
    (h : s.manager.orders[id]? = some q) : q ∈ s.refs :=
  mem_refs.mpr (Or.inr (Or.inr (Or.inl ⟨id, h⟩)))

theorem mem_refs_of_handle {s : System P I} {q : OrderPtr} (h : q ∈ s.handles) : q ∈ s.refs :=
  mem_refs.mpr (Or.inr (Or.inr (Or.inr h)))

/-- A handle more is a reference more. -/
theorem mem_cons_handle_refs {s : System P I} {q r : OrderPtr} :
    r ∈ ({ s with handles := q :: s.handles } : System P I).refs ↔ r = q ∨ r ∈ s.refs := by
  simp only [mem_refs, List.mem_cons]
  constructor
  · rintro (h | h | h | rfl | h)
    · exact Or.inr (Or.inl h)
    · exact Or.inr (Or.inr (Or.inl h))
    · exact Or.inr (Or.inr (Or.inr (Or.inl h)))
    · exact Or.inl rfl
    · exact Or.inr (Or.inr (Or.inr (Or.inr h)))
  · rintro (rfl | h | h | h | h)
    · exact Or.inr (Or.inr (Or.inr (Or.inl rfl)))
    · exact Or.inl h
    · exact Or.inr (Or.inl h)
    · exact Or.inr (Or.inr (Or.inl h))
    · exact Or.inr (Or.inr (Or.inr (Or.inr h)))

/-- The same containers over another pool. -/
def withPool (s : System P I) (pool : MemoryPool (Order P I)) : System P I :=
  { s with book := { s.book with allocator := pool } }

@[simp] theorem withPool_bids (s : System P I) (pool : MemoryPool (Order P I)) :
    (s.withPool pool).book.bids = s.book.bids := rfl

@[simp] theorem withPool_asks (s : System P I) (pool : MemoryPool (Order P I)) :
    (s.withPool pool).book.asks = s.book.asks := rfl

@[simp] theorem withPool_side (s : System P I) (pool : MemoryPool (Order P I)) (b : Bool) :
    (s.withPool pool).book.side b = s.book.side b := by
  cases b <;> rfl

variable [LinearOrder P] {L : Layout}

structure Ok (L : Layout) (s : System P I) : Prop where
  pool : ∃ free, s.book.allocator.Ok L free
  live : ∀ q ∈ s.refs, ∃ o, s.order? q = some o
  owned : ∀ a o, s.book.allocator.object? a = some o → ∃ q ∈ s.refs, q.ptr = a
  inj : ∀ q ∈ s.refs, ∀ r ∈ s.refs, q.ptr = r.ptr → q = r
  old : ∀ q ∈ s.refs, q.ctrl < s.nextCtrl
  bidsSorted : Multimap.Sorted (· > ·) s.book.bids
  asksSorted : Multimap.Sorted (· < ·) s.book.asks
  arrival : ∀ b, (s.book.side b).Pairwise fun e f => e.1 = f.1 → e.2.ctrl < f.2.ctrl
  once : s.resting.Nodup
  placed : ∀ b k q, (k, q) ∈ s.book.side b → ∃ o, s.order? q = some o ∧ o.price = k ∧
    o.isBuy = b ∧ s.book.ordersById[o.id]? = some q
  indexed : ∀ (id : I) q, s.book.ordersById[id]? = some q → ∃ o, s.order? q = some o ∧ o.id = id
  tracked : ∀ (id : I) q, s.manager.orders[id]? = some q → ∃ o, s.order? q = some o ∧ o.id = id

variable {s t : System P I}

/-- A resting order is the one `ordersById` knows under its id. -/
theorem Ok.resting_indexed (h : s.Ok L) {q : OrderPtr} (hq : q ∈ s.resting) :
    ∃ o, s.order? q = some o ∧ s.book.ordersById[o.id]? = some q := by
  obtain ⟨b, k, hmem⟩ := mem_resting.mp hq
  obtain ⟨o, ho, -, -, hidx⟩ := h.placed b k q hmem
  exact ⟨o, ho, hidx⟩

/-- Dropping entries and references while the set of references stays the same. -/
theorem Ok.shrink (h : s.Ok L) (hpool : t.book.allocator = s.book.allocator)
    (hctrl : t.nextCtrl = s.nextCtrl) (hrefs : ∀ q, q ∈ t.refs ↔ q ∈ s.refs)
    (hbids : t.book.bids.Sublist s.book.bids) (hasks : t.book.asks.Sublist s.book.asks)
    (hindex : ∀ (id : I) q, t.book.ordersById[id]? = some q → s.book.ordersById[id]? = some q)
    (horders : ∀ (id : I) q, t.manager.orders[id]? = some q → ∃ o, s.order? q = some o ∧ o.id = id)
    (hkeep : ∀ q ∈ t.resting, ∀ id : I, s.book.ordersById[id]? = some q →
      t.book.ordersById[id]? = some q) : t.Ok L := by
  have horder : ∀ q, t.order? q = s.order? q := fun q => by simp [order?, hpool]
  have hside : ∀ b, (t.book.side b).Sublist (s.book.side b) := fun b => by
    cases b
    · exact hasks
    · exact hbids
  refine ⟨by rw [hpool]; exact h.pool, ?_, ?_, ?_, ?_, h.bidsSorted.sublist hbids,
    h.asksSorted.sublist hasks, fun b => (h.arrival b).sublist (hside b), ?_, ?_, ?_, ?_⟩
  · intro q hq
    rw [horder]
    exact h.live q ((hrefs q).mp hq)
  · intro a o ho
    rw [hpool] at ho
    obtain ⟨q, hq, hqa⟩ := h.owned a o ho
    exact ⟨q, (hrefs q).mpr hq, hqa⟩
  · intro q hq r hr
    exact h.inj q ((hrefs q).mp hq) r ((hrefs r).mp hr)
  · intro q hq
    rw [hctrl]
    exact h.old q ((hrefs q).mp hq)
  · exact List.Nodup.sublist (List.Sublist.append (hbids.map _) (hasks.map _)) h.once
  · intro b k q hmem
    obtain ⟨o, ho, hk, hb, hidx⟩ := h.placed b k q ((hside b).subset hmem)
    refine ⟨o, by rw [horder, ho], hk, hb, ?_⟩
    exact hkeep q (mem_resting.mpr ⟨b, k, hmem⟩) o.id hidx
  · intro id q hq
    rw [horder]
    exact h.indexed id q (hindex id q hq)
  · intro id q hq
    rw [horder]
    exact horders id q hq

/-- Another pool, and perhaps fewer handles: every order that is still referred to keeps
its id, price and side, and the pool holds no order but these. -/
theorem Ok.exchange {handles : List OrderPtr} (h : Ok L { s with handles := handles })
    (hsub : ∀ q ∈ s.refs, q ∈ ({ s with handles := handles } : System P I).refs)
    {pool : MemoryPool (Order P I)} (hpool : ∃ free, pool.Ok L free)
    (howned : ∀ a o, pool.object? a = some o → ∃ q ∈ s.refs, q.ptr = a)
    (hkeep : ∀ q ∈ s.refs, ∀ o, s.order? q = some o → ∃ o', pool.object? q.ptr = some o' ∧
      o'.id = o.id ∧ o'.price = o.price ∧ o'.isBuy = o.isBuy) : (s.withPool pool).Ok L := by
  refine ⟨hpool, ?_, howned, ?_, ?_, h.bidsSorted, h.asksSorted, ?_, h.once, ?_, ?_, ?_⟩
  · intro q hq
    obtain ⟨o, ho⟩ := h.live q (hsub q hq)
    obtain ⟨o', ho', -⟩ := hkeep q hq o ho
    exact ⟨o', ho'⟩
  · intro q hq r hr
    exact h.inj q (hsub q hq) r (hsub r hr)
  · intro q hq
    exact h.old q (hsub q hq)
  · intro b
    rw [withPool_side]
    exact h.arrival b
  · intro b k q hmem
    rw [withPool_side] at hmem
    obtain ⟨o, ho, hk, hb, hidx⟩ := h.placed b k q hmem
    obtain ⟨o', ho', hid', hk', hb'⟩ :=
      hkeep q (mem_refs_of_resting (mem_resting.mpr ⟨b, k, hmem⟩)) o ho
    refine ⟨o', ho', hk'.trans hk, hb'.trans hb, ?_⟩
    rw [hid']
    exact hidx
  · intro id q hq
    obtain ⟨o, ho, hid⟩ := h.indexed id q hq
    obtain ⟨o', ho', hid', -⟩ := hkeep q (mem_refs_of_indexed id hq) o ho
    exact ⟨o', ho', hid'.trans hid⟩
  · intro id q hq
    obtain ⟨o, ho, hid⟩ := h.tracked id q hq
    obtain ⟨o', ho', hid', -⟩ := hkeep q (mem_refs_of_tracked id hq) o ho
    exact ⟨o', ho', hid'.trans hid⟩

/-! ### Releasing a reference -/

/-- Letting go of a reference: the containers stay, the order is destroyed only if
nothing refers to it any more. -/
theorem Ok.release {q : OrderPtr} (h : Ok L { s with handles := q :: s.handles }) :
    ∃ pool, s.release L q = .ok (s.withPool pool) ∧ (s.withPool pool).Ok L ∧
      (∀ r o, (s.withPool pool).order? r = some o → s.order? r = some o) ∧
      pool.blockSize = s.book.allocator.blockSize ∧
      pool.poolSize = s.book.allocator.poolSize := by
  by_cases hq : q ∈ s.refs
  · refine ⟨s.book.allocator, by simp [System.release, hq, withPool], ?_, fun r o ho => ho,
      rfl, rfl⟩
    refine h.shrink rfl rfl (fun r => ?_) (List.Sublist.refl _) (List.Sublist.refl _)
      (fun _ _ hi => hi) h.tracked (fun _ _ _ hi => hi)
    rw [mem_cons_handle_refs]
    constructor
    · exact Or.inr
    · rintro (rfl | hr)
      · exact hq
      · exact hr
  · obtain ⟨free, hpool⟩ := h.pool
    have hsub : ∀ r ∈ s.refs, r ∈ ({ s with handles := q :: s.handles } : System P I).refs :=
      fun r hr => mem_cons_handle_refs.mpr (Or.inr hr)
    have hqrefs : q ∈ ({ s with handles := q :: s.handles } : System P I).refs :=
      mem_cons_handle_refs.mpr (Or.inl rfl)
    obtain ⟨o, ho⟩ := h.live q hqrefs
    obtain ⟨p₁, p₂, hdes, hdea, hok, hobj, hbs, hps⟩ := hpool.destruct_deallocate ho
    have hlive : ∀ r ∈ s.refs, r.ptr ≠ q.ptr := by
      intro r hr hptr
      have hrq := h.inj r (hsub r hr) q hqrefs hptr
      exact hq (hrq ▸ hr)
    have hrel : s.release L q = .ok (s.withPool p₂) := by
      have hdes' : s.book.allocator.destruct q.ptr = .ok p₁ := hdes
      simp only [System.release, hq, if_false, orderDeleter, hdes']
      change (do let pool ← p₁.deallocate L (some q.ptr); _ : Except Fault (System P I)) = _
      rw [hdea]
      rfl
    refine ⟨p₂, hrel, ?_, ?_, hbs, hps⟩
    · apply h.exchange hsub ⟨q.ptr :: free, hok⟩
      · intro a o' ho'
        rw [hobj] at ho'
        split at ho'
        · cases ho'
        · rename_i ha
          obtain ⟨r, hr, hra⟩ := h.owned a o' ho'
          rcases mem_cons_handle_refs.mp hr with rfl | hr
          · exact absurd hra.symm ha
          · exact ⟨r, hr, hra⟩
      · intro r hr o' ho'
        refine ⟨o', ?_, rfl, rfl, rfl⟩
        rw [hobj, if_neg (hlive r hr)]
        exact ho'
    · intro r o' ho'
      have ho'' : p₂.object? r.ptr = some o' := ho'
      rw [hobj] at ho''
      split at ho''
      · cases ho''
      · exact ho''

/-! ### Assigning to an order -/

/-- Writing the quantity, or anything but the identity, price and side, of a live
order through one of its references. -/
theorem Ok.reassign (h : s.Ok L) {q : OrderPtr} {o : Order P I} (ho : s.order? q = some o)
    {f : Order P I → Order P I} (hid : ∀ o, (f o).id = o.id) (hprice : ∀ o, (f o).price = o.price)
    (hside : ∀ o, (f o).isBuy = o.isBuy) :
    ∃ pool, s.book.allocator.assign q.ptr f = .ok pool ∧ (s.withPool pool).Ok L ∧
      (∀ r, (s.withPool pool).order? r = if r.ptr = q.ptr then some (f o) else s.order? r) ∧
      pool.blockSize = s.book.allocator.blockSize ∧
      pool.poolSize = s.book.allocator.poolSize := by
  obtain ⟨free, hpool⟩ := h.pool
  obtain ⟨p', hassign, hok, hobj, hbs, hps⟩ := hpool.assign ho f
  refine ⟨p', hassign, ?_, fun r => hobj r.ptr, hbs, hps⟩
  apply Ok.exchange h (fun _ hr => hr) ⟨free, hok⟩
  · intro a o' ho'
    rw [hobj] at ho'
    split at ho'
    · rename_i ha
      exact h.owned a o (by rw [ha]; exact ho)
    · exact h.owned a o' ho'
  · intro r _ o' ho'
    by_cases hr : r.ptr = q.ptr
    · have heq : o' = o := by
        have hsame : s.order? r = s.order? q := by simp [order?, hr]
        rw [hsame, ho] at ho'
        exact (Option.some.inj ho').symm
      rw [heq]
      exact ⟨f o, by rw [hobj, if_pos hr], hid _, hprice _, hside _⟩
    · exact ⟨o', by rw [hobj, if_neg hr]; exact ho', rfl, rfl, rfl⟩

end System

end HftProject.Phase4
