import HftProject.Phase4.Runs

/-!
`deleteOrder` undoes `addOrder`. A rejected `addOrder` changes nothing. An accepted one, once
the pointer it returned is dropped, is taken back by `deleteOrder`: both sides, the index and
the free list are what they were (`addOrder_undone`).
-/

namespace HftProject.Phase4

variable {P I : Type} [LinearOrder P] [LinearOrder I] {L : Layout}

namespace System

variable {s : System P I}

/-- Following the free list from its head visits exactly these blocks. -/
def FreeList (s : System P I) (free : List Nat) : Prop :=
  Memory.Chain Cell.next s.book.allocator.pool s.book.allocator.freeList free

/-- The state that a run of `addOrder` and `deleteOrder` leaves: the pool may have been written
to, and a control block has been used. -/
def undone (s : System P I) (pool : MemoryPool (Order P I)) : System P I :=
  { s.withPool pool with nextCtrl := s.nextCtrl + 1 }

/-- Taking out the order that was added. -/
theorem removed_added {pool : MemoryPool (Order P I)} {q : OrderPtr} {o : Order P I}
    (hid : o.id ∉ s.book.ordersById) (hnew : ∀ r ∈ s.refs, r.ptr ≠ q.ptr) :
    ((s.added pool q o).dropped q).removed q o = s.undone pool := by
  have hself : OrderBook.isEntryOf o.price q (o.price, q) = true := by
    simp [OrderBook.isEntryOf]
  have hother : ∀ b, ∀ e ∈ s.book.side b, ¬ OrderBook.isEntryOf o.price q e = true := by
    intro b e he hentry
    have href : e.2 ∈ s.refs := mem_refs_of_resting (mem_resting.mpr ⟨b, e.1, he⟩)
    simp only [OrderBook.isEntryOf, Bool.and_eq_true, decide_eq_true_eq] at hentry
    exact hnew e.2 href hentry.2
  have hindex := erase_insertIfNew hid q
  have hbids := Multimap.eraseP_emplace (· > ·) hself (hother true)
  have hasks := Multimap.eraseP_emplace (· < ·) hself (hother false)
  simp only [OrderBook.side_true, OrderBook.side_false] at hbids hasks
  cases hb : o.isBuy <;>
    simp [removed, dropped, added, undone, withPool, hb, hindex, hbids, hasks]

omit [LinearOrder P] in
@[simp] theorem undone_refs (s : System P I) (pool : MemoryPool (Order P I)) :
    (s.undone pool).refs = s.refs := rfl

/-- Once the returned pointer is dropped, the index and the sides still hold the order. -/
theorem reset_added {pool : MemoryPool (Order P I)} {q : OrderPtr} {o : Order P I}
    (hid : o.id ∉ s.book.ordersById) :
    (s.added pool q o).reset L (some q) = .ok ((s.added pool q o).dropped q) := by
  have hindexed : ((s.added pool q o).dropped q).book.ordersById[o.id]? = some q := by
    change (s.book.ordersById.insertIfNew o.id q)[o.id]? = _
    rw [getElem?_insertIfNew_new hid, if_pos rfl]
  exact if_pos (mem_refs_of_indexed o.id hindexed)

/-- Deleting it then destroys the order and puts its block back at the head of the free
list. -/
theorem deleteOrder_added {pool : MemoryPool (Order P I)} {q : OrderPtr} {o : Order P I}
    {rest : List Nat} (hid : o.id ∉ s.book.ordersById) (hnew : ∀ r ∈ s.refs, r.ptr ≠ q.ptr)
    (hpool : pool.Ok L rest)
    (hobj : ∀ b, pool.object? b = if b = q.ptr then some o else s.book.allocator.object? b) :
    ∃ pool', OrderBook.deleteOrder L o.id ((s.added pool q o).dropped q) =
        .ok (true, s.undone pool') ∧ pool'.Ok L (q.ptr :: rest) ∧
      ∀ b, pool'.object? b = if b = q.ptr then none else s.book.allocator.object? b := by
  have hself : pool.object? q.ptr = some o := by rw [hobj, if_pos rfl]
  obtain ⟨p₁, p₂, hdestruct, hdeallocate, hok, hobj₂, -, -⟩ := hpool.destruct_deallocate hself
  refine ⟨p₂, ?_, hok, fun b => ?_⟩
  · have hindexed : ((s.added pool q o).dropped q).book.ordersById[o.id]? = some q := by
      change (s.book.ordersById.insertIfNew o.id q)[o.id]? = _
      rw [getElem?_insertIfNew_new hid, if_pos rfl]
    have hderef : ((s.added pool q o).dropped q).book.allocator.deref q.ptr = .ok o :=
      MemoryPool.deref_ok hself
    have hlast : q ∉ (s.undone pool).refs := fun hq => hnew q hq rfl
    have hrelease : System.release L q (s.undone pool) = .ok (s.undone p₂) := by
      rw [System.release, if_neg hlast, orderDeleter]
      change (pool.destruct q.ptr >>= _) = _
      rw [hdestruct]
      change (p₁.deallocate L (some q.ptr) >>= _) = _
      rw [hdeallocate]
      rfl
    rw [← removed_added hid hnew] at hrelease
    simp only [OrderBook.deleteOrder, hindexed, hderef]
    change (do
      let s ← System.release L q (((s.added pool q o).dropped q).removed q o)
      _ : Except Fault _) = _
    rw [hrelease]
    rfl
  · rw [hobj₂, hobj]
    split <;> rfl

end System

/-- **`deleteOrder` undoes `addOrder`.** In every state: `addOrder` returns a null pointer
exactly if the id is known or the free list is empty, and then nothing changes. Otherwise, once
the caller has dropped the pointer, `deleteOrder` succeeds and restores both sides, the index,
the free list and every record. -/
theorem addOrder_undone (s : BookState L P I) (o : Order P I) : ∃ free, s.1.FreeList free ∧
    ((∃ e t, OrderBook.addOrder L o.id o.symbol o.price o.quantity o.isBuy s.1 =
        .ok (.error e, t)) ↔ o.id ∈ s.1.book.ordersById ∨ free = []) ∧
    (∀ e t, OrderBook.addOrder L o.id o.symbol o.price o.quantity o.isBuy s.1 =
        .ok (.error e, t) → t = s.1) ∧
    (¬ (o.id ∈ s.1.book.ordersById ∨ free = []) → ∃ q t u v,
      OrderBook.addOrder L o.id o.symbol o.price o.quantity o.isBuy s.1 = .ok (.ok q, t) ∧
      t.reset L (some q) = .ok u ∧ OrderBook.deleteOrder L o.id u = .ok (true, v) ∧
      v.book.bids = s.1.book.bids ∧ v.book.asks = s.1.book.asks ∧
      v.book.ordersById = s.1.book.ordersById ∧ v.FreeList free ∧
      v.book.allocator.freeList = s.1.book.allocator.freeList ∧ v.manager = s.1.manager ∧
      v.handles = s.1.handles ∧ ∀ r, v.order? r = s.1.order? r) := by
  obtain ⟨free, hpool⟩ := s.2.pool
  refine ⟨free, hpool.chain, ?_⟩
  rcases s.2.addOrder hpool o with ⟨hid, hadd⟩ | ⟨hid, rfl, hadd⟩ |
    ⟨hid, a, rest, pool, rfl, hok, hadd, -, hnew, hobj, -, -⟩
  · refine ⟨iff_of_true ⟨_, _, hadd⟩ (.inl hid), fun e t h => ?_, fun h => absurd (.inl hid) h⟩
    rw [hadd] at h
    cases h
    rfl
  · refine ⟨iff_of_true ⟨_, _, hadd⟩ (.inr rfl), fun e t h => ?_, fun h => absurd (.inr rfl) h⟩
    rw [hadd] at h
    cases h
    rfl
  · have haccepted : ∀ e t, OrderBook.addOrder L o.id o.symbol o.price o.quantity o.isBuy s.1 ≠
        .ok (.error e, t) := by
      intro e t h
      rw [hadd] at h
      cases h
    refine ⟨iff_of_false ?_ ?_, fun e t h => absurd h (haccepted e t), fun _ => ?_⟩
    · rintro ⟨e, t, h⟩
      exact haccepted e t h
    · rintro (h | h)
      · exact hid h
      · cases h
    · obtain ⟨pool', hdelete, hok', hobj'⟩ := System.deleteOrder_added
        (q := ⟨s.1.nextCtrl, a⟩) hid hnew hok hobj
      refine ⟨_, _, _, _, hadd, System.reset_added hid, hdelete, rfl, rfl, rfl, hok'.chain, ?_, rfl,
        rfl, fun r => ?_⟩
      · exact hok'.chain.head.trans hpool.chain.head.symm
      · refine (hobj' r.ptr).trans ?_
        split
        · rename_i hptr
          rw [System.order?, hptr, hpool.free_no_object List.mem_cons_self]
        · rfl

end HftProject.Phase4
