import HftProject.Phase4.Runs

/-!
What a call that has returned did, whatever state it was made in: it left the system alone, or it
changed the containers and at most one pointer was let go.
-/

namespace HftProject.Phase4

open Run

variable {P I : Type} [LinearOrder I] {L : Layout}

namespace System

variable {s t : System P I} {id : I} {n : Int} {r : Bool}

theorem mem_of_getElem? {q : OrderPtr} (h : s.manager.orders[id]? = some q) :
    id ∈ s.manager.orders := by
  rw [Std.ExtTreeMap.mem_iff_isSome_getElem?, h]
  rfl

theorem order?_of_deref {q : OrderPtr} {o : Order P I}
    (h : s.book.allocator.deref q.ptr = .ok o) : s.order? q = some o := by
  rw [MemoryPool.deref] at h
  split at h
  · rename_i o' ho'
    cases h
    exact ho'
  · cases h

/-- A pointer that is let go leaves everything alone, or takes its order out of the pool. -/
theorem release_inv {q : OrderPtr} (h : release L q s = .ok t) :
    t = s ∨ ∃ pool pool', s.book.allocator.destruct q.ptr = .ok pool ∧
      pool.deallocate L (some q.ptr) = .ok pool' ∧ t = s.withPool pool' := by
  rw [release] at h
  split at h
  · cases h
    exact .inl rfl
  · obtain ⟨pool, hdestruct, h⟩ := except_bind_inv h
    obtain ⟨pool', hdeallocate, h⟩ := except_bind_inv h
    cases h
    exact .inr ⟨pool, pool', hdestruct, hdeallocate, rfl⟩

/-- The manager leaves a null pointer or a known id alone, or takes the pointer over. -/
theorem track_inv {handle : Option OrderPtr} (h : OrderManager.addOrder handle s = .ok (r, t)) :
    (r = false ∧ t = s) ∨
      (r = true ∧ ∃ q o, handle = some q ∧ s.order? q = some o ∧ o.id ∉ s.manager.orders ∧
        t = { s with manager :=
          { orders := s.manager.orders.insertIfNew o.id q
            states := s.manager.states.insertIfNew o.id .new } }) := by
  cases handle with
  | none =>
      cases h
      exact .inl ⟨rfl, rfl⟩
  | some q =>
      obtain ⟨o, ho, h⟩ := except_bind_inv h
      split at h
      · cases h
        exact .inl ⟨rfl, rfl⟩
      · rename_i hnew
        cases h
        exact .inr ⟨rfl, q, o, rfl, order?_of_deref ho, hnew, rfl⟩

theorem cancelOrder_inv (h : OrderManager.cancelOrder L id s = .ok (r, t)) :
    t = s ∨ ∃ q, s.manager.orders[id]? = some q ∧
      release L q (s.untracked id (s.manager.states.insert id .cancelled)) = .ok t := by
  rw [OrderManager.cancelOrder] at h
  split at h
  · cases h
    exact .inl rfl
  · rename_i q hq
    obtain ⟨t', hrel, hret⟩ := except_bind_inv h
    cases hret
    exact .inr ⟨q, hq, hrel⟩

theorem updateOrderFill_inv (h : OrderManager.updateOrderFill L id n s = .ok (r, t)) :
    t = s ∨ ∃ q, s.manager.orders[id]? = some q ∧
      (release L q (s.untracked id (s.manager.states.insert id .filled)) = .ok t ∨
        t = { s with manager :=
          { s.manager with states := s.manager.states.insert id .partiallyFilled } }) := by
  rw [OrderManager.updateOrderFill] at h
  split at h
  · rename_i q state hq hstate
    split at h
    · cases h
      exact .inl rfl
    · obtain ⟨o, -, h⟩ := except_bind_inv h
      split at h
      · cases h
        exact .inl rfl
      · split at h
        · obtain ⟨t', hrel, hret⟩ := except_bind_inv h
          cases hret
          exact .inr ⟨q, hq, .inl hrel⟩
        · split at h
          · cases h
            exact .inr ⟨q, hq, .inr rfl⟩
          · cases h
            exact .inl rfl
  · cases h
    exact .inl rfl

theorem reset_inv {handle : Option OrderPtr} (h : s.reset L handle = .ok t) :
    t = s ∨ ∃ q, release L q (s.dropped q) = .ok t := by
  cases handle with
  | none =>
      cases h
      exact .inl rfl
  | some q => exact .inr ⟨q, h⟩

/-- The book keeps its pool until the pointer is let go. -/
theorem deleteOrder_inv [LinearOrder P] (h : OrderBook.deleteOrder L id s = .ok (r, t)) :
    t = s ∨ ∃ q book, book.allocator = s.book.allocator ∧
      release L q { s with book := book } = .ok t := by
  rw [OrderBook.deleteOrder] at h
  split at h
  · cases h
    exact .inl rfl
  · obtain ⟨o, -, h⟩ := except_bind_inv h
    obtain ⟨t', hrel, hret⟩ := except_bind_inv h
    cases hret
    refine .inr ⟨_, _, ?_, hrel⟩
    rfl

end System

end HftProject.Phase4
