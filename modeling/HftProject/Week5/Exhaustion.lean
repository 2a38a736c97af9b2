import HftProject.Week5.Agreement
import HftProject.Week5.Representation

/-!
A full pool in `phase_5`'s `OptimizedOrderBook`. `allocate` throws before the book is touched, so
an `addOrder` that throws leaves it as it was, and it throws only when every slot holds an active
order. A full book that loses `k` orders has room for `k` others.
-/

namespace HftProject.Week5

variable {P : Type} [LinearOrder P] [Zero P]

/-- `addOrder` with the members of a record for arguments. -/
def Order.addCall (o : Order P) : Op P := .addOrder o.id o.price o.quantity o.isBuy

/-- The record can be added, for all that its members say. -/
def Order.Valid (o : Order P) : Prop := ¬ Invalid o.id o.price o.quantity

omit [LinearOrder P] [Zero P] in
/-- The call ends with a `std::runtime_error`. -/
def Outcome.Throws (r : Outcome P) : Prop := ∃ what, r.exception = some (.runtimeError what)

/-! ### The active orders -/

namespace ActiveOrders

variable {n : Nat} {m : ActiveOrders P}

/-- No active order has the empty id. -/
def NoEmptyId (m : ActiveOrders P) : Prop := "" ∉ m

omit [LinearOrder P] [Zero P] in
theorem NoEmptyId.insert (h : m.NoEmptyId) {id : String} (hid : id ≠ "") (o : Order P) :
    NoEmptyId (Std.ExtTreeMap.insert m id o) := by
  intro hmem
  rcases mem_insert_iff.mp hmem with hsame | hmem
  · exact hid hsame
  · exact h hmem

theorem NoEmptyId.step (h : m.NoEmptyId) (op : Op P) : (m.step op).NoEmptyId := by
  cases op with
  | addOrder id price quantity isBuy =>
      by_cases hidle : Invalid id price quantity ∨ id ∈ m
      · rw [step_add_idle hidle isBuy]
        exact h
      · obtain ⟨hvalid, hnew⟩ := not_or.mp hidle
        rw [step_add hvalid hnew isBuy]
        exact h.insert (fun hempty => hvalid (Or.inl hempty)) _
  | modifyOrder id newPrice newQuantity =>
      by_cases hinvalid : Invalid id newPrice newQuantity
      · rw [step_modify_idle (Or.inl hinvalid)]
        exact h
      · cases ho : m[id]? with
        | none =>
            rw [step_modify_idle (Or.inr ho)]
            exact h
        | some o =>
            rw [step_modify hinvalid ho]
            exact h.insert (fun hempty => hinvalid (Or.inl hempty)) _
  | deleteOrder id =>
      by_cases hempty : id = ""
      · rw [step_delete_idle (Or.inl hempty)]
        exact h
      · rw [step_delete hempty]
        exact fun hmem => h (mem_erase_iff.mp hmem).2

theorem runWithin_cons (n : Nat) (op : Op P) (ops : List (Op P)) (m : ActiveOrders P) :
    m.runWithin n (op :: ops) = (m.stepWithin n op).runWithin n ops := rfl

theorem NoEmptyId.runWithin (h : m.NoEmptyId) (n : Nat) (ops : List (Op P)) :
    (m.runWithin n ops).NoEmptyId := by
  induction ops generalizing m with
  | nil => exact h
  | cons op ops ih =>
      rw [runWithin_cons]
      apply ih
      rw [stepWithin]
      split
      · exact h
      · exact h.step op

/-- Deleting active orders makes room for as many. -/
theorem runWithin_deleted (h : m.NoEmptyId) (hle : m.size ≤ n) {deleted : List String}
    (hnodup : deleted.Nodup) (hactive : ∀ id ∈ deleted, id ∈ m) :
    (m.runWithin n (deleted.map .deleteOrder)).size + deleted.length = m.size := by
  induction deleted generalizing m with
  | nil => rfl
  | cons id deleted ih =>
      obtain ⟨hnot, hnodup'⟩ := List.nodup_cons.mp hnodup
      have hmem := hactive id List.mem_cons_self
      have hid : id ≠ "" := by
        rintro rfl
        exact h hmem
      have hstep := step_delete (m := m) hid
      have hempty := h.step (.deleteOrder id)
      have hsize := size_erase_old hmem
      rw [List.map_cons, runWithin_cons, stepWithin_of_le (by rw [hstep]; omega)]
      rw [hstep] at hempty ⊢
      have hrest := ih hempty (by omega) hnodup' fun id' hid' => by
        refine mem_erase_iff.mpr ⟨?_, hactive id' (List.mem_cons_of_mem _ hid')⟩
        rintro rfl
        exact hnot hid'
      rw [List.length_cons]
      omega

/-- Adding takes a new order in if there is room. -/
theorem stepWithin_add {o : Order P} (hvalid : o.Valid) (hnew : o.id ∉ m) :
    m.stepWithin n o.addCall = if m.size < n then m.insert o.id o else m := by
  have hstep : m.step o.addCall = m.insert o.id o := step_add hvalid hnew o.isBuy
  have hsize := size_insert_new hnew o
  by_cases hroom : m.size < n
  · rw [if_pos hroom, stepWithin_of_le (by rw [hstep]; omega), hstep]
  · rw [if_neg hroom, stepWithin_of_lt (by rw [hstep]; omega)]

/-- Orders that are valid, different and not active. -/
structure Addable (m : ActiveOrders P) (added : List (Order P)) : Prop where
  valid : ∀ o ∈ added, o.Valid
  new : ∀ o ∈ added, o.id ∉ m
  nodup : (added.map (·.id)).Nodup

/-- After the first of them the others still are. -/
theorem Addable.tail {o : Order P} {added : List (Order P)} (h : m.Addable (o :: added)) :
    Addable (m.stepWithin n o.addCall) added := by
  obtain ⟨hnot, hnodup⟩ := List.nodup_cons.mp h.nodup
  refine ⟨fun o' ho' => h.valid o' (List.mem_cons_of_mem _ ho'), fun o' ho' => ?_, hnodup⟩
  rw [stepWithin_add (h.valid o List.mem_cons_self) (h.new o List.mem_cons_self)]
  have hnew := h.new o' (List.mem_cons_of_mem _ ho')
  split
  · intro hmem
    rcases mem_insert_iff.mp hmem with hsame | hmem
    · exact hnot (List.mem_map.mpr ⟨o', ho', hsame.symm⟩)
    · exact hnew hmem
  · exact hnew

/-- Adding orders fills the room there is. -/
theorem Addable.runWithin {front back : List (Order P)} (h : m.Addable (front ++ back))
    (hle : m.size ≤ n) :
    (m.runWithin n (front.map Order.addCall)).size = min n (m.size + front.length) ∧
      Addable (m.runWithin n (front.map Order.addCall)) back := by
  induction front generalizing m with
  | nil => exact ⟨(min_eq_right hle).symm, h⟩
  | cons o front ih =>
      have hstep := stepWithin_add (n := n) (h.valid o List.mem_cons_self)
        (h.new o List.mem_cons_self)
      have hsize := size_insert_new (h.new o List.mem_cons_self) o
      have htail := h.tail (n := n)
      rw [List.map_cons, runWithin_cons, List.length_cons]
      rw [hstep] at htail ⊢
      by_cases hroom : m.size < n
      · rw [if_pos hroom] at htail ⊢
        obtain ⟨hrun, hback⟩ := ih htail (by omega)
        exact ⟨by omega, hback⟩
      · rw [if_neg hroom] at htail ⊢
        obtain ⟨hrun, hback⟩ := ih htail hle
        exact ⟨by omega, hback⟩

end ActiveOrders

/-! ### The book -/

namespace OptimizedOrderBook

/-- After the deletions the first adds succeed, as many as there were deletions, and those that
follow throw. -/
def MakesRoom (n : Nat) (m : ActiveOrders P) (deleted : List String) (b : OptimizedOrderBook P) :
    Prop :=
  ∃ b', Run.run Phase5.step (deleted.map .deleteOrder) b = .ok b' ∧
    ∀ front o, (m.runWithin n (deleted.map .deleteOrder)).Addable (front ++ [o]) →
      ∃ b'', Run.run Phase5.step (front.map Order.addCall) b' = .ok b'' ∧
        (front.length < deleted.length →
          (Phase5.addOrder o.id o.price o.quantity o.isBuy b'').1 = .silent ∧
          (Phase5.addOrder o.id o.price o.quantity o.isBuy b'').2.getOrder o.id = .ok (some o)) ∧
        (deleted.length ≤ front.length →
          (Phase5.addOrder o.id o.price o.quantity o.isBuy b'').1.Throws)

/-- What a full pool does to calls of `addOrder`. -/
structure Exhaustion (n : Nat) (m : ActiveOrders P) (b : OptimizedOrderBook P) : Prop where
  getOrder : ∀ id, b.getOrder id = .ok m[id]?
  throws_iff : ∀ id price quantity isBuy, (Phase5.addOrder id price quantity isBuy b).1.Throws ↔
    ¬ Invalid id price quantity ∧ id ∉ m ∧ m.size = n
  unchanged : ∀ id price quantity isBuy, (Phase5.addOrder id price quantity isBuy b).1.Throws →
    (Phase5.addOrder id price quantity isBuy b).2 = b
  recovers : m.size = n → ∀ deleted : List String, deleted.Nodup → (∀ id ∈ deleted, id ∈ m) →
    MakesRoom n m deleted b

variable {n : Nat} {m : ActiveOrders P} {b : OptimizedOrderBook P}

omit [Zero P] in
theorem Refines.size_le (h : Refines n m b) : m.size ≤ n := by
  have hadd := h.size_add
  omega

/-- With no slot left the exception of `allocate` goes through. -/
theorem Refines.addOrder_full (h : Refines n m b) (hfull : m.size = n) {id : String} {price : P}
    {quantity : Int} (hvalid : ¬ Invalid id price quantity) (hnew : id ∉ m) (isBuy : Bool) :
    (Phase5.addOrder id price quantity isBuy b).1.Throws ∧
      (Phase5.addOrder id price quantity isBuy b).2 = b := by
  have hadd := h.size_add
  have hfree : b.orderPool.freeIndices = [] := List.length_eq_zero_iff.mp (by omega)
  rw [Phase5.addOrder, OptimizedOrderBook.addOrderReporting, if_neg hvalid,
    if_neg fun hmem => hnew ((h.mem_iff id).mp hmem), ObjectPool.allocate_nil hfree]
  exact ⟨⟨_, rfl⟩, rfl⟩

/-- With a slot left the order is added. -/
theorem Refines.addOrder_room (h : Refines n m b) (hroom : m.size < n) {id : String} {price : P}
    {quantity : Int} (hvalid : ¬ Invalid id price quantity) (hnew : id ∉ m) (isBuy : Bool) :
    (Phase5.addOrder id price quantity isBuy b).1 = .silent := by
  have hadd := h.size_add
  rw [Phase5.addOrder, OptimizedOrderBook.addOrderReporting, if_neg hvalid,
    if_neg fun hmem => hnew ((h.mem_iff id).mp hmem)]
  cases hfree : b.orderPool.freeIndices with
  | nil =>
      rw [hfree, List.length_nil] at hadd
      omega
  | cons slot rest =>
      obtain ⟨pool, hpool, -⟩ := h.pool.allocate_cons hfree ⟨id, price, quantity, isBuy⟩
      rw [hpool]

/-- A call with nothing to do throws nothing. -/
theorem Refines.addOrder_idle (h : Refines n m b) {id : String} {price : P} {quantity : Int}
    (hidle : Invalid id price quantity ∨ id ∈ m) (isBuy : Bool) :
    ¬ (Phase5.addOrder id price quantity isBuy b).1.Throws := by
  rw [Phase5.addOrder, OptimizedOrderBook.addOrderReporting]
  by_cases hinvalid : Invalid id price quantity
  · rw [if_pos hinvalid]
    rintro ⟨what, ⟨⟩⟩
  · rw [if_neg hinvalid, if_pos ((h.mem_iff id).mpr (hidle.resolve_left hinvalid))]
    rintro ⟨what, ⟨⟩⟩

theorem Refines.addOrder_throws_iff (h : Refines n m b) (id : String) (price : P) (quantity : Int)
    (isBuy : Bool) : (Phase5.addOrder id price quantity isBuy b).1.Throws ↔
      ¬ Invalid id price quantity ∧ id ∉ m ∧ m.size = n := by
  constructor
  · intro hthrows
    have hnot : ¬ (Invalid id price quantity ∨ id ∈ m) := fun hidle =>
      h.addOrder_idle hidle isBuy hthrows
    obtain ⟨hvalid, hnew⟩ := not_or.mp hnot
    refine ⟨hvalid, hnew, le_antisymm h.size_le (Nat.le_of_not_lt fun hroom => ?_)⟩
    rw [h.addOrder_room hroom hvalid hnew isBuy] at hthrows
    obtain ⟨what, ⟨⟩⟩ := hthrows
  · rintro ⟨hvalid, hnew, hfull⟩
    exact (h.addOrder_full hfull hvalid hnew isBuy).1

/-- After `k` deletions in a full book the adds succeed as long as fewer than `k` came before. -/
theorem Refines.recovers (h : Refines n m b) (hempty : m.NoEmptyId) (hfull : m.size = n)
    {deleted : List String} (hnodup : deleted.Nodup) (hactive : ∀ id ∈ deleted, id ∈ m) :
    MakesRoom n m deleted b := by
  obtain ⟨b', hdelete, h'⟩ := h.phase5_run (deleted.map .deleteOrder)
  have hroom := ActiveOrders.runWithin_deleted hempty h.size_le hnodup hactive
  refine ⟨b', hdelete, fun front o haddable => ?_⟩
  obtain ⟨b'', hadd, h''⟩ := h'.phase5_run (front.map Order.addCall)
  obtain ⟨hsize, hlast⟩ := haddable.runWithin h'.size_le
  have hvalid := hlast.valid o List.mem_cons_self
  have hnew := hlast.new o List.mem_cons_self
  refine ⟨b'', hadd, fun hless => ⟨?_, ?_⟩, fun hmore => ?_⟩
  · exact h''.addOrder_room (by omega) hvalid hnew o.isBuy
  · have hadded := h''.addOrderReporting (fun _ _ => []) o.id o.price o.quantity o.isBuy
    change Refines n (ActiveOrders.stepWithin n o.addCall _) _ at hadded
    rw [ActiveOrders.stepWithin_add hvalid hnew, if_pos (by omega)] at hadded
    rw [Phase5.addOrder, getOrder_agree hadded, getElem?_insert_eq, if_pos rfl]
  · exact (h''.addOrder_full (by omega) hvalid hnew o.isBuy).1

/-- **A full pool is left as it was, and recovers.** From a new book every sequence of calls, the
throwing ones included, runs to its end, and then `addOrder` throws exactly if it is given a new
valid order and every slot holds an active one; the book is then unchanged. -/
theorem Phase5.run_exhaustion (n : Nat) (ops : List (Op P)) :
    ∃ b, Run.run Phase5.step ops (new n) = .ok b ∧
      Exhaustion n (ActiveOrders.runWithin n ops ∅) b := by
  obtain ⟨b, hrun, h⟩ := (new_refines n).phase5_run ops
  have hempty : ActiveOrders.NoEmptyId (∅ : ActiveOrders P) := Std.ExtTreeMap.not_mem_empty
  refine ⟨b, hrun, getOrder_agree h, h.addOrder_throws_iff,
    fun id price quantity isBuy hthrows => ?_,
    fun hfull deleted hnodup hactive => h.recovers (hempty.runWithin n ops) hfull hnodup hactive⟩
  obtain ⟨hvalid, hnew, hfull⟩ := (h.addOrder_throws_iff id price quantity isBuy).mp hthrows
  exact (h.addOrder_full hfull hvalid hnew isBuy).2

end OptimizedOrderBook

end HftProject.Week5
