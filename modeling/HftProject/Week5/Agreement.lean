import HftProject.Lib.Run
import HftProject.Week5.OptimizedOrderBook
import HftProject.Week5.UnoptimizedOrderBook
import Mathlib.Algebra.Order.Ring.Int

/-!
The two books of `hw_5` answer every query alike as long as the pool has a slot for
every active order. Both refine `ActiveOrders`; the levels of the one hold pointers
where the levels of the other hold the records pointed to.
-/

namespace HftProject.Week5

variable {P : Type} [LinearOrder P] [Zero P]

/-! ### What it is to agree -/

/-- The records behind a level of pointers. -/
def contents (pool : ObjectPool (Order P)) (level : Lookup Nat) : Lookup (Option (Order P)) :=
  level.map fun _ ptr => pool.object? ptr

/-- A level of pointers and a level of records with the same contents, or no level on
both sides. -/
def SameLevel (pool : ObjectPool (Order P)) (level : Option (Lookup Nat))
    (level' : Option (Lookup (Order P))) : Prop :=
  level.map (contents pool) = level'.map fun records => records.map fun _ o => some o

/-- Every query is answered alike. -/
structure Agree (b : OptimizedOrderBook P) (u : UnoptimizedOrderBook P) : Prop where
  getOrder : ∀ id, b.getOrder id = .ok (u.getOrder id)
  getActiveOrderCount : b.getActiveOrderCount = u.getActiveOrderCount
  getAllActivePrices : b.getAllActivePrices = u.getAllActivePrices
  getOrdersAtPrice : ∀ price,
    SameLevel b.orderPool (b.getOrdersAtPrice price) (u.getOrdersAtPrice price)
  getBestBidLevel : ∃ level, b.getBestBidLevel = .ok (u.getBestBidLevel.1, level) ∧
    SameLevel b.orderPool level u.getBestBidLevel.2
  getBestAskLevel : ∃ level, b.getBestAskLevel = .ok (u.getBestAskLevel.1, level) ∧
    SameLevel b.orderPool level u.getBestAskLevel.2

/-! ### Levels of pointers and levels of records -/

variable {n : Nat} {m : ActiveOrders P} {b : OptimizedOrderBook P} {u : UnoptimizedOrderBook P}

omit [Zero P] in
/-- Behind the pointers of the book's levels is the index of the active orders. -/
theorem levels_agree {levels : PriceLevels P (Order P)} (hb : b.Refines n m)
    (hlevels : Levels.Indexes (fun o => some o.price) levels m) :
    b.orderLevels.mapValues b.orderPool.object? = levels.mapValues some := by
  apply (hb.levels.noneEmpty.mapValues _).ext (hlevels.noneEmpty.mapValues _)
  intro price id
  rw [Levels.find?_mapValues, Levels.find?_mapValues, hb.levels.find?_eq, hlevels.find?_eq]
  cases hptr : b.orderLookup[id]? with
  | none => simp [hb.lookup_none hptr]
  | some ptr =>
      obtain ⟨o, ho, hm, -⟩ := hb.record hptr
      by_cases hprice : o.price = price <;> simp [hm, ho, hprice, Option.filter]

omit [Zero P] in
theorem getOrder_agree (hb : b.Refines n m) (id : String) : b.getOrder id = .ok m[id]? := by
  rw [OptimizedOrderBook.getOrder]
  cases hptr : b.orderLookup[id]? with
  | none => rw [hb.lookup_none hptr]
  | some ptr =>
      obtain ⟨o, ho, hm, -⟩ := hb.record hptr
      rw [hm]
      simp only [ObjectPool.deref_ok ho]
      rfl

omit [Zero P] in
/-- The levels in the order of their prices. -/
theorem toList_agree (hb : b.Refines n m) (hu : u.Refines m) :
    (b.orderLevels.toList.map fun e => (e.1, contents b.orderPool e.2)) =
      u.orderLevels.toList.map fun e => (e.1, e.2.map fun _ o => some o) := by
  have hlist := congrArg Std.ExtTreeMap.toList (levels_agree hb hu.levels)
  rwa [Levels.toList_mapValues, Levels.toList_mapValues] at hlist

omit [Zero P] in
/-- No level is empty, so none is left out. -/
theorem getAllActivePrices_eq (hb : b.Refines n m) :
    b.getAllActivePrices = b.orderLevels.toList.map (·.1) := by
  have hfilter : b.orderLevels.toList.filter (fun e => !e.2.isEmpty) = b.orderLevels.toList := by
    apply List.filter_eq_self.mpr
    intro e he
    have hne := hb.levels.noneEmpty e.1 e.2 (Std.ExtTreeMap.mem_toList_iff_getElem?_eq_some.mp he)
    rw [Bool.not_eq_true', Bool.eq_false_iff]
    exact fun hempty => hne (Std.ExtTreeMap.isEmpty_iff.mp hempty)
  rw [OptimizedOrderBook.getAllActivePrices, hfilter]

omit [LinearOrder P] [Zero P] in
/-- The entries of a level of pointers against those of a level of records. -/
theorem any_agree (pool : ObjectPool (Order P)) (wanted : Order P → Bool) :
    ∀ (entries : List (String × Nat)) (entries' : List (String × Order P)),
      (entries.map fun e => (e.1, pool.object? e.2)) = entries'.map (fun e => (e.1, some e.2)) →
        entries.anyM (fun e => wanted <$> pool.deref e.2) =
          (.ok (entries'.any fun e => wanted e.2) : Except Fault Bool)
  | [], [], _ => rfl
  | [], _ :: _, h => by simp at h
  | _ :: _, [], h => by simp at h
  | e :: entries, e' :: entries', h => by
      rw [List.map_cons, List.map_cons, List.cons.injEq, Prod.mk.injEq] at h
      obtain ⟨⟨-, hobj⟩, htail⟩ := h
      have ih := any_agree pool wanted entries entries' htail
      have hderef : (wanted <$> pool.deref e.2) = (.ok (wanted e'.2) : Except Fault Bool) := by
        rw [ObjectPool.deref_ok hobj]
        rfl
      rw [List.anyM, hderef, List.any_cons]
      cases wanted e'.2 with
      | true => rfl
      | false => exact ih

omit [LinearOrder P] in
/-- The scan for the first level with an order of one side. -/
theorem firstLevel_agree {pool : ObjectPool (Order P)} (wanted : Order P → Bool) :
    ∀ (levels : List (P × Lookup Nat)) (levels' : List (P × Lookup (Order P))),
      (levels.map fun e => (e.1, contents pool e.2)) =
          levels'.map (fun e => (e.1, e.2.map fun _ o => some o)) →
        ∃ level, OptimizedOrderBook.firstLevel wanted pool levels =
            .ok ((UnoptimizedOrderBook.firstLevel wanted levels').1, level) ∧
          SameLevel pool level (UnoptimizedOrderBook.firstLevel wanted levels').2
  | [], [], _ => ⟨none, rfl, rfl⟩
  | [], _ :: _, h => by simp at h
  | _ :: _, [], h => by simp at h
  | (price, level) :: levels, (price', level') :: levels', h => by
      rw [List.map_cons, List.map_cons, List.cons.injEq, Prod.mk.injEq] at h
      obtain ⟨⟨rfl, hlevel⟩, htail⟩ := h
      have ih := firstLevel_agree wanted levels levels' htail
      have hany := any_agree pool wanted level.toList level'.toList (by
        have := congrArg Std.ExtTreeMap.toList hlevel
        rwa [contents, Std.ExtTreeMap.toList_map, Std.ExtTreeMap.toList_map] at this)
      rw [OptimizedOrderBook.firstLevel, UnoptimizedOrderBook.firstLevel, hany]
      cases level'.toList.any fun e => wanted e.2 with
      | true => exact ⟨some level, rfl, congrArg some hlevel⟩
      | false => exact ih

/-! ### Agreement -/

theorem agree (hb : b.Refines n m) (hu : u.Refines m) : Agree b u where
  getOrder := fun id => by rw [UnoptimizedOrderBook.getOrder, hu.lookup, getOrder_agree hb]
  getActiveOrderCount := hb.count.trans hu.count.symm
  getAllActivePrices := by
    have hprices := congrArg (List.map Prod.fst) (toList_agree hb hu)
    simp only [List.map_map] at hprices
    rw [getAllActivePrices_eq hb]
    exact hprices
  getOrdersAtPrice := fun price => by
    have hlevel := congrArg (fun levels => levels[price]?) (levels_agree hb hu.levels)
    simp only [Levels.getElem?_mapValues] at hlevel
    exact hlevel
  getBestBidLevel := by
    apply firstLevel_agree (fun o => o.isBuy) _ _
    rw [List.map_reverse, List.map_reverse, toList_agree hb hu]
  getBestAskLevel := firstLevel_agree (fun o => !o.isBuy) _ _ (toList_agree hb hu)

/-- Runs of both books that stay within the pool stand for the same active orders. -/
theorem runs_refine (n : Nat) (ops : List (Op P))
    (fits : ∀ pre, pre <+: ops → (UnoptimizedOrderBook.run pre).getActiveOrderCount ≤ n) :
    ∃ (m : ActiveOrders P) (b : OptimizedOrderBook P),
      Run.run OptimizedOrderBook.Hw5.step ops (.new n) = .ok b ∧ b.Refines n m ∧
        (UnoptimizedOrderBook.run ops).Refines m := by
  induction ops using List.reverseRecOn with
  | nil =>
      exact ⟨∅, .new n, rfl, OptimizedOrderBook.new_refines n, UnoptimizedOrderBook.new_refines⟩
  | append_singleton ops op ih =>
      obtain ⟨m, b, hrun, hb, hu⟩ :=
        ih fun pre hpre => fits pre (hpre.trans (List.prefix_append ops [op]))
      have hstep : UnoptimizedOrderBook.run (ops ++ [op]) =
          (UnoptimizedOrderBook.run ops).step op := by
        rw [UnoptimizedOrderBook.run, List.foldl_concat]
        rfl
      have hu' := hu.step op
      rw [← hstep] at hu'
      -- The abstract call fits, so the pool does not cut it short.
      have hsize : (m.step op).size ≤ n := by
        rw [← hu'.count]
        exact fits _ (List.prefix_refl _)
      obtain ⟨b', hb', h'⟩ := hb.hw5_step op
      rw [ActiveOrders.stepWithin_of_le hsize] at h'
      refine ⟨m.step op, b', Run.run_append.mpr ⟨b, hrun, ?_⟩, h', hu'⟩
      rw [Run.run_cons_ok hb', Run.run_nil]

/-- After every call both books answer every query alike, as long as the number of
active orders stays within the pool. -/
theorem books_agree (n : Nat) (ops : List (Op P))
    (fits : ∀ pre, pre <+: ops → (UnoptimizedOrderBook.run pre).getActiveOrderCount ≤ n) :
    ∀ pre, pre <+: ops → ∃ b, Run.run OptimizedOrderBook.Hw5.step pre (.new n) = .ok b ∧
      Agree b (UnoptimizedOrderBook.run pre) := by
  intro pre hpre
  obtain ⟨m, b, hrun, hb, hu⟩ := runs_refine n pre fun pre' hpre' => fits pre' (hpre'.trans hpre)
  exact ⟨b, hrun, agree hb hu⟩

theorem books_agree_sample :
    ∃ b, Run.run OptimizedOrderBook.Hw5.step [.addOrder "A" 10 5 true, .addOrder "B" 10 4 false,
        .addOrder "A" 11 1 true, .modifyOrder "A" 12 3, .deleteOrder "A"]
        (.new 2 : OptimizedOrderBook Int) = .ok b ∧
      Agree b (UnoptimizedOrderBook.run [.addOrder "A" 10 5 true, .addOrder "B" 10 4 false,
        .addOrder "A" 11 1 true, .modifyOrder "A" 12 3, .deleteOrder "A"]) := by
  refine books_agree 2 _ (fun pre hpre => ?_) _ (List.prefix_refl _)
  rw [← List.mem_inits] at hpre
  revert pre
  decide +kernel

end HftProject.Week5
