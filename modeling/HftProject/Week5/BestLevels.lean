import HftProject.Week5.Agreement
import HftProject.Week5.Representation
import Mathlib.Order.Bounds.Basic

/-!
What the queries of `hw_5`'s `OptimizedOrderBook` answer, in terms of the active orders alone.
Buys and sells share the levels, so the scans for the best level pass over levels with orders
of the other side only; no level is stale, and none is missing.
-/

namespace HftProject.Week5

variable {P : Type} [LinearOrder P] [Zero P]

namespace ActiveOrders

/-- The prices of the orders that are wanted. -/
def pricesOf (wanted : Order P → Bool) (m : ActiveOrders P) : Set P :=
  {price | ∃ (id : String) (o : Order P), m[id]? = some o ∧ wanted o = true ∧ o.price = price}

/-- The orders of a price, of both sides. -/
def atPrice (price : P) (m : ActiveOrders P) : ActiveOrders P :=
  m.filter fun _ o => o.price = price

end ActiveOrders

namespace OptimizedOrderBook

/-- The answer to a query for the best level: the best price of the orders that are wanted, with
the level of all orders of that price. -/
structure IsBestLevel (Best : Set P → P → Prop) (wanted : Order P → Bool) (m : ActiveOrders P)
    (b : OptimizedOrderBook P) (r : P × Option (Lookup Nat)) : Prop where
  none_iff : r = (0, none) ↔ m.pricesOf wanted = ∅
  best : (m.pricesOf wanted).Nonempty → ∃ price level, r = (price, some level) ∧
    Best (m.pricesOf wanted) price ∧
    contents b.orderPool level = (m.atPrice price).map fun _ o => some o

/-- The queries tell of the active orders, and of nothing else. -/
structure ExactQueries (m : ActiveOrders P) (b : OptimizedOrderBook P) : Prop where
  getOrder : ∀ id, b.getOrder id = .ok m[id]?
  getBestBidLevel : ∃ r, b.getBestBidLevel = .ok r ∧
    IsBestLevel IsGreatest (fun o => o.isBuy) m b r
  getBestAskLevel : ∃ r, b.getBestAskLevel = .ok r ∧
    IsBestLevel IsLeast (fun o => !o.isBuy) m b r
  sorted : b.getAllActivePrices.Pairwise (· < ·)
  getAllActivePrices : ∀ price, price ∈ b.getAllActivePrices ↔ price ∈ m.pricesOf fun _ => true

variable {n : Nat} {m : ActiveOrders P} {b : OptimizedOrderBook P} {wanted : Order P → Bool}

/-! ### Levels -/

/-- Some order of the level is wanted. -/
def offers (wanted : Order P → Bool) (pool : ObjectPool (Order P)) (level : Lookup Nat) : Bool :=
  level.toList.any fun e => (pool.object? e.2).any wanted

omit [Zero P] in
/-- An active order has its slot. -/
theorem Refines.slot (h : Refines n m b) {id : String} {o : Order P} (ho : m[id]? = some o) :
    ∃ ptr, b.orderLookup[id]? = some ptr ∧ b.orderPool.object? ptr = some o := by
  rw [h.records] at ho
  exact Option.bind_eq_some_iff.mp ho

omit [Zero P] in
/-- The level of a price has the active orders of that price. -/
theorem Refines.contents_level (h : Refines n m b) {price : P} {level : Lookup Nat}
    (hlevel : b.orderLevels[price]? = some level) :
    contents b.orderPool level = (m.atPrice price).map fun _ o => some o := by
  apply Std.ExtTreeMap.ext_getElem?
  intro id
  rw [contents, Std.ExtTreeMap.getElem?_map, ← Levels.find?_of_level hlevel, h.levels.find?_eq,
    Std.ExtTreeMap.getElem?_map, ActiveOrders.atPrice, Std.ExtTreeMap.getElem?_filter']
  cases hptr : b.orderLookup[id]? with
  | none => simp [h.lookup_none hptr]
  | some ptr =>
      obtain ⟨o, ho, hm, -⟩ := h.record hptr
      by_cases hprice : o.price = price <;> simp [hm, ho, hprice, Option.filter]

omit [Zero P] in
/-- A level offers an order that is wanted if its price is that of one. -/
theorem Refines.offers_iff (h : Refines n m b) {price : P} {level : Lookup Nat}
    (hlevel : b.orderLevels[price]? = some level) :
    offers wanted b.orderPool level = true ↔ price ∈ m.pricesOf wanted := by
  have hentry : ∀ (id : String) ptr, level[id]? = some ptr ↔ b.orderLookup[id]? = some ptr ∧
      (b.orderPool.object? ptr).map (·.price) = some price := fun id ptr => by
    rw [← Levels.find?_of_level hlevel]
    exact h.levels.find?_iff price id ptr
  rw [offers, List.any_eq_true]
  constructor
  · rintro ⟨⟨id, ptr⟩, hmem, hwanted⟩
    obtain ⟨hptr, hprice⟩ :=
      (hentry id ptr).mp (Std.ExtTreeMap.mem_toList_iff_getElem?_eq_some.mp hmem)
    obtain ⟨o, ho, hm, -⟩ := h.record hptr
    simp only [ho, Option.map_some, Option.some.injEq, Option.any_some] at hprice hwanted
    exact ⟨id, o, hm, hwanted, hprice⟩
  · rintro ⟨id, o, hm, hwanted, hprice⟩
    obtain ⟨ptr, hptr, ho⟩ := h.slot hm
    refine ⟨(id, ptr), Std.ExtTreeMap.mem_toList_iff_getElem?_eq_some.mpr ?_, ?_⟩
    · exact (hentry id ptr).mpr ⟨hptr, by rw [ho, Option.map_some, hprice]⟩
    · rw [ho]
      exact hwanted

omit [Zero P] in
/-- Every price of an active order has a level. -/
theorem Refines.exists_level (h : Refines n m b) {price : P} (hprice : price ∈ m.pricesOf wanted) :
    ∃ level, (price, level) ∈ b.orderLevels.toList := by
  obtain ⟨id, o, hm, -, rfl⟩ := hprice
  obtain ⟨ptr, hptr, ho⟩ := h.slot hm
  obtain ⟨level, hlevel⟩ := mem_iff_getElem?.mp (h.level_mem hptr ho)
  exact ⟨level, Std.ExtTreeMap.mem_toList_iff_getElem?_eq_some.mpr hlevel⟩

/-! ### The scans -/

omit [LinearOrder P] [Zero P] in
/-- A scan of a level whose pointers are alive. -/
theorem anyM_deref {pool : ObjectPool (Order P)} {entries : List (String × Nat)}
    (halive : ∀ e ∈ entries, ∃ o, pool.object? e.2 = some o) (wanted : Order P → Bool) :
    entries.anyM (fun e => wanted <$> pool.deref e.2) =
      (.ok (entries.any fun e => (pool.object? e.2).any wanted) : Except Fault Bool) := by
  induction entries with
  | nil => rfl
  | cons e entries ih =>
      obtain ⟨o, ho⟩ := halive e List.mem_cons_self
      have hrest := ih fun e' he' => halive e' (List.mem_cons_of_mem _ he')
      have hderef : (wanted <$> pool.deref e.2) = (.ok (wanted o) : Except Fault Bool) := by
        rw [ObjectPool.deref_ok ho]
        rfl
      rw [List.anyM, hderef, List.any_cons, ho, Option.any_some]
      cases wanted o with
      | true => rfl
      | false => exact hrest

omit [LinearOrder P] in
/-- The scan stops at the first level with an order that is wanted. -/
theorem firstLevel_eq {pool : ObjectPool (Order P)} (wanted : Order P → Bool)
    {levels : List (P × Lookup Nat)}
    (halive : ∀ e ∈ levels, ∀ d ∈ e.2.toList, ∃ o, pool.object? d.2 = some o) :
    firstLevel wanted pool levels = .ok (match levels.find? fun e => offers wanted pool e.2 with
      | some (price, level) => (price, some level)
      | none => (0, none)) := by
  induction levels with
  | nil => rfl
  | cons e levels ih =>
      have hrest := ih fun e' he' => halive e' (List.mem_cons_of_mem _ he')
      rw [firstLevel, anyM_deref (halive e List.mem_cons_self) wanted]
      cases hoffers : offers wanted pool e.2 with
      | true =>
          rw [List.find?_cons, hoffers, ← offers, hoffers]
          rfl
      | false =>
          rw [List.find?_cons, hoffers, ← offers, hoffers]
          exact hrest

/-- A scan of the levels in some order finds the best level for that order. -/
theorem Refines.isBestLevel (h : Refines n m b) {levels : List (P × Lookup Nat)}
    (hperm : levels.Perm b.orderLevels.toList) {R : P → P → Prop}
    (hsorted : levels.Pairwise fun d e => R d.1 e.1) {Best : Set P → P → Prop}
    (hbest : ∀ prices price, price ∈ prices → (∀ other ∈ prices, other = price ∨ R price other) →
      Best prices price) :
    ∃ r, firstLevel wanted b.orderPool levels = .ok r ∧ IsBestLevel Best wanted m b r := by
  have hlevel : ∀ {price level}, (price, level) ∈ levels → b.orderLevels[price]? = some level :=
    fun hmem => Std.ExtTreeMap.mem_toList_iff_getElem?_eq_some.mp (hperm.mem_iff.mp hmem)
  have halive : ∀ e ∈ levels, ∀ d ∈ e.2.toList, ∃ o, b.orderPool.object? d.2 = some o := by
    rintro ⟨price, level⟩ he ⟨id, ptr⟩ hd
    have hfind : b.orderLevels.find? price id = some ptr := by
      rw [Levels.find?_of_level (hlevel he)]
      exact Std.ExtTreeMap.mem_toList_iff_getElem?_eq_some.mp hd
    obtain ⟨o, ho, -⟩ := h.record ((h.levels.find?_iff price id ptr).mp hfind).1
    exact ⟨o, ho⟩
  refine ⟨_, firstLevel_eq wanted halive, ?_⟩
  cases hfirst : levels.find? fun e => offers wanted b.orderPool e.2 with
  | none =>
      have hempty : m.pricesOf wanted = ∅ := by
        rw [Set.eq_empty_iff_forall_notMem]
        intro price hprice
        obtain ⟨level, hmem⟩ := h.exists_level hprice
        have hmem' := hperm.mem_iff.mpr hmem
        exact List.find?_eq_none.mp hfirst _ hmem' ((h.offers_iff (hlevel hmem')).mpr hprice)
      exact ⟨⟨fun _ => hempty, fun _ => rfl⟩, fun hsome => absurd hempty hsome.ne_empty⟩
  | some e =>
      obtain ⟨price, level⟩ := e
      have hmem := List.mem_of_find?_eq_some hfirst
      have hoffers : offers wanted b.orderPool level = true :=
        List.find?_some (p := fun e : P × Lookup Nat => offers wanted b.orderPool e.2) hfirst
      have hprice : price ∈ m.pricesOf wanted := (h.offers_iff (hlevel hmem)).mp hoffers
      have hfirst' : ∀ other ∈ m.pricesOf wanted, other = price ∨ R price other := by
        intro other hother
        obtain ⟨level', hmem'⟩ := h.exists_level hother
        have hmem'' := hperm.mem_iff.mpr hmem'
        rcases Levels.first_of_pairwise hsorted hfirst _ hmem''
          ((h.offers_iff (hlevel hmem'')).mpr hother) with heq | hR
        · exact Or.inl (congrArg Prod.fst heq)
        · exact Or.inr hR
      refine ⟨⟨fun hnone => ?_, fun hempty => ?_⟩, fun _ => ⟨price, level, rfl, ?_, ?_⟩⟩
      · cases hnone
      · rw [hempty] at hprice
        exact absurd hprice (Set.notMem_empty _)
      · exact hbest _ _ hprice hfirst'
      · exact h.contents_level (hlevel hmem)

/-! ### The queries -/

theorem Refines.exactQueries (h : Refines n m b) : ExactQueries m b where
  getOrder := getOrder_agree h
  getBestBidLevel := by
    refine h.isBestLevel (R := fun p q => q < p) (List.reverse_perm _)
      (List.pairwise_reverse.mpr (Levels.toList_sorted _)) fun prices price hprice hother => ?_
    refine ⟨hprice, fun other hmem => ?_⟩
    rcases hother other hmem with rfl | hlt
    · exact le_refl _
    · exact hlt.le
  getBestAskLevel := by
    refine h.isBestLevel (R := fun p q => p < q) (List.Perm.refl _)
      (Levels.toList_sorted _) fun prices price hprice hother => ?_
    refine ⟨hprice, fun other hmem => ?_⟩
    rcases hother other hmem with rfl | hlt
    · exact le_refl _
    · exact hlt.le
  sorted := by
    rw [getAllActivePrices_eq h, List.pairwise_map]
    exact Levels.toList_sorted _
  getAllActivePrices := fun price => by
    rw [getAllActivePrices_eq h, List.mem_map]
    constructor
    · rintro ⟨⟨price, level⟩, hmem, rfl⟩
      have hlevel := Std.ExtTreeMap.mem_toList_iff_getElem?_eq_some.mp hmem
      obtain ⟨id, ptr, hfind⟩ := h.levels.noneEmpty.mem_iff.mp (mem_iff_getElem?.mpr ⟨_, hlevel⟩)
      obtain ⟨hptr, hprice⟩ := (h.levels.find?_iff price id ptr).mp hfind
      obtain ⟨o, ho, hm, -⟩ := h.record hptr
      rw [ho] at hprice
      exact ⟨id, o, hm, rfl, Option.some.inj hprice⟩
    · intro hprice
      obtain ⟨level, hmem⟩ := h.exists_level hprice
      exact ⟨(price, level), hmem, rfl⟩

/-- **The queries are exact.** From a new book every sequence of calls runs to its end, and then
the queries tell of the active orders what is so: the best price of each side with all orders of
that price, or `{0.0, nullptr}` if the side has none, and all prices in order. -/
theorem Hw5.run_exactQueries (n : Nat) (ops : List (Op P)) :
    ∃ b, Run.run Hw5.step ops (new n) = .ok b ∧
      ExactQueries (ActiveOrders.runWithin n ops ∅) b := by
  obtain ⟨b, hrun, h⟩ := (new_refines n).hw5_run ops
  exact ⟨b, hrun, h.exactQueries⟩

end OptimizedOrderBook

end HftProject.Week5
