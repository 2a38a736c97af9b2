import HftProject.Lib.Levels
import Mathlib.Data.List.Induction
import Mathlib.Order.Basic

/-!
`MarketSnapshot` of `phase_3`: the price levels of either side, the best one first. The bids
are a map whose keys are ordered the other way round, so that both sides have their best level
at the least key.
-/

namespace HftProject.Week3

open Std

structure PriceLevel (P : Type) where
  price : P
  quantity : Int
deriving DecidableEq, Repr

/-- A side of the market. -/
inductive BookSide where
  | bid
  | ask
deriving DecidableEq, Repr

/-- What an update does to a level: `Removed`, `Updated with quantity: _`, or a new level, whose
quantity is written behind `x`. -/
inductive Change where
  | removed
  | updated (quantity : Int)
  | added (quantity : Int)
deriving DecidableEq, Repr

/-- A line `[Market] …` of the log. `best` tells `Best Bid` from `Bid` and `New Bid`. -/
structure MarketLine (P : Type) where
  side : BookSide
  best : Bool
  price : P
  change : Change
deriving DecidableEq, Repr

variable {K P : Type} [LinearOrder K]

/-- `begin()->first`, if there is one. -/
def firstKey (levels : ExtTreeMap K (PriceLevel P)) : Option K := levels.keys.head?

/-- `begin()->second` -/
def bestLevel (levels : ExtTreeMap K (PriceLevel P)) : Option (PriceLevel P) :=
  (firstKey levels).bind fun key => levels[key]?

/-- The body that `update_bid` and `update_ask` share. -/
def updateLevel (side : BookSide) (key : K) (price : P) (qty : Int)
    (levels : ExtTreeMap K (PriceLevel P)) : ExtTreeMap K (PriceLevel P) × MarketLine P :=
  match levels[key]? with
  | some level =>
      let isBest := decide (firstKey levels = some key)
      if qty = 0 then (levels.erase key, ⟨side, isBest, price, .removed⟩)
      else (levels.insert key { level with quantity := qty }, ⟨side, isBest, price, .updated qty⟩)
  | none =>
      let levels := levels.insert key ⟨price, qty⟩
      (levels, ⟨side, decide (levels.size = 1 ∨ firstKey levels = some key), price, .added qty⟩)

structure MarketSnapshot (P : Type) [LinearOrder P] where
  bids : ExtTreeMap Pᵒᵈ (PriceLevel P)
  asks : ExtTreeMap P (PriceLevel P)

namespace MarketSnapshot

variable [LinearOrder P]

def new : MarketSnapshot P := ⟨∅, ∅⟩

def getBestBid (s : MarketSnapshot P) : Option (PriceLevel P) := bestLevel s.bids

def getBestAsk (s : MarketSnapshot P) : Option (PriceLevel P) := bestLevel s.asks

def updateBid (price : P) (qty : Int) (s : MarketSnapshot P) : MarketSnapshot P × MarketLine P :=
  let (bids, line) := updateLevel .bid (OrderDual.toDual price) price qty s.bids
  ({ s with bids := bids }, line)

def updateAsk (price : P) (qty : Int) (s : MarketSnapshot P) : MarketSnapshot P × MarketLine P :=
  let (asks, line) := updateLevel .ask price price qty s.asks
  ({ s with asks := asks }, line)

end MarketSnapshot

/-! ### One side -/

section Side

variable {levels : ExtTreeMap K (PriceLevel P)}

theorem isLE_iff_le {key key' : K} : (compare key key').isLE ↔ key ≤ key' := by
  rw [← Ordering.ne_gt_iff_isLE]
  exact compare_le_iff_le

theorem bestLevel_eq_some {level : PriceLevel P} :
    bestLevel levels = some level ↔
      ∃ key, levels[key]? = some level ∧ ∀ key', key' ∈ levels → key ≤ key' := by
  rw [bestLevel, firstKey, ← ExtTreeMap.minKey?_eq_head?_keys, Option.bind_eq_some_iff]
  refine exists_congr fun key => ?_
  rw [ExtTreeMap.minKey?_eq_some_iff_mem_and_forall]
  constructor
  · rintro ⟨⟨-, hleast⟩, hlevel⟩
    exact ⟨hlevel, fun key' hkey' => isLE_iff_le.mp (hleast key' hkey')⟩
  · rintro ⟨hlevel, hleast⟩
    refine ⟨⟨ExtTreeMap.mem_iff_isSome_getElem?.mpr (by rw [hlevel]; rfl), ?_⟩, hlevel⟩
    exact fun key' hkey' => isLE_iff_le.mpr (hleast key' hkey')

theorem bestLevel_eq_none : bestLevel levels = none ↔ levels = ∅ := by
  rw [bestLevel, firstKey, ← ExtTreeMap.minKey?_eq_head?_keys, Option.bind_eq_none_iff]
  constructor
  · intro h
    cases hmin : levels.minKey? with
    | none => exact ExtTreeMap.minKey?_eq_none_iff.mp hmin
    | some key =>
        have hmem := (ExtTreeMap.minKey?_eq_some_iff_mem_and_forall.mp hmin).1
        have hnone := h key hmin
        rw [ExtTreeMap.mem_iff_isSome_getElem?, hnone] at hmem
        cases hmem
  · rintro rfl key hkey
    rw [ExtTreeMap.minKey?_empty] at hkey
    cases hkey

theorem getElem?_updateLevel (side : BookSide) (key : K) (price : P) (qty : Int) (key' : K) :
    (updateLevel side key price qty levels).1[key']? =
      if key = key' then
        match levels[key]? with
        | some level => if qty = 0 then none else some { level with quantity := qty }
        | none => some ⟨price, qty⟩
      else levels[key']? := by
  rw [updateLevel]
  split
  · rename_i level hlevel
    split
    · rw [getElem?_erase_eq]
    · rw [getElem?_insert_eq]
  · rw [getElem?_insert_eq]

/-- The levels after an update: the one of the price, and those from before. -/
theorem updateLevel_cases {side : BookSide} {key key' : K} {price : P} {qty : Int}
    {level : PriceLevel P} (h : (updateLevel side key price qty levels).1[key']? = some level) :
    (key' = key ∧ level.quantity = qty ∧ (levels[key]? = none ∧ level.price = price ∨
      ∃ old, levels[key]? = some old ∧ level.price = old.price)) ∨
    (key' ≠ key ∧ levels[key']? = some level) := by
  rw [getElem?_updateLevel] at h
  split at h
  · rename_i heq
    refine .inl ⟨heq.symm, ?_⟩
    split at h
    · rename_i old hold
      split at h
      · cases h
      · cases h
        exact ⟨rfl, .inr ⟨old, hold, rfl⟩⟩
    · rename_i hnone
      cases h
      exact ⟨rfl, .inl ⟨hnone, rfl⟩⟩
  · rename_i hne
    exact .inr ⟨Ne.symm hne, h⟩

/-- A level that is not at the price of the update stays. -/
theorem updateLevel_other {side : BookSide} {toKey : P ≃ K} {price other : P} {qty : Int}
    (hne : other ≠ price) :
    (updateLevel side (toKey price) price qty levels).1[toKey other]? =
      levels[toKey other]? := by
  rw [getElem?_updateLevel, if_neg fun heq => hne (toKey.injective heq).symm]

/-- An update empties a side only by taking away its last level. -/
theorem updateLevel_eq_empty {side : BookSide} {key : K} {price : P} {qty : Int} :
    (updateLevel side key price qty levels).1 = ∅ ↔
      qty = 0 ∧ ∀ key', key' ∈ levels ↔ key' = key := by
  have hget : (updateLevel side key price qty levels).1 = ∅ ↔
      ∀ key' : K, (updateLevel side key price qty levels).1[key']? = none := by
    constructor
    · intro h key'
      rw [h, ExtTreeMap.getElem?_empty]
    · intro h
      apply ExtTreeMap.ext_getElem?
      intro key'
      rw [h key', ExtTreeMap.getElem?_empty]
  simp only [hget, getElem?_updateLevel, ExtTreeMap.mem_iff_isSome_getElem?]
  constructor
  · intro h
    have hself := h key
    rw [if_pos rfl] at hself
    split at hself
    · rename_i level hlevel
      have hzero : qty = 0 := by
        by_contra hne
        rw [if_neg hne] at hself
        cases hself
      refine ⟨hzero, fun key' => ⟨fun hkey' => ?_, fun heq => by rw [heq, hlevel]; rfl⟩⟩
      by_contra hne
      have hother := h key'
      rw [if_neg (Ne.symm hne)] at hother
      rw [hother] at hkey'
      cases hkey'
    · cases hself
  · rintro ⟨rfl, honly⟩ key'
    split
    · obtain ⟨level, hlevel⟩ := Option.isSome_iff_exists.mp ((honly key).mpr rfl)
      rw [hlevel]
      exact if_pos rfl
    · rename_i hne
      exact Option.not_isSome_iff_eq_none.mp fun hsome => hne ((honly key').mp hsome).symm

end Side

/-! ### The replay of the updates -/

section Replay

variable [LinearOrder P]

/-- A call of `update_bid` or `update_ask`. -/
structure Update (P : Type) where
  side : BookSide
  price : P
  quantity : Int
deriving DecidableEq, Repr

def MarketSnapshot.apply (s : MarketSnapshot P) (u : Update P) : MarketSnapshot P :=
  match u.side with
  | .bid => (s.updateBid u.price u.quantity).1
  | .ask => (s.updateAsk u.price u.quantity).1

def MarketSnapshot.after (updates : List (Update P)) : MarketSnapshot P :=
  updates.foldl MarketSnapshot.apply .new

/-- The quantity of the last update of a price. -/
def lastQuantity (side : BookSide) (price : P) (updates : List (Update P)) : Option Int :=
  ((updates.filter fun u => u.side = side ∧ u.price = price).getLast?).map (·.quantity)

/-- What the updates leave at a price: the last one wins, and zero removes. -/
def remaining (side : BookSide) (price : P) (updates : List (Update P)) : Option Int :=
  (lastQuantity side price updates).filter (0 < ·)

/-- The snapshot is the replay of the updates. -/
structure Replays (updates : List (Update P)) (s : MarketSnapshot P) : Prop where
  bids : ∀ price, s.bids[OrderDual.toDual price]? =
    (remaining .bid price updates).map (PriceLevel.mk price)
  asks : ∀ price, s.asks[price]? = (remaining .ask price updates).map (PriceLevel.mk price)
  bestBid : ∀ level, s.getBestBid = some level ↔
    remaining .bid level.price updates = some level.quantity ∧
      ∀ price, (remaining .bid price updates).isSome → price ≤ level.price
  noBid : s.getBestBid = none ↔ ∀ price, remaining .bid price updates = none
  bestAsk : ∀ level, s.getBestAsk = some level ↔
    remaining .ask level.price updates = some level.quantity ∧
      ∀ price, (remaining .ask price updates).isSome → level.price ≤ price
  noAsk : s.getBestAsk = none ↔ ∀ price, remaining .ask price updates = none

theorem remaining_append (side : BookSide) (price : P) (updates : List (Update P)) (u : Update P) :
    remaining side price (updates ++ [u]) =
      if u.side = side ∧ u.price = price then (some u.quantity).filter (0 < ·)
      else remaining side price updates := by
  rw [remaining, lastQuantity, List.filter_append]
  by_cases h : u.side = side ∧ u.price = price
  · rw [List.filter_cons_of_pos (by simpa using h), List.filter_nil, List.getLast?_concat, if_pos h]
    rfl
  · rw [List.filter_cons_of_neg (by simpa using h), List.filter_nil, List.append_nil, if_neg h]
    rfl

/-- The levels of a side are what is left of the prices; `toKey` is the price as a key. -/
def Holds (toKey : P ≃ K) (left : P → Option Int) (levels : ExtTreeMap K (PriceLevel P)) : Prop :=
  ∀ price, levels[toKey price]? = (left price).map (PriceLevel.mk price)

variable {toKey : P ≃ K} {left : P → Option Int} {levels : ExtTreeMap K (PriceLevel P)}

omit [LinearOrder P] in
theorem Holds.bestLevel_some (h : Holds toKey left levels) (level : PriceLevel P) :
    bestLevel levels = some level ↔ left level.price = some level.quantity ∧
      ∀ price, (left price).isSome → toKey level.price ≤ toKey price := by
  rw [bestLevel_eq_some, toKey.surjective.exists]
  constructor
  · rintro ⟨price, hlevel, hleast⟩
    rw [h price, Option.map_eq_some_iff] at hlevel
    obtain ⟨quantity, hleft, rfl⟩ := hlevel
    refine ⟨hleft, fun other hother => hleast _ ?_⟩
    rw [ExtTreeMap.mem_iff_isSome_getElem?, h other, Option.isSome_map]
    exact hother
  · rintro ⟨hleft, hleast⟩
    refine ⟨level.price, by rw [h, hleft]; rfl, ?_⟩
    rw [toKey.surjective.forall]
    intro other hother
    rw [ExtTreeMap.mem_iff_isSome_getElem?, h other, Option.isSome_map] at hother
    exact hleast other hother

omit [LinearOrder P] in
theorem Holds.bestLevel_none (h : Holds toKey left levels) :
    bestLevel levels = none ↔ ∀ price, left price = none := by
  rw [bestLevel_eq_none]
  constructor
  · rintro rfl price
    have hprice := h price
    rw [ExtTreeMap.getElem?_empty] at hprice
    exact Option.map_eq_none_iff.mp hprice.symm
  · intro hnone
    apply ExtTreeMap.ext_getElem?
    rw [toKey.surjective.forall]
    intro price
    rw [h price, hnone price, ExtTreeMap.getElem?_empty]
    rfl

/-- An update leaves its quantity, as long as zero only comes to a level that is there. -/
theorem Holds.updateLevel (h : Holds toKey left levels) (side : BookSide) {price : P} {qty : Int}
    (hqty : 0 ≤ qty) (hzero : qty = 0 → (left price).isSome) :
    Holds toKey (Function.update left price ((some qty).filter (0 < ·)))
      (updateLevel side (toKey price) price qty levels).1 := by
  intro other
  rw [getElem?_updateLevel]
  by_cases hsame : price = other
  · subst hsame
    rw [if_pos rfl, Function.update_self, h price]
    by_cases hqty0 : qty = 0
    · obtain ⟨q, hq⟩ := Option.isSome_iff_exists.mp (hzero hqty0)
      simp [hq, hqty0, Option.filter_some]
    · have hpos : 0 < qty := by omega
      cases left price <;> simp [hqty0, hpos, Option.filter_some]
  · rw [if_neg fun heq => hsame (toKey.injective heq), Function.update_of_ne (Ne.symm hsame),
      h other]

theorem Holds.replays {updates : List (Update P)} {s : MarketSnapshot P}
    (hbids : Holds OrderDual.toDual (remaining .bid · updates) s.bids)
    (hasks : Holds (Equiv.refl P) (remaining .ask · updates) s.asks) : Replays updates s where
  bids := hbids
  asks := hasks
  bestBid := hbids.bestLevel_some
  noBid := hbids.bestLevel_none
  bestAsk := hasks.bestLevel_some
  noAsk := hasks.bestLevel_none

theorem update_remaining (updates : List (Update P)) (u : Update P) (side : BookSide) :
    (remaining side · (updates ++ [u])) =
      if u.side = side then
        Function.update (remaining side · updates) u.price ((some u.quantity).filter (0 < ·))
      else (remaining side · updates) := by
  funext price
  rw [remaining_append]
  by_cases hside : u.side = side
  · rw [if_pos hside, Function.update_apply]
    simp only [hside, true_and, eq_comm]
  · rw [if_neg hside, if_neg fun h => hside h.1]

/-- One update more. -/
theorem Replays.apply {updates : List (Update P)} {s : MarketSnapshot P} (h : Replays updates s)
    {u : Update P} (hqty : 0 ≤ u.quantity)
    (hzero : u.quantity = 0 → (remaining u.side u.price updates).isSome) :
    Replays (updates ++ [u]) (s.apply u) := by
  obtain ⟨side, price, qty⟩ := u
  have hbids : Holds OrderDual.toDual (remaining .bid · updates) s.bids := h.bids
  have hasks : Holds (Equiv.refl P) (remaining .ask · updates) s.asks := h.asks
  cases side with
  | bid =>
      refine Holds.replays ?_ ?_
      · rw [update_remaining, if_pos rfl]
        exact hbids.updateLevel .bid hqty hzero
      · rw [update_remaining, if_neg (by simp)]
        exact hasks
  | ask =>
      refine Holds.replays ?_ ?_
      · rw [update_remaining, if_neg (by simp)]
        exact hbids
      · rw [update_remaining, if_pos rfl]
        exact hasks.updateLevel .ask hqty hzero

/-- A quantity of zero at a price without a level makes one. -/
theorem Replays.broken {updates : List (Update P)} {s : MarketSnapshot P} (h : Replays updates s)
    {u : Update P} (hzero : u.quantity = 0) (hnone : remaining u.side u.price updates = none) :
    ¬ Replays (updates ++ [u]) (s.apply u) := by
  obtain ⟨side, price, qty⟩ := u
  obtain rfl : qty = 0 := hzero
  intro hreplays
  have hremoved : remaining side price (updates ++ [⟨side, price, 0⟩]) = none := by
    rw [remaining_append, if_pos ⟨rfl, rfl⟩]
    rfl
  cases side with
  | bid =>
      have hlevel := hreplays.bids price
      have hbefore := h.bids price
      rw [hnone] at hbefore
      rw [hremoved] at hlevel
      change (updateLevel .bid (OrderDual.toDual price) price 0 s.bids).1[_]? = _ at hlevel
      rw [getElem?_updateLevel, if_pos rfl, hbefore] at hlevel
      cases hlevel
  | ask =>
      have hlevel := hreplays.asks price
      have hbefore := h.asks price
      rw [hnone] at hbefore
      rw [hremoved] at hlevel
      change (updateLevel .ask price price 0 s.asks).1[_]? = _ at hlevel
      rw [getElem?_updateLevel, if_pos rfl, hbefore] at hlevel
      cases hlevel

end Replay

end HftProject.Week3
