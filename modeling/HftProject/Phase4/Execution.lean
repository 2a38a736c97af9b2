import HftProject.Lib.Clearing
import HftProject.Phase4.Runs

/-!
What `matchOrders` executes. `System.lots` reads a side as a queue of lots; with a
positive quantity in every resting order, a run of the matching loop is the greedy
procedure `Clearing.Clears` on the two queues (`MatchRun.clears`). The volume, its
maximality and price-time priority are then facts about that procedure.
-/

namespace HftProject.Phase4

open Clearing

variable {P I : Type} [LinearOrder P] [LinearOrder I] {L : Layout}

namespace System

variable {s t : System P I}

/-! ### The two queues -/

/-- The quantity in the record of an order; an order that is gone has none. -/
def quantity (s : System P I) (q : OrderPtr) : Int :=
  match s.order? q with
  | some o => o.quantity
  | none => 0

omit [LinearOrder P] in
theorem quantity_of_order {q : OrderPtr} {o : Order P I} (ho : s.order? q = some o) :
    s.quantity q = o.quantity := by
  simp [quantity, ho]

/-- Every resting order has quantity left. -/
def Stocked (s : System P I) : Prop := ∀ q ∈ s.resting, 0 < s.quantity q

instance (s : System P I) : Decidable s.Stocked :=
  inferInstanceAs (Decidable (∀ q ∈ s.resting, 0 < s.quantity q))

/-- An entry as a lot, with the pointer for its name. -/
def lot (s : System P I) (e : P × OrderPtr) : Lot P OrderPtr := ⟨e.1, s.quantity e.2, e.2⟩

/-- A side as a queue of lots, best first. -/
def lots (s : System P I) (b : Bool) : List (Lot P OrderPtr) := (s.book.side b).map s.lot

omit [LinearOrder P] in
theorem map_lot_keys (s : System P I) (m : Multimap P OrderPtr) :
    (m.map s.lot).map Lot.key = m := by
  simp [lot, Lot.key, Function.comp_def]

omit [LinearOrder P] in
theorem lots_keys (s : System P I) (b : Bool) : (s.lots b).map Lot.key = s.book.side b :=
  map_lot_keys s _

omit [LinearOrder P] in
/-- A lot of a side is the lot of one of its entries. -/
theorem of_mem_lots {b : Bool} {f : P × OrderPtr} {u : Int} (h : ⟨f.1, u, f.2⟩ ∈ s.lots b) :
    f ∈ s.book.side b ∧ s.quantity f.2 = u := by
  obtain ⟨g, hg, hgf⟩ := List.mem_map.mp h
  have hkey : g = f := congrArg Lot.key hgf
  rw [hkey] at hg hgf
  exact ⟨hg, congrArg Lot.units hgf⟩

omit [LinearOrder P] in
theorem lots_prices (s : System P I) (b : Bool) :
    (s.lots b).map Lot.price = (s.book.side b).map (·.1) := by
  simp [lots, lot, Function.comp_def]

omit [LinearOrder P] in
theorem stocked_iff : s.Stocked ↔ ∀ b, Positive (s.lots b) := by
  constructor
  · intro h b e he
    obtain ⟨⟨k, q⟩, hmem, rfl⟩ := List.mem_map.mp he
    exact h q (mem_resting.mpr ⟨b, k, hmem⟩)
  · intro h q hq
    obtain ⟨b, k, hmem⟩ := mem_resting.mp hq
    exact h b _ (List.mem_map_of_mem hmem)

theorem Ok.bidSorted (h : s.Ok L) : BidSorted (s.lots true) := by
  rw [BidSorted, lots_prices, List.pairwise_map]
  exact h.bidsSorted.imp fun hef => not_lt.mp hef

theorem Ok.askSorted (h : s.Ok L) : AskSorted (s.lots false) := by
  rw [AskSorted, lots_prices, List.pairwise_map]
  exact h.asksSorted.imp fun hef => not_lt.mp hef

/-! ### An iteration consumes -/

variable {x y : P × OrderPtr} {buy sell : Order P I}

/-- The head of a side, its record and what the iteration makes of the side. -/
theorem Traded.side (h : Traded s t x y buy sell) (b : Bool) :
    ∃ e o rest, s.book.side b = e :: rest ∧ (e = x ∨ e = y) ∧ s.order? e.2 = some o ∧
      min buy.quantity sell.quantity ≤ o.quantity ∧
      t.book.side b = if o.quantity ≤ min buy.quantity sell.quantity then rest else e :: rest := by
  cases b with
  | true =>
      cases hbids : s.book.bids with
      | nil =>
          have hbest := h.bestBid
          rw [hbids] at hbest
          cases hbest
      | cons e rest =>
          have hbest := h.bestBid
          rw [hbids] at hbest
          cases hbest
          refine ⟨x, buy, rest, hbids, Or.inl rfl, h.buyer, min_le_left _ _, ?_⟩
          rw [OrderBook.side_true, h.bids, hbids]
          refine if_congr ?_ rfl rfl
          simp
  | false =>
      cases hasks : s.book.asks with
      | nil =>
          have hbest := h.bestAsk
          rw [hasks] at hbest
          cases hbest
      | cons e rest =>
          have hbest := h.bestAsk
          rw [hasks] at hbest
          cases hbest
          refine ⟨y, sell, rest, hasks, Or.inr rfl, h.seller, min_le_right _ _, ?_⟩
          rw [OrderBook.side_false, h.asks, hasks]
          refine if_congr ?_ rfl rfl
          simp

/-- What an iteration takes off an order that stays alive. -/
theorem Traded.quantity (h : Traded s t x y buy sell) {r : OrderPtr} {o' : Order P I}
    (ho' : t.order? r = some o') : t.quantity r = s.quantity r -
      if r.ptr = x.2.ptr ∨ r.ptr = y.2.ptr then min buy.quantity sell.quantity else 0 := by
  obtain ⟨o, ho, rfl⟩ := h.order r o' ho'
  rw [quantity_of_order ho', quantity_of_order ho]

/-- Behind the heads an iteration changes nothing. -/
theorem Traded.lot_behind (h : Traded s t x y buy sell) (hs : s.Ok L) (ht : t.Ok L) {b : Bool}
    {e f : P × OrderPtr} {rest : Multimap P OrderPtr} (hside : s.book.side b = e :: rest)
    (he : e = x ∨ e = y) (hf : f ∈ rest) (hft : f ∈ t.book.side b) : t.lot f = s.lot f := by
  obtain ⟨o', ho', -⟩ := ht.placed b f.1 f.2 hft
  have hfs : f ∈ s.book.side b := by
    rw [hside]
    exact List.mem_cons_of_mem _ hf
  have hx : x ∈ s.book.bids := List.mem_of_mem_head? h.bestBid
  have hy : y ∈ s.book.asks := List.mem_of_mem_head? h.bestAsk
  -- Within the side an order occurs once; across the sides orders are different.
  have hne : ∀ z : P × OrderPtr, z ∈ s.book.side b → z = e → f.2.ptr ≠ z.2.ptr := by
    rintro z hz rfl hptr
    have hfz : f.2 = z.2 := hs.inj _ (mem_refs_of_resting (mem_resting.mpr ⟨b, f.1, hfs⟩)) _
      (mem_refs_of_resting (mem_resting.mpr ⟨b, z.1, hz⟩)) hptr
    have honce := hs.side_once b
    rw [hside, List.map_cons, List.nodup_cons] at honce
    exact honce.1 (List.mem_map.mpr ⟨f, hf, hfz⟩)
  have hapart : f.2.ptr ≠ x.2.ptr ∧ f.2.ptr ≠ y.2.ptr := by
    cases b with
    | true =>
        have hex : x = e := by
          have hbest := h.bestBid
          rw [show s.book.bids = e :: rest from hside] at hbest
          exact (Option.some.inj hbest).symm
        exact ⟨hne x hx hex, fun hptr => hs.heads_apart hfs hy hptr.symm⟩
    | false =>
        have hey : y = e := by
          have hbest := h.bestAsk
          rw [show s.book.asks = e :: rest from hside] at hbest
          exact (Option.some.inj hbest).symm
        exact ⟨fun hptr => hs.heads_apart hx hfs hptr, hne y hy hey⟩
  simp only [lot, h.quantity ho', hapart.1, hapart.2, or_self, if_false, Int.sub_zero]

/-- On either side an iteration consumes the smaller of the heads' quantities. -/
theorem Traded.lots (h : Traded s t x y buy sell) (hs : s.Ok L) (ht : t.Ok L)
    (hpos : s.Stocked) (b : Bool) :
    t.lots b = consume (min buy.quantity sell.quantity) (s.lots b) := by
  obtain ⟨e, o, rest, hside, he, ho, hle, htside⟩ := h.side b
  have hunits : (s.lot e).units = o.quantity := quantity_of_order ho
  have hrest : Positive (rest.map s.lot) := by
    have hall := stocked_iff.mp hpos b
    rw [System.lots, hside, List.map_cons] at hall
    exact (positive_cons.mp hall).2
  have hsame : (∀ f ∈ rest, f ∈ t.book.side b) → rest.map t.lot = rest.map s.lot := fun hmem =>
    List.map_congr_left fun f hf => h.lot_behind hs ht hside he hf (hmem f hf)
  rw [System.lots, System.lots, hside, htside, List.map_cons]
  by_cases hfilled : o.quantity ≤ min buy.quantity sell.quantity
  · have hall : min buy.quantity sell.quantity = o.quantity := le_antisymm hle hfilled
    rw [if_pos hfilled] at htside ⊢
    rw [hsame fun f hf => by rw [htside]; exact hf, hall,
      consume_cons_of_le (le_of_eq hunits), hunits, sub_self, consume_zero hrest]
  · rw [if_neg hfilled] at htside ⊢
    have hmem : ∀ f ∈ e :: rest, f ∈ t.book.side b := fun f hf => by rw [htside]; exact hf
    rw [List.map_cons, hsame fun f hf => hmem f (List.mem_cons_of_mem _ hf),
      consume_cons_of_lt (by rw [hunits]; exact not_le.mp hfilled)]
    obtain ⟨o', ho', -⟩ := ht.placed b e.1 e.2 (hmem e List.mem_cons_self)
    have hhead : e.2.ptr = x.2.ptr ∨ e.2.ptr = y.2.ptr := by
      rcases he with rfl | rfl
      · exact Or.inl rfl
      · exact Or.inr rfl
    simp only [lot, h.quantity ho', hhead, if_true]

/-- What rests after a trade still has quantity left. -/
theorem Traded.stocked (h : Traded s t x y buy sell) (hs : s.Ok L) (ht : t.Ok L)
    (hpos : s.Stocked) : t.Stocked := by
  refine stocked_iff.mpr fun b => ?_
  rw [h.lots hs ht hpos b]
  exact (stocked_iff.mp hpos b).consume _

/-! ### A run clears -/

theorem MatchRun.stocked (h : MatchRun L s t) (hpos : s.Stocked) : t.Stocked := by
  induction h with
  | stop => exact hpos
  | next hs htraded hrun ih => exact ih (htraded.stocked hs hrun.source hpos)

/-- **The matching loop is the greedy procedure.** -/
theorem MatchRun.clears (h : MatchRun L s t) (hpos : s.Stocked) :
    ∃ v, Clears (s.lots true) (s.lots false) v (t.lots true) (t.lots false) := by
  induction h with
  | @stop s _ hstop =>
      refine ⟨0, .done fun x hx y hy => ?_⟩
      rw [System.lots, List.head?_map] at hx hy
      obtain ⟨e, he, rfl⟩ := Option.mem_map.mp hx
      obtain ⟨f, hf, rfl⟩ := Option.mem_map.mp hy
      exact hstop e he f hf
  | @next s m t x y buy sell hs htraded hrun ih =>
      have hbids := htraded.lots hs hrun.source hpos true
      have hasks := htraded.lots hs hrun.source hpos false
      have hpos' : m.Stocked := htraded.stocked hs hrun.source hpos
      obtain ⟨v, hclears⟩ := ih hpos'
      obtain ⟨ex, ox, restx, hsidex, -, -, -, -⟩ := htraded.side true
      obtain ⟨ey, oy, resty, hsidey, -, -, -, -⟩ := htraded.side false
      have hex : ex = x := by
        have hbest := htraded.bestBid
        rw [show s.book.bids = ex :: restx from hsidex] at hbest
        exact Option.some.inj hbest
      have hey : ey = y := by
        have hbest := htraded.bestAsk
        rw [show s.book.asks = ey :: resty from hsidey] at hbest
        exact Option.some.inj hbest
      subst hex hey
      have hx : (s.lot ex).units = buy.quantity := quantity_of_order htraded.buyer
      have hy : (s.lot ey).units = sell.quantity := quantity_of_order htraded.seller
      have hmin : min (s.lot ex).units (s.lot ey).units = min buy.quantity sell.quantity := by
        rw [hx, hy]
      have hlx : s.lots true = s.lot ex :: restx.map s.lot := by
        rw [System.lots, hsidex, List.map_cons]
      have hly : s.lots false = s.lot ey :: resty.map s.lot := by
        rw [System.lots, hsidey, List.map_cons]
      rw [hbids, hasks, hlx, hly, ← hmin] at hclears
      refine ⟨min (s.lot ex).units (s.lot ey).units + v, ?_⟩
      rw [hlx, hly]
      exact .trade htraded.crossed hclears

/-! ### What follows for the records -/

/-- An order that was erased had nothing left to trade. -/
theorem MatchRun.erased_filled (h : MatchRun L s t) (hpos : s.Stocked) {q : OrderPtr}
    (hq : q ∈ s.resting) (hgone : q ∉ t.resting) {o' : Order P I} (ho' : t.order? q = some o') :
    o'.quantity = 0 := by
  induction h with
  | stop => exact absurd hq hgone
  | @next s m t x y buy sell hs htraded hrun ih =>
      have hpos' : m.Stocked := htraded.stocked hs hrun.source hpos
      by_cases hm : q ∈ m.resting
      · exact ih hpos' hm hgone ho'
      · have hmq : m.order? q = some o' := by
          refine hrun.idle (fun r hr hptr => hm ?_) ho'
          obtain ⟨b, k, hmem⟩ := mem_resting.mp hr
          have hrs : r ∈ s.resting :=
            mem_resting.mpr ⟨b, k, (htraded.side_suffix b).subset hmem⟩
          rwa [hs.inj q (mem_refs_of_resting hq) r (mem_refs_of_resting hrs) hptr.symm]
        obtain ⟨b, k, hmem⟩ := mem_resting.mp hq
        obtain ⟨e, o, rest, hside, he, ho, hle, hmside⟩ := htraded.side b
        have hnot : (k, q) ∉ m.book.side b := fun hin => hm (mem_resting.mpr ⟨b, k, hin⟩)
        -- The entry that disappears is the head, and it had exactly the traded quantity.
        rw [hside] at hmem
        rw [hmside] at hnot
        by_cases hfilled : o.quantity ≤ min buy.quantity sell.quantity
        · rw [if_pos hfilled] at hnot
          rcases List.mem_cons.mp hmem with heq | hrest
          · subst heq
            have hhead : q.ptr = x.2.ptr ∨ q.ptr = y.2.ptr := by
              rcases he with rfl | rfl
              · exact Or.inl rfl
              · exact Or.inr rfl
            have hquantity := htraded.quantity hmq
            rw [quantity_of_order hmq, quantity_of_order ho, if_pos hhead] at hquantity
            omega
          · exact absurd hrest hnot
        · rw [if_neg hfilled] at hnot
          exact absurd hmem hnot

/-- Quantities of live orders only go down, and not below zero. -/
theorem MatchRun.quantity_bounds (h : MatchRun L s t) (hpos : s.Stocked) {r : OrderPtr}
    {o' : Order P I} (ho' : t.order? r = some o') (hr : 0 ≤ s.quantity r) :
    0 ≤ t.quantity r ∧ t.quantity r ≤ s.quantity r := by
  induction h with
  | stop => exact ⟨hr, le_refl _⟩
  | @next s m t x y buy sell hs htraded hrun ih =>
      obtain ⟨om, hm, -⟩ := hrun.order ho'
      have hquantity := htraded.quantity hm
      have hbuy := hpos x.2 htraded.heads_resting.1
      have hsell := hpos y.2 htraded.heads_resting.2
      rw [quantity_of_order htraded.buyer] at hbuy
      rw [quantity_of_order htraded.seller] at hsell
      have hhead : r.ptr = x.2.ptr ∨ r.ptr = y.2.ptr →
          min buy.quantity sell.quantity ≤ s.quantity r := by
        rintro (hptr | hptr)
        · have hsame : s.quantity r = buy.quantity :=
            quantity_of_order (by simpa [order?, hptr] using htraded.buyer)
          omega
        · have hsame : s.quantity r = sell.quantity :=
            quantity_of_order (by simpa [order?, hptr] using htraded.seller)
          omega
      have hpos' : m.Stocked := htraded.stocked hs hrun.source hpos
      have hmr : 0 ≤ m.quantity r ∧ m.quantity r ≤ s.quantity r := by
        split at hquantity
        · have := hhead ‹_›
          omega
        · omega
      obtain ⟨hnn, hle⟩ := ih hpos' ho' hmr.1
      exact ⟨hnn, le_trans hle hmr.2⟩

/-- On side `b` entry `e` has priority over entry `f`: a better price, or the same price
and an earlier arrival. -/
def Ahead (b : Bool) (e f : P × OrderPtr) : Prop :=
  (if b then f.1 < e.1 else e.1 < f.1) ∨ (e.1 = f.1 ∧ e.2.ctrl < f.2.ctrl)

/-- Between `s` and `t` entry `f` was filled, at least in part. -/
def Hit (s t : System P I) (b : Bool) (f : P × OrderPtr) : Prop :=
  f ∉ t.book.side b ∨ t.quantity f.2 < s.quantity f.2

/-- Priority is the order of iteration. -/
theorem Ok.ahead_precedes (h : s.Ok L) {b : Bool} {e f : P × OrderPtr}
    {front back : Multimap P OrderPtr} (hside : s.book.side b = front ++ f :: back)
    (he : e ∈ s.book.side b) (hahead : Ahead b e f) : e ∈ front ∧ e ∉ f :: back := by
  have hnot : e ∉ f :: back := by
    intro hin
    rcases List.mem_cons.mp hin with rfl | hin
    · rcases hahead with hprice | ⟨-, hctrl⟩
      · split at hprice <;> exact lt_irrefl _ hprice
      · exact lt_irrefl _ hctrl
    · have hbehind : ∀ {R : P × OrderPtr → P × OrderPtr → Prop},
          (s.book.side b).Pairwise R → R f e := by
        intro R hR
        rw [hside] at hR
        exact (List.pairwise_cons.mp (List.pairwise_append.mp hR).2.1).1 e hin
      rcases hahead with hprice | ⟨hprice, hctrl⟩
      · cases b with
        | true => exact hbehind h.bidsSorted hprice
        | false => exact hbehind h.asksSorted hprice
      · exact lt_asymm hctrl (hbehind (h.arrival b) hprice.symm)
  rw [hside] at he
  exact ⟨(List.mem_append.mp he).resolve_right hnot, hnot⟩

/-- When a queue loses units from its front, an entry is touched only after everything
that has priority over it is gone. -/
theorem Ok.priority_of_consume (h : s.Ok L) (hpos : s.Stocked) {v : Int} (hv : 0 ≤ v) {b : Bool}
    (hlots : t.lots b = consume v (s.lots b)) {e f : P × OrderPtr} (he : e ∈ s.book.side b)
    (hf : f ∈ s.book.side b) (hahead : Ahead b e f) (hhit : Hit s t b f) :
    e ∉ t.book.side b := by
  obtain ⟨front, back, hside⟩ := List.append_of_mem hf
  obtain ⟨-, hnot⟩ := h.ahead_precedes hside he hahead
  have hfront : Positive (front.map s.lot) := by
    apply (stocked_iff.mp hpos b).sublist
    rw [System.lots, hside, List.map_append]
    exact List.sublist_append_left _ _
  rw [System.lots.eq_def s, hside, List.map_append, consume_append hv hfront] at hlots
  by_cases hall : total (front.map s.lot) ≤ v
  · rw [if_pos hall] at hlots
    have hsuffix := consume_keys_suffix (v - total (front.map s.lot)) ((f :: back).map s.lot)
    rw [← hlots, lots_keys, map_lot_keys] at hsuffix
    exact fun hin => hnot (hsuffix.subset hin)
  · rw [if_neg hall] at hlots
    have hlot : s.lot f ∈ t.lots b := by
      rw [hlots, List.map_cons]
      exact List.mem_append.mpr (Or.inr List.mem_cons_self)
    obtain ⟨hin, hquantity⟩ := of_mem_lots hlot
    rcases hhit with hgone | hless
    · exact absurd hin hgone
    · exact absurd hquantity (ne_of_lt hless)

/-- An order that left its side rests nowhere. -/
theorem MatchRun.not_resting (h : MatchRun L s t) {b : Bool} {f : P × OrderPtr}
    (hf : f ∈ s.book.side b) (hgone : f ∉ t.book.side b) : f.2 ∉ t.resting := by
  intro hin
  obtain ⟨b', k, hmem⟩ := mem_resting.mp hin
  obtain ⟨o, ho, hk, hb, -⟩ := h.source.placed b f.1 f.2 hf
  obtain ⟨o', ho', hk', hb', -⟩ := h.source.placed b' k f.2 ((h.side_suffix b').subset hmem)
  have heq : o' = o := Option.some.inj (ho'.symm.trans ho)
  rw [heq] at hk' hb'
  have hbb : b' = b := hb'.symm.trans hb
  have hkk : k = f.1 := hk'.symm.trans hk
  subst hbb hkk
  exact hgone hmem

/-- When `v` units leave the front of a side, an order keeps its quantity exactly if the
orders in front of it have `v` units. -/
theorem MatchRun.quantity_eq_iff (h : MatchRun L s t) (hpos : s.Stocked) {v : Int} (hv : 0 ≤ v)
    {b : Bool} (hlots : t.lots b = consume v (s.lots b)) {f : P × OrderPtr}
    {front back : Multimap P OrderPtr} (hside : s.book.side b = front ++ f :: back) :
    t.quantity f.2 = s.quantity f.2 ↔ v ≤ total (front.map s.lot) := by
  have hf : f ∈ s.book.side b := by
    rw [hside]
    exact List.mem_append.mpr (Or.inr List.mem_cons_self)
  have hfpos : 0 < s.quantity f.2 := hpos f.2 (mem_resting.mpr ⟨b, f.1, hf⟩)
  have hall := stocked_iff.mp hpos b
  rw [System.lots, hside, List.map_append, List.map_cons] at hall
  have hfront : Positive (front.map s.lot) := hall.sublist (List.sublist_append_left _ _)
  have htail : Positive (s.lot f :: back.map s.lot) :=
    hall.sublist (List.sublist_append_right _ _)
  have hkept : s.lot f ∈ t.lots b → t.quantity f.2 = s.quantity f.2 := fun hin =>
    (of_mem_lots hin).2
  rw [System.lots.eq_def s, hside, List.map_append, List.map_cons, consume_append hv hfront]
    at hlots
  rcases lt_trichotomy v (total (front.map s.lot)) with hlt | heq | hgt
  · rw [if_neg (not_le.mpr hlt)] at hlots
    refine iff_of_true (hkept ?_) (le_of_lt hlt)
    rw [hlots]
    exact List.mem_append.mpr (Or.inr List.mem_cons_self)
  · rw [if_pos (le_of_eq heq.symm), ← heq, sub_self, consume_zero htail] at hlots
    refine iff_of_true (hkept ?_) (le_of_eq heq)
    rw [hlots]
    exact List.mem_cons_self
  · rw [if_pos (le_of_lt hgt)] at hlots
    refine iff_of_false (fun hsame => ?_) (not_le.mpr hgt)
    by_cases hunits : (s.lot f).units ≤ v - total (front.map s.lot)
    · -- Everything of it is consumed: it is gone from the side, and its record is empty.
      rw [consume_cons_of_le hunits] at hlots
      have hgone : f.2 ∉ t.resting := by
        refine h.not_resting hf fun hin => ?_
        have hsuffix := consume_keys_suffix
          (v - total (front.map s.lot) - (s.lot f).units) (back.map s.lot)
        rw [← hlots, lots_keys, map_lot_keys] at hsuffix
        have honce := h.source.side_once b
        rw [hside, List.map_append, List.map_cons] at honce
        have hnot := (List.nodup_cons.mp (List.nodup_append.mp honce).2.1).1
        exact hnot (List.mem_map.mpr ⟨f, hsuffix.subset hin, rfl⟩)
      have hzero : t.quantity f.2 = 0 := by
        cases ho : t.order? f.2 with
        | none => simp [System.quantity, ho]
        | some o' =>
            rw [quantity_of_order ho]
            exact h.erased_filled hpos (mem_resting.mpr ⟨b, f.1, hf⟩) hgone ho
      omega
    · rw [consume_cons_of_lt (not_le.mp hunits)] at hlots
      have hin : ({ s.lot f with units := (s.lot f).units - (v - total (front.map s.lot)) } :
          Lot P OrderPtr) ∈ t.lots b := by
        rw [hlots]
        exact List.mem_cons_self
      have hless : t.quantity f.2 = s.quantity f.2 - (v - total (front.map s.lot)) :=
        (of_mem_lots hin).2
      omega

/-- A bid keeps its quantity exactly if the bids in front of it can take everything that
is asked at its price or less. -/
theorem MatchRun.spares_iff (h : MatchRun L s t) (hpos : s.Stocked) {k : P} {q : OrderPtr}
    {front back : Multimap P OrderPtr} (hside : s.book.bids = front ++ (k, q) :: back) :
    t.quantity q = s.quantity q ↔ supply k (s.lots false) ≤ total (front.map s.lot) := by
  obtain ⟨v, hclears⟩ := h.clears hpos
  have hbids := stocked_iff.mp hpos true
  have hasks := stocked_iff.mp hpos false
  have hv := hclears.volume_nonneg hbids hasks
  have hlots : s.lots true = front.map s.lot ++ s.lot (k, q) :: back.map s.lot := by
    rw [System.lots, OrderBook.side_true, hside, List.map_append, List.map_cons]
  rw [h.quantity_eq_iff hpos hv (b := true) (hclears.bids_eq hbids hasks).1 (f := (k, q)) hside]
  exact hclears.spares_iff hbids hasks h.source.bidSorted h.source.askSorted hlots

end System

/-! ### The two theorems about `matchOrders` -/

/-- `matchOrders` on a stocked book clears it: `v` units leave the front of both sides. -/
theorem BookState.matchOrders_clears (s : BookState L P I) (hpos : s.1.Stocked) :
    ∃ (t : BookState L P I) (v : Int), s.1.matchOrders L = .ok t.1 ∧
      System.MatchRun L s.1 t.1 ∧
      Clears (s.1.lots true) (s.1.lots false) v (t.1.lots true) (t.1.lots false) ∧ 0 ≤ v ∧
      (∀ b, t.1.lots b = consume v (s.1.lots b)) ∧
      ∀ b, total (s.1.lots b) - total (t.1.lots b) = v := by
  obtain ⟨t, hmatch, hrun⟩ := s.2.matchOrders
  obtain ⟨v, hclears⟩ := hrun.clears hpos
  have hb := System.stocked_iff.mp hpos true
  have ha := System.stocked_iff.mp hpos false
  have hv := hclears.volume_nonneg hb ha
  obtain ⟨hbids, hbv⟩ := hclears.bids_eq hb ha
  obtain ⟨hasks, hav⟩ := hclears.asks_eq hb ha
  refine ⟨⟨t, hrun.target⟩, v, hmatch, hrun, hclears, hv, ?_, ?_⟩
  · rintro (_ | _)
    · exact hasks
    · exact hbids
  · rintro (_ | _)
    · rw [hasks, total_consume hv ha]
      omega
    · rw [hbids, total_consume hv hb]
      omega

/-- **`matchOrders` executes the maximum executable volume**, the same on both sides,
and leaves the book uncrossed. -/
theorem matchOrders_maximal [Inhabited P] (s : BookState L P I) (hpos : s.1.Stocked) :
    ∃ (t : BookState L P I) (v : Int), s.1.matchOrders L = .ok t.1 ∧
      IsGreatest (Set.range fun p => min (demand p (s.1.lots true)) (supply p (s.1.lots false))) v ∧
      total (s.1.lots true) - total (t.1.lots true) = v ∧
      total (s.1.lots false) - total (t.1.lots false) = v ∧ t.1.Uncrossed := by
  obtain ⟨t, v, hmatch, hrun, hclears, -, -, htotal⟩ := s.matchOrders_clears hpos
  refine ⟨t, v, hmatch, ?_, htotal true, htotal false, hrun.uncrossed⟩
  exact hclears.isGreatest (System.stocked_iff.mp hpos true) (System.stocked_iff.mp hpos false)
    s.2.bidSorted s.2.askSorted

/-- Two bids at one price and a better one, against asks that cross all three. -/
def BookState.crossed : BookState .lp64 Int Int :=
  (BookState.fresh (show Layout.lp64.sizeofOrder ≤ 56 by decide) (show 0 < 6 by decide)).calls
    [.addOrder 1 "A" 100 10 true, .addOrder 2 "A" 101 5 true, .addOrder 3 "A" 100 7 true,
      .addOrder 4 "A" 99 8 false, .addOrder 5 "A" 100 9 false]

theorem matchOrders_maximal_crossed : ∃ (t : BookState .lp64 Int Int) (v : Int),
    BookState.crossed.1.matchOrders .lp64 = .ok t.1 ∧
      IsGreatest (Set.range fun p => min (demand p (BookState.crossed.1.lots true))
        (supply p (BookState.crossed.1.lots false))) v ∧
      total (BookState.crossed.1.lots true) - total (t.1.lots true) = v ∧
      total (BookState.crossed.1.lots false) - total (t.1.lots false) = v ∧ t.1.Uncrossed :=
  matchOrders_maximal BookState.crossed (by decide +kernel)

/-- **Price-time priority and conservation.** `matchOrders` consumes one volume from the
front of both queues and changes nothing else in them; an order is hit only when all
orders with priority over it are filled and gone; what is erased is filled. -/
theorem matchOrders_priority (s : BookState L P I) (hpos : s.1.Stocked) :
    ∃ (t : BookState L P I) (v : Int), s.1.matchOrders L = .ok t.1 ∧ 0 ≤ v ∧
      (∀ b, t.1.lots b = consume v (s.1.lots b)) ∧
      (∀ b, total (s.1.lots b) - total (t.1.lots b) = v) ∧
      (∀ b, ∀ e ∈ s.1.book.side b, ∀ f ∈ s.1.book.side b, System.Ahead b e f →
        System.Hit s.1 t.1 b f → e ∉ t.1.book.side b) ∧
      (∀ q ∈ s.1.resting, q ∉ t.1.resting → ∀ o, t.1.order? q = some o → o.quantity = 0) ∧
      ∀ q o', t.1.order? q = some o' →
        ∃ o, s.1.order? q = some o ∧ o' = { o with quantity := o'.quantity } := by
  obtain ⟨t, v, hmatch, hrun, -, hv, hlots, htotal⟩ := s.matchOrders_clears hpos
  refine ⟨t, v, hmatch, hv, hlots, htotal, ?_, ?_, fun q o' => hrun.order⟩
  · intro b e he f hf hahead hhit
    exact s.2.priority_of_consume hpos hv (hlots b) he hf hahead hhit
  · intro q hq hgone o ho
    exact hrun.erased_filled hpos hq hgone ho

theorem matchOrders_priority_crossed : ∃ (t : BookState .lp64 Int Int) (v : Int),
    BookState.crossed.1.matchOrders .lp64 = .ok t.1 ∧ 0 ≤ v ∧
      (∀ b, t.1.lots b = consume v (BookState.crossed.1.lots b)) ∧
      (∀ b, total (BookState.crossed.1.lots b) - total (t.1.lots b) = v) ∧
      (∀ b, ∀ e ∈ BookState.crossed.1.book.side b, ∀ f ∈ BookState.crossed.1.book.side b,
        System.Ahead b e f → System.Hit BookState.crossed.1 t.1 b f → e ∉ t.1.book.side b) ∧
      (∀ q ∈ BookState.crossed.1.resting, q ∉ t.1.resting →
        ∀ o, t.1.order? q = some o → o.quantity = 0) ∧
      ∀ q o', t.1.order? q = some o' →
        ∃ o, BookState.crossed.1.order? q = some o ∧ o' = { o with quantity := o'.quantity } :=
  matchOrders_priority BookState.crossed (by decide +kernel)

end HftProject.Phase4
