import Mathlib.Algebra.BigOperators.Group.List.Basic
import Mathlib.Algebra.Order.BigOperators.Group.List
import Mathlib.Order.Bounds.Defs
import Mathlib.Algebra.Order.Ring.Int
import Mathlib.Tactic.Linarith

/-!
Clearing two queues against each other. A queue is a list of lots, each with a
price, a number of units and a tag that names it. `consume v` takes `v` units off
the front. `Clears bids asks v bids' asks'` is the greedy procedure: as long as the
two heads cross, take the smaller of their sizes off both queues.

* `Clears.bids_eq`, `Clears.asks_eq`: each side loses exactly the first `v` units.
* `Clears.spares_iff`: a bid is left alone exactly if the bids in front of it take all
  the supply that reaches it.
* `Clears.isGreatest`: on sorted queues of positive lots `v` is the largest
  executable volume, the maximum over all prices of the smaller of the demand at or
  above the price and the supply at or below it.
-/

namespace HftProject.Clearing

/-- Units offered at a price under a name. -/
structure Lot (P T : Type) where
  price : P
  units : Int
  tag : T
deriving DecidableEq, Repr

variable {P T : Type}

/-- What stays of a lot's identity while its units are consumed. -/
def Lot.key (e : Lot P T) : P × T := (e.price, e.tag)

/-- The units of a queue. -/
def total (q : List (Lot P T)) : Int := (q.map Lot.units).sum

/-- Every lot offers at least one unit. -/
def Positive (q : List (Lot P T)) : Prop := ∀ e ∈ q, 0 < e.units

/-- Take `v` units off the front of the queue: lots that lie wholly in the first
`v` units go, the lot that straddles unit `v` keeps its remainder. -/
def consume : Int → List (Lot P T) → List (Lot P T)
  | _, [] => []
  | v, e :: q => if e.units ≤ v then consume (v - e.units) q
      else { e with units := e.units - v } :: q

@[simp] theorem total_nil : total ([] : List (Lot P T)) = 0 := rfl

@[simp] theorem total_cons (e : Lot P T) (q : List (Lot P T)) :
    total (e :: q) = e.units + total q := by
  simp [total]

@[simp] theorem total_append (q r : List (Lot P T)) : total (q ++ r) = total q + total r := by
  simp [total]

theorem positive_cons {e : Lot P T} {q : List (Lot P T)} :
    Positive (e :: q) ↔ 0 < e.units ∧ Positive q := by
  simp [Positive]

theorem Positive.sublist {q r : List (Lot P T)} (h : Positive q) (sub : r.Sublist q) :
    Positive r :=
  fun e he => h e (sub.subset he)

theorem Positive.total_nonneg {q : List (Lot P T)} (h : Positive q) : 0 ≤ total q := by
  induction q with
  | nil => simp
  | cons e q ih =>
      obtain ⟨he, hq⟩ := positive_cons.mp h
      have := ih hq
      rw [total_cons]
      omega

/-! ### Consuming units -/

@[simp] theorem consume_nil (v : Int) : consume v ([] : List (Lot P T)) = [] := rfl

theorem consume_cons_of_le {v : Int} {e : Lot P T} (h : e.units ≤ v) (q : List (Lot P T)) :
    consume v (e :: q) = consume (v - e.units) q := by
  simp [consume, h]

theorem consume_cons_of_lt {v : Int} {e : Lot P T} (h : v < e.units) (q : List (Lot P T)) :
    consume v (e :: q) = { e with units := e.units - v } :: q := by
  simp [consume, not_le.mpr h]

theorem consume_zero {q : List (Lot P T)} (h : Positive q) : consume 0 q = q := by
  cases q with
  | nil => rfl
  | cons e q =>
      rw [consume_cons_of_lt (positive_cons.mp h).1]
      simp

/-- Consuming twice is consuming the sum. -/
theorem consume_consume {u v : Int} (hv : 0 ≤ v) (q : List (Lot P T)) :
    consume v (consume u q) = consume (u + v) q := by
  induction q generalizing u with
  | nil => rfl
  | cons e q ih =>
      by_cases hu : e.units ≤ u
      · rw [consume_cons_of_le hu, consume_cons_of_le (by omega), ih]
        congr 1
        omega
      · rw [consume_cons_of_lt (by omega)]
        by_cases huv : e.units ≤ u + v
        · rw [consume_cons_of_le (show e.units - u ≤ v by omega), consume_cons_of_le huv]
          congr 1
          simp only
          omega
        · rw [consume_cons_of_lt (show v < e.units - u by omega), consume_cons_of_lt (by omega)]
          simp only [sub_sub]

theorem Positive.consume {q : List (Lot P T)} (h : Positive q) (v : Int) :
    Positive (consume v q) := by
  induction q generalizing v with
  | nil => exact h
  | cons e q ih =>
      obtain ⟨_, hq⟩ := positive_cons.mp h
      by_cases hv : e.units ≤ v
      · rw [consume_cons_of_le hv]
        exact ih hq _
      · rw [consume_cons_of_lt (by omega)]
        exact positive_cons.mpr ⟨by simp only; omega, hq⟩

/-- What is left keeps its order, prices and names: it is a suffix of the queue. -/
theorem consume_keys_suffix (v : Int) (q : List (Lot P T)) :
    (consume v q).map Lot.key <:+ q.map Lot.key := by
  induction q generalizing v with
  | nil => simp
  | cons e q ih =>
      by_cases hv : e.units ≤ v
      · rw [consume_cons_of_le hv]
        exact (ih _).trans (List.suffix_cons _ _)
      · rw [consume_cons_of_lt (by omega)]
        exact List.suffix_refl _

/-- A front part that lies wholly in the consumed units is gone, and a queue longer
than what is consumed keeps its tail. -/
theorem consume_append {v : Int} (nonneg : 0 ≤ v) {q : List (Lot P T)} (h : Positive q)
    (r : List (Lot P T)) :
    consume v (q ++ r) =
      if total q ≤ v then consume (v - total q) r else consume v q ++ r := by
  induction q generalizing v with
  | nil => simp [nonneg]
  | cons e q ih =>
      obtain ⟨_, hq⟩ := positive_cons.mp h
      have hnn := hq.total_nonneg
      rw [List.cons_append, total_cons]
      by_cases hv : e.units ≤ v
      · rw [consume_cons_of_le hv, ih (by omega) hq, consume_cons_of_le hv]
        by_cases ht : e.units + total q ≤ v
        · rw [if_pos ht, if_pos (by omega), sub_sub]
        · rw [if_neg ht, if_neg (by omega)]
      · rw [consume_cons_of_lt (by omega), consume_cons_of_lt (by omega), if_neg (by omega)]
        rfl

/-- A queue loses what is consumed, as far as it has it. -/
theorem total_consume {v : Int} (hv : 0 ≤ v) {q : List (Lot P T)} (h : Positive q) :
    total (consume v q) = max (total q - v) 0 := by
  induction q generalizing v with
  | nil => simp [hv]
  | cons e q ih =>
      obtain ⟨_, hq⟩ := positive_cons.mp h
      have hnn := hq.total_nonneg
      by_cases he : e.units ≤ v
      · rw [consume_cons_of_le he, ih (by omega) hq, total_cons]
        congr 1
        omega
      · rw [consume_cons_of_lt (by omega), total_cons, total_cons]
        simp only
        omega

/-! ### Depth -/

/-- The units of the lots whose price is acceptable. -/
def depth (ok : P → Bool) (q : List (Lot P T)) : Int := total (q.filter fun e => ok e.price)

/-- Acceptable prices stand at the front: behind an unacceptable one there is none. -/
def FrontLoaded (ok : P → Bool) (q : List (Lot P T)) : Prop :=
  (q.map Lot.price).Pairwise fun a b => ok b = true → ok a = true

variable {ok : P → Bool}

theorem depth_cons_of_pos {e : Lot P T} (h : ok e.price = true) (q : List (Lot P T)) :
    depth ok (e :: q) = e.units + depth ok q := by
  simp [depth, h]

theorem depth_cons_of_neg {e : Lot P T} (h : ok e.price = false) (q : List (Lot P T)) :
    depth ok (e :: q) = depth ok q := by
  simp [depth, h]

theorem depth_nonneg {q : List (Lot P T)} (h : Positive q) : 0 ≤ depth ok q :=
  (h.sublist (List.filter_sublist)).total_nonneg

theorem depth_eq_total {q : List (Lot P T)} (h : ∀ e ∈ q, ok e.price = true) :
    depth ok q = total q := by
  rw [depth, List.filter_eq_self.mpr h]

/-- More acceptable prices, more depth. -/
theorem depth_mono {ok' : P → Bool} {q : List (Lot P T)} (h : Positive q)
    (imp : ∀ p, ok p = true → ok' p = true) : depth ok q ≤ depth ok' q := by
  induction q with
  | nil => exact le_refl _
  | cons e q ih =>
      obtain ⟨he, hq⟩ := positive_cons.mp h
      have := ih hq
      cases hok : ok e.price with
      | true =>
          rw [depth_cons_of_pos hok, depth_cons_of_pos (imp _ hok)]
          omega
      | false =>
          rw [depth_cons_of_neg hok]
          cases hok' : ok' e.price with
          | true =>
              rw [depth_cons_of_pos hok']
              omega
          | false =>
              rw [depth_cons_of_neg hok']
              exact this

theorem depth_le_total {q : List (Lot P T)} (h : Positive q) : depth ok q ≤ total q := by
  have hall : depth (fun _ => true) q = total q := depth_eq_total fun _ _ => rfl
  rw [← hall]
  exact depth_mono h fun _ _ => rfl

theorem depth_append (q r : List (Lot P T)) : depth ok (q ++ r) = depth ok q + depth ok r := by
  simp [depth]

theorem depth_eq_zero {q : List (Lot P T)} (h : ∀ e ∈ q, ok e.price = false) :
    depth ok q = 0 := by
  have : q.filter (fun e => ok e.price) = [] := by
    rw [List.filter_eq_nil_iff]
    intro e he
    simp [h e he]
  simp [depth, this]

/-- A lot with an acceptable price counts. -/
theorem depth_pos_iff {q : List (Lot P T)} (h : Positive q) :
    0 < depth ok q ↔ ∃ e ∈ q, ok e.price = true := by
  constructor
  · intro hpos
    by_contra hnone
    rw [depth_eq_zero (by simpa using hnone)] at hpos
    exact lt_irrefl _ hpos
  · rintro ⟨e, he, hok⟩
    obtain ⟨front, back, rfl⟩ := List.append_of_mem he
    have hunits := h e he
    have hfront : 0 ≤ depth ok front := depth_nonneg (h.sublist (List.sublist_append_left _ _))
    have hback : 0 ≤ depth ok back := depth_nonneg (h.sublist
      ((List.sublist_cons_self _ _).trans (List.sublist_append_right _ _)))
    rw [depth_append, depth_cons_of_pos hok]
    omega

theorem FrontLoaded.tail {e : Lot P T} {q : List (Lot P T)} (h : FrontLoaded ok (e :: q)) :
    FrontLoaded ok q :=
  (List.pairwise_cons.mp h).2

theorem FrontLoaded.none_behind {e : Lot P T} {q : List (Lot P T)} (h : FrontLoaded ok (e :: q))
    (he : ok e.price = false) : ∀ f ∈ e :: q, ok f.price = false := by
  intro f hf
  rcases List.mem_cons.mp hf with rfl | hf
  · exact he
  · have := (List.pairwise_cons.mp h).1 f.price (List.mem_map_of_mem hf)
    cases hfp : ok f.price with
    | false => rfl
    | true => rw [this hfp] at he; cases he

theorem prices_consume_suffix (v : Int) (q : List (Lot P T)) :
    (consume v q).map Lot.price <:+ q.map Lot.price := by
  have h := (consume_keys_suffix v q).map Prod.fst
  simpa [List.map_map, Function.comp_def, Lot.key] using h

theorem FrontLoaded.consume {q : List (Lot P T)} (h : FrontLoaded ok q) (v : Int) :
    FrontLoaded ok (consume v q) :=
  List.Pairwise.sublist (prices_consume_suffix v q).sublist h

/-- Consumption eats into the acceptable prices first. -/
theorem depth_consume {v : Int} (hv : 0 ≤ v) {q : List (Lot P T)} (h : Positive q)
    (front : FrontLoaded ok q) : depth ok (consume v q) = max (depth ok q - v) 0 := by
  induction q generalizing v with
  | nil => simp [depth, hv]
  | cons e q ih =>
      obtain ⟨_, hq⟩ := positive_cons.mp h
      cases hok : ok e.price with
      | false =>
          have hnone := front.none_behind hok
          have hnone' : ∀ f ∈ Clearing.consume v (e :: q), ok f.price = false := by
            intro f hf
            have hmem := (prices_consume_suffix v (e :: q)).subset (List.mem_map_of_mem hf)
            obtain ⟨g, hg, hgf⟩ := List.mem_map.mp hmem
            rw [← hgf]
            exact hnone g hg
          rw [depth_eq_zero hnone', depth_eq_zero hnone]
          omega
      | true =>
          have hnn : 0 ≤ depth ok q := depth_nonneg hq
          by_cases he : e.units ≤ v
          · rw [consume_cons_of_le he, ih (by omega) hq front.tail, depth_cons_of_pos hok]
            congr 1
            omega
          · have hrem : depth ok ({ e with units := e.units - v } :: q) =
                e.units - v + depth ok q := by simp [depth, hok]
            rw [consume_cons_of_lt (by omega), depth_cons_of_pos hok, hrem]
            omega

/-! ### The greedy procedure -/

variable [LinearOrder P]

/-- The two heads do not cross: one queue is empty, or the best bid is strictly
below the best ask. -/
def Uncrossed (bids asks : List (Lot P T)) : Prop :=
  ∀ x ∈ bids.head?, ∀ y ∈ asks.head?, x.price < y.price

/-- While the heads cross, take the smaller head off both queues. -/
inductive Clears : List (Lot P T) → List (Lot P T) → Int →
    List (Lot P T) → List (Lot P T) → Prop where
  | done {bids asks} : Uncrossed bids asks → Clears bids asks 0 bids asks
  | trade {x y bids asks v bids' asks'} : y.price ≤ x.price →
      Clears (consume (min x.units y.units) (x :: bids))
        (consume (min x.units y.units) (y :: asks)) v bids' asks' →
      Clears (x :: bids) (y :: asks) (min x.units y.units + v) bids' asks'

variable {bids asks bids' asks' : List (Lot P T)} {v : Int}

theorem Clears.volume_nonneg (h : Clears bids asks v bids' asks') (hb : Positive bids)
    (ha : Positive asks) : 0 ≤ v := by
  induction h with
  | done _ => exact le_refl 0
  | @trade x y bids asks v _ _ _ _ ih =>
      have hv := ih (hb.consume _) (ha.consume _)
      have hx := (positive_cons.mp hb).1
      have hy := (positive_cons.mp ha).1
      omega

theorem Clears.uncrossed (h : Clears bids asks v bids' asks') : Uncrossed bids' asks' := by
  induction h with
  | done hu => exact hu
  | trade _ _ ih => exact ih

/-- The bid side loses exactly the first `v` units, and it has them. -/
theorem Clears.bids_eq (h : Clears bids asks v bids' asks') (hb : Positive bids)
    (ha : Positive asks) : bids' = consume v bids ∧ v ≤ total bids := by
  induction h with
  | done _ => exact ⟨(consume_zero hb).symm, hb.total_nonneg⟩
  | @trade x y bids asks v bids' asks' _ hrest ih =>
      obtain ⟨heq, hle⟩ := ih (hb.consume _) (ha.consume _)
      have hv := hrest.volume_nonneg (hb.consume _) (ha.consume _)
      have hx := (positive_cons.mp hb).1
      have hy := (positive_cons.mp ha).1
      have hbn := (positive_cons.mp hb).2.total_nonneg
      refine ⟨by rw [heq, consume_consume hv], ?_⟩
      rw [total_consume (by omega) hb, total_cons] at hle
      rw [total_cons]
      omega

/-- The ask side loses exactly the first `v` units, and it has them. -/
theorem Clears.asks_eq (h : Clears bids asks v bids' asks') (hb : Positive bids)
    (ha : Positive asks) : asks' = consume v asks ∧ v ≤ total asks := by
  induction h with
  | done _ => exact ⟨(consume_zero ha).symm, ha.total_nonneg⟩
  | @trade x y bids asks v bids' asks' _ hrest ih =>
      obtain ⟨heq, hle⟩ := ih (hb.consume _) (ha.consume _)
      have hv := hrest.volume_nonneg (hb.consume _) (ha.consume _)
      have hx := (positive_cons.mp hb).1
      have hy := (positive_cons.mp ha).1
      have han := (positive_cons.mp ha).2.total_nonneg
      refine ⟨by rw [heq, consume_consume hv], ?_⟩
      rw [total_consume (by omega) ha, total_cons] at hle
      rw [total_cons]
      omega

/-! ### The executable volume -/

/-- Units bid at `p` or more. -/
def demand (p : P) (bids : List (Lot P T)) : Int := depth (fun q => decide (p ≤ q)) bids

/-- Units asked at `p` or less. -/
def supply (p : P) (asks : List (Lot P T)) : Int := depth (fun q => decide (q ≤ p)) asks

/-- Best bids first. -/
def BidSorted (bids : List (Lot P T)) : Prop := (bids.map Lot.price).Pairwise fun a b => b ≤ a

/-- Best asks first. -/
def AskSorted (asks : List (Lot P T)) : Prop := (asks.map Lot.price).Pairwise fun a b => a ≤ b

theorem BidSorted.frontLoaded (h : BidSorted bids) (p : P) :
    FrontLoaded (fun q => decide (p ≤ q)) bids := by
  refine List.Pairwise.imp (fun hab => ?_) h
  simp only [decide_eq_true_eq]
  exact fun hp => le_trans hp hab

theorem AskSorted.frontLoaded (h : AskSorted asks) (p : P) :
    FrontLoaded (fun q => decide (q ≤ p)) asks := by
  refine List.Pairwise.imp (fun hab => ?_) h
  simp only [decide_eq_true_eq]
  exact fun hp => le_trans hab hp

theorem BidSorted.consume (h : BidSorted bids) (v : Int) : BidSorted (consume v bids) :=
  List.Pairwise.sublist (prices_consume_suffix v bids).sublist h

theorem AskSorted.consume (h : AskSorted asks) (v : Int) : AskSorted (consume v asks) :=
  List.Pairwise.sublist (prices_consume_suffix v asks).sublist h

/-- Two sorted queues whose heads do not cross have no price with both demand and
supply. -/
theorem Uncrossed.no_volume (h : Uncrossed bids asks) (hb : Positive bids) (ha : Positive asks)
    (sb : BidSorted bids) (sa : AskSorted asks) (p : P) :
    demand p bids = 0 ∨ supply p asks = 0 := by
  have hd : 0 ≤ demand p bids := depth_nonneg hb
  have hs : 0 ≤ supply p asks := depth_nonneg ha
  by_contra hnot
  obtain ⟨hdp, hsp⟩ := not_or.mp hnot
  obtain ⟨x, hx, hpx⟩ := (depth_pos_iff hb).mp (show 0 < demand p bids by omega)
  obtain ⟨y, hy, hyp⟩ := (depth_pos_iff ha).mp (show 0 < supply p asks by omega)
  cases bids with
  | nil => simp at hx
  | cons b bs =>
      cases asks with
      | nil => simp at hy
      | cons a as =>
          have hcross : b.price < a.price := h b (by simp) a (by simp)
          have hbx : x.price ≤ b.price := by
            rcases List.mem_cons.mp hx with rfl | hx
            · exact le_refl _
            · exact (List.pairwise_cons.mp sb).1 _ (List.mem_map_of_mem hx)
          have hay : a.price ≤ y.price := by
            rcases List.mem_cons.mp hy with rfl | hy
            · exact le_refl _
            · exact (List.pairwise_cons.mp sa).1 _ (List.mem_map_of_mem hy)
          have hpb : p ≤ b.price := le_trans (of_decide_eq_true hpx) hbx
          have hap : a.price ≤ p := le_trans hay (of_decide_eq_true hyp)
          exact absurd (lt_of_lt_of_le hcross hap) (not_lt.mpr hpb)

/-- A cleared volume is executable at some price. -/
theorem Clears.attained (h : Clears bids asks v bids' asks') (hb : Positive bids)
    (ha : Positive asks) (sb : BidSorted bids) (sa : AskSorted asks) (hv : 0 < v) :
    ∃ p, v ≤ demand p bids ∧ v ≤ supply p asks := by
  induction h with
  | done _ => exact absurd hv (lt_irrefl 0)
  | @trade x y bids asks v bids' asks' hcross hrest ih =>
      have hx := (positive_cons.mp hb).1
      have hy := (positive_cons.mp ha).1
      by_cases hpos : 0 < v
      · obtain ⟨p, hd, hs⟩ := ih (hb.consume _) (ha.consume _) (sb.consume _) (sa.consume _) hpos
        refine ⟨p, ?_, ?_⟩
        · rw [demand, depth_consume (by omega) hb (sb.frontLoaded p)] at hd
          rw [demand]
          omega
        · rw [supply, depth_consume (by omega) ha (sa.frontLoaded p)] at hs
          rw [supply]
          omega
      · have hv0 : v = 0 := by
          have := hrest.volume_nonneg (hb.consume _) (ha.consume _)
          omega
        refine ⟨y.price, ?_, ?_⟩
        · rw [demand, depth_cons_of_pos (by simpa using hcross)]
          have : 0 ≤ depth (fun q => decide (y.price ≤ q)) bids :=
            depth_nonneg (positive_cons.mp hb).2
          omega
        · rw [supply, depth_cons_of_pos (by simp)]
          have : 0 ≤ depth (fun q => decide (q ≤ y.price)) asks :=
            depth_nonneg (positive_cons.mp ha).2
          omega

/-- No price offers more volume than was cleared. -/
theorem Clears.volume_bound (h : Clears bids asks v bids' asks') (hb : Positive bids)
    (ha : Positive asks) (sb : BidSorted bids) (sa : AskSorted asks) (p : P) :
    min (demand p bids) (supply p asks) ≤ v := by
  have hv := h.volume_nonneg hb ha
  obtain ⟨hbe, -⟩ := h.bids_eq hb ha
  obtain ⟨hae, -⟩ := h.asks_eq hb ha
  have hu := h.uncrossed
  rw [hbe, hae] at hu
  rcases hu.no_volume (hb.consume v) (ha.consume v) (sb.consume v) (sa.consume v) p with hd | hs
  · rw [demand, depth_consume hv hb (sb.frontLoaded p)] at hd
    rw [demand]
    omega
  · rw [supply, depth_consume hv ha (sa.frontLoaded p)] at hs
    rw [supply]
    omega

/-- **Greedy clearing is optimal.** The cleared volume is the maximum over all
prices of the smaller of demand and supply. -/
theorem Clears.isGreatest [Inhabited P] (h : Clears bids asks v bids' asks') (hb : Positive bids)
    (ha : Positive asks) (sb : BidSorted bids) (sa : AskSorted asks) :
    IsGreatest (Set.range fun p => min (demand p bids) (supply p asks)) v := by
  constructor
  · by_cases hpos : 0 < v
    · obtain ⟨p, hd, hs⟩ := h.attained hb ha sb sa hpos
      exact ⟨p, le_antisymm (h.volume_bound hb ha sb sa p) (le_min hd hs)⟩
    · have hv0 : v = 0 := by
        have := h.volume_nonneg hb ha
        omega
      refine ⟨default, le_antisymm (h.volume_bound hb ha sb sa _) ?_⟩
      rw [hv0]
      exact le_min (depth_nonneg hb) (depth_nonneg ha)
  · rintro _ ⟨p, rfl⟩
    exact h.volume_bound hb ha sb sa p

/-- A bid is left alone exactly if the bids in front of it can take everything that is
asked at its price or less. -/
theorem Clears.spares_iff (h : Clears bids asks v bids' asks') (hb : Positive bids)
    (ha : Positive asks) (sb : BidSorted bids) (sa : AskSorted asks) {front back : List (Lot P T)}
    {e : Lot P T} (hsplit : bids = front ++ e :: back) :
    v ≤ total front ↔ supply e.price asks ≤ total front := by
  subst hsplit
  have hfront : Positive front := hb.sublist (List.sublist_append_left _ _)
  have hrest : Positive (e :: back) := hb.sublist (List.sublist_append_right _ _)
  have hprices := sb
  rw [BidSorted, List.map_append, List.map_cons, List.pairwise_append] at hprices
  obtain ⟨-, hback, hahead⟩ := hprices
  constructor
  · intro hv
    by_contra hmore
    have hdemand : demand e.price (front ++ e :: back) ≥ total front + e.units := by
      have hall : demand e.price front = total front := by
        apply depth_eq_total
        intro f hf
        simpa using hahead f.price (List.mem_map_of_mem hf) e.price List.mem_cons_self
      have hpos : 0 ≤ demand e.price back := depth_nonneg (positive_cons.mp hrest).2
      rw [demand, depth_append, depth_cons_of_pos (by simp)]
      rw [demand] at hall hpos
      omega
    have hunits := (positive_cons.mp hrest).1
    have hbound := h.volume_bound hb ha sb sa e.price
    omega
  · intro hs
    by_contra hmore
    have hnn := hfront.total_nonneg
    obtain ⟨p, hd, hsp⟩ := h.attained hb ha sb sa (by omega)
    by_cases hp : p ≤ e.price
    · have hmono : supply p asks ≤ supply e.price asks := depth_mono ha fun q hq => by
        simpa using le_trans (of_decide_eq_true hq) hp
      omega
    · have hnone : demand p (e :: back) = 0 := by
        apply depth_eq_zero
        intro f hf
        have hle : f.price ≤ e.price := by
          rcases List.mem_cons.mp hf with rfl | hf
          · exact le_refl _
          · exact (List.pairwise_cons.mp hback).1 f.price (List.mem_map_of_mem hf)
        simpa using lt_of_le_of_lt hle (not_le.mp hp)
      have hle : demand p front ≤ total front := depth_le_total hfront
      rw [demand, depth_append] at hd
      rw [demand] at hnone hle
      omega

end HftProject.Clearing
