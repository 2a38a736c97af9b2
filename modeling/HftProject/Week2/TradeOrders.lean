import HftProject.Week2.TradeEngine
import Mathlib.Algebra.Order.Field.Basic
import Mathlib.Data.List.Forall2
import Mathlib.Data.List.Infix
import Mathlib.Tactic.Linarith
import Mathlib.Tactic.NormNum.OfScientific

/-!
The orders of `TradeEngine`, explained. Five signals are conditions on the last prices of an
instrument; the ticks on which more of them say one side than the other are the decisions of a
feed. Whatever the draws and the clock, there is one order and one latency for each decision, in
the order of the feed, and it names a signal of its side that holds. Nothing more is promised:
each list of such orders is placed for some draws and some clock (`orders_exactly`).
-/

namespace HftProject.Week2

/-! ### Signals -/

inductive Signal where
  | lowThreshold
  | highThreshold
  | belowAvg
  | aboveAvg
  | momentum
deriving DecidableEq, Repr

namespace Signal

def label : Signal → String
  | lowThreshold => "Signal 1 (Low Threshold)"
  | highThreshold => "Signal 1 (High Threshold)"
  | belowAvg => "Signal 2 (Below Avg)"
  | aboveAvg => "Signal 2 (Above Avg)"
  | momentum => "Signal 3 (Momentum)"

/-- The side of an order for which the signal speaks. -/
def isBuy : Signal → Bool
  | lowThreshold | belowAvg | momentum => true
  | highThreshold | aboveAvg => false

/-- The signals in the order in which they are evaluated. -/
def all : List Signal := [lowThreshold, highThreshold, belowAvg, aboveAvg, momentum]

variable {R : Type} [Field R] [LinearOrder R]

def mean (window : List R) : R :=
  window.sum / (window.length : R)

/-- The signal at a price, over a window whose last element is that price. -/
def Holds (window : List R) (price : R) : Signal → Prop
  | lowThreshold => price < 105.0
  | highThreshold => 195.0 < price
  | belowAvg => 5 ≤ window.length ∧ 0 < mean window ∧ price < mean window * 0.98
  | aboveAvg => 5 ≤ window.length ∧ 0 < mean window ∧ mean window * 1.02 < price
  | momentum => ∃ price1 ∈ window.reverse[1]?, ∃ price2 ∈ window.reverse[2]?,
      price2 < price1 ∧ price1 < price

instance (window : List R) (price : R) : DecidablePred (Holds window price)
  | lowThreshold => inferInstanceAs (Decidable (price < 105.0))
  | highThreshold => inferInstanceAs (Decidable (195.0 < price))
  | belowAvg =>
      inferInstanceAs (Decidable (5 ≤ window.length ∧ 0 < mean window ∧
        price < mean window * 0.98))
  | aboveAvg =>
      inferInstanceAs (Decidable (5 ≤ window.length ∧ 0 < mean window ∧
        mean window * 1.02 < price))
  | momentum =>
      inferInstanceAs (Decidable (∃ price1 ∈ window.reverse[1]?, ∃ price2 ∈ window.reverse[2]?,
        price2 < price1 ∧ price1 < price))

/-- The signals that hold and speak for the side. -/
def speaking (isBuy : Bool) (window : List R) (price : R) : List Signal :=
  all.filter fun s => s.isBuy = isBuy ∧ s.Holds window price

theorem filter_map_cons {A B : Type} (p : A → Bool) (f : A → B) (a : A) (l : List A) :
    ((a :: l).filter p).map f = (if p a = true then [f a] else []) ++ (l.filter p).map f := by
  rw [List.filter_cons]
  split
  · rfl
  · rfl

/-- The names of the signals that speak for a side, one after the other. -/
theorem speaking_labels (window : List R) (price : R) :
    (speaking true window price).map label =
        (if lowThreshold.Holds window price then ["Signal 1 (Low Threshold)"] else []) ++
          (if belowAvg.Holds window price then ["Signal 2 (Below Avg)"] else []) ++
          (if momentum.Holds window price then ["Signal 3 (Momentum)"] else []) ∧
      (speaking false window price).map label =
        (if highThreshold.Holds window price then ["Signal 1 (High Threshold)"] else []) ++
          (if aboveAvg.Holds window price then ["Signal 2 (Above Avg)"] else []) := by
  constructor
  · simp only [speaking, all, filter_map_cons, List.filter_nil, List.map_nil, decide_eq_true_eq,
      isBuy, label, true_and, Bool.false_eq_true, false_and, if_false,
      List.nil_append, List.append_nil, List.append_assoc]
  · simp only [speaking, all, filter_map_cons, List.filter_nil, List.map_nil, decide_eq_true_eq,
      isBuy, label, true_and, Bool.true_eq_false, false_and, if_false, List.nil_append,
      List.append_nil]

theorem speaking_isBuy {isBuy : Bool} {window : List R} {price : R} :
    ∀ s ∈ speaking isBuy window price, s.isBuy = isBuy := by
  intro s hs
  exact (of_decide_eq_true (List.mem_filter.mp hs).2).1

end Signal

/-! ### Decisions -/

/-- A tick on which an order is placed, with the signals that may be named. -/
structure Decision (R : Type) where
  tick : MarketData R
  isBuy : Bool
  signals : List Signal
  nonempty : 0 < signals.length
  speaks : ∀ s ∈ signals, s.isBuy = isBuy
deriving DecidableEq

namespace TradeEngine

variable {R W : Type} [Field R] [LinearOrder R]

/-- The majority of the signals that hold. -/
def decision (window : List R) (tick : MarketData R) : Option (Decision R) :=
  let buys := Signal.speaking true window tick.price
  let sells := Signal.speaking false window tick.price
  if hbuy : buys.length > sells.length then
    some ⟨tick, true, buys, Nat.zero_lt_of_lt hbuy, Signal.speaking_isBuy⟩
  else if hsell : sells.length > buys.length then
    some ⟨tick, false, sells, Nat.zero_lt_of_lt hsell, Signal.speaking_isBuy⟩
  else none

/-- The last ten prices of an instrument. -/
def windowAfter (ticks : List (MarketData R)) (x : Int) : List R :=
  (pricesOf x ticks).rtake (min 10 (pricesOf x ticks).length)

/-- The decisions of a feed, in its order. -/
def decisions (feed : List (MarketData R)) : List (Decision R) :=
  feed.inits.filterMap fun ticks =>
    ticks.getLast?.bind fun tick => decision (windowAfter ticks tick.instrumentId) tick

theorem decisions_append (ticks : List (MarketData R)) (tick : MarketData R) :
    decisions (ticks ++ [tick]) = decisions ticks ++
      (decision (windowAfter (ticks ++ [tick]) tick.instrumentId) tick).toList := by
  rw [decisions, List.inits_append, List.filterMap_append,
    show [tick].inits = [[], [tick]] from rfl]
  congr 1
  simp only [List.tail_cons, List.map_cons, List.map_nil, List.filterMap_cons, List.filterMap_nil,
    List.getLast?_append, List.getLast?_singleton, Option.some_or, Option.bind_some]
  cases decision (windowAfter (ticks ++ [tick]) tick.instrumentId) tick with
  | none => rfl
  | some d => rfl

/-! ### The votes are the signals -/

variable {e : TradeEngine R W} {tick : MarketData R} {window : List R}

theorem evaluateSignal1_buy (tick : MarketData R) (window : List R) :
    evaluateSignal1 tick = .buy ↔ Signal.lowThreshold.Holds window tick.price := by
  simp only [evaluateSignal1, Signal.Holds]
  split
  · simp_all
  · split <;> simp_all

theorem evaluateSignal3_buy (hwindow : e.priceHistory[tick.instrumentId]? = some window) :
    e.evaluateSignal3 tick = .buy ↔ Signal.momentum.Holds window tick.price := by
  rw [evaluateSignal3, hwindow]
  simp only [Signal.Holds]
  by_cases hshort : window.length < 3
  · have hnone : window.reverse[2]? = none :=
      List.getElem?_eq_none (by rw [List.length_reverse]; omega)
    simp [hshort, hnone]
  · have h1 : window.reverse[1]? = window[window.length - 2]? := by
      rw [List.getElem?_reverse (by omega)]
      rfl
    have h2 : window.reverse[2]? = window[window.length - 3]? := by
      rw [List.getElem?_reverse (by omega)]
      rfl
    rw [h1, h2, if_neg hshort, List.getElem?_eq_getElem (by omega),
      List.getElem?_eq_getElem (by omega)]
    simp

section Ordered

variable [IsStrictOrderedRing R]

/-- No price is below the low threshold and above the high one. -/
theorem evaluateSignal1_sell (tick : MarketData R) (window : List R) :
    evaluateSignal1 tick = .sell ↔ Signal.highThreshold.Holds window tick.price := by
  have hthresholds : (105.0 : R) < 195.0 := by norm_num
  simp only [evaluateSignal1, Signal.Holds]
  split
  · rename_i hlow
    simp [(hlow.trans hthresholds).le]
  · split <;> simp_all

omit [LinearOrder R] [IsStrictOrderedRing R] in
theorem getAvg_eq (hwindow : e.priceHistory[tick.instrumentId]? = some window)
    (hne : window ≠ []) : e.getAvg tick.instrumentId = Signal.mean window := by
  rw [getAvg, hwindow]
  simp only [List.isEmpty_iff, if_neg hne]
  rw [Signal.mean, List.sum_eq_foldl]

theorem evaluateSignal2_iff (hwindow : e.priceHistory[tick.instrumentId]? = some window) :
    (e.evaluateSignal2 tick = .buy ↔ Signal.belowAvg.Holds window tick.price) ∧
      (e.evaluateSignal2 tick = .sell ↔ Signal.aboveAvg.Holds window tick.price) := by
  rw [evaluateSignal2, hwindow]
  simp only [Signal.Holds]
  by_cases hshort : window.length < 5
  · have hlength : ¬ 5 ≤ window.length := by omega
    simp [hshort, hlength]
  · have hne : window ≠ [] := by
      rintro rfl
      simp at hshort
    rw [if_neg hshort, getAvg_eq hwindow hne]
    by_cases hmean : 0 < Signal.mean window
    · have hfactors : Signal.mean window * 0.98 < Signal.mean window * 1.02 :=
        mul_lt_mul_of_pos_left (by norm_num) hmean
      rw [if_neg (not_le.mpr hmean)]
      split
      · rename_i hbelow
        simp [hbelow, hmean, not_lt.mp hshort, (hbelow.trans hfactors).le]
      · rename_i hbelow
        split
        · rename_i habove
          simp [hbelow, hmean, not_lt.mp hshort, gt_iff_lt.mp habove]
        · rename_i habove
          simp [hbelow, hmean, not_lt.mp habove]
    · simp [if_pos (not_lt.mp hmean), hmean]

omit [LinearOrder R] [IsStrictOrderedRing R] [Field R] in
theorem count_signals (action : SignalAction) (buySignal sellSignal : String) (v : Votes) :
    (v.count action buySignal sellSignal).contributingBuySignals =
        v.contributingBuySignals ++ (if action = .buy then [buySignal] else []) ∧
      (v.count action buySignal sellSignal).contributingSellSignals =
        v.contributingSellSignals ++ (if action = .sell then [sellSignal] else []) := by
  cases action with
  | none => simp [Votes.count]
  | buy => simp [Votes.count, Votes.buy]
  | sell => simp [Votes.count, Votes.sell]

omit [IsStrictOrderedRing R] in
/-- What each signal adds to the lists of names. -/
theorem votes_lists (e : TradeEngine R W) (tick : MarketData R) :
    (e.votes tick).contributingBuySignals =
        (if evaluateSignal1 tick = .buy then ["Signal 1 (Low Threshold)"] else []) ++
          (if e.evaluateSignal2 tick = .buy then ["Signal 2 (Below Avg)"] else []) ++
          (if e.evaluateSignal3 tick = .buy then ["Signal 3 (Momentum)"] else []) ∧
      (e.votes tick).contributingSellSignals =
        (if evaluateSignal1 tick = .sell then ["Signal 1 (High Threshold)"] else []) ++
          (if e.evaluateSignal2 tick = .sell then ["Signal 2 (Above Avg)"] else []) := by
  obtain ⟨hbuy1, hsell1⟩ := count_signals (evaluateSignal1 tick) "Signal 1 (Low Threshold)"
    "Signal 1 (High Threshold)" Votes.new
  obtain ⟨hbuy2, hsell2⟩ := count_signals (e.evaluateSignal2 tick) "Signal 2 (Below Avg)"
    "Signal 2 (Above Avg)" (Votes.new.count (evaluateSignal1 tick) "Signal 1 (Low Threshold)"
      "Signal 1 (High Threshold)")
  rw [hbuy1] at hbuy2
  rw [hsell1] at hsell2
  rw [votes]
  split
  · exact ⟨congrArg (· ++ ["Signal 3 (Momentum)"]) hbuy2, hsell2⟩
  · exact ⟨hbuy2.trans (List.append_nil _).symm, hsell2⟩

/-- The names that contribute to a side are those of the signals that hold and speak for it. -/
theorem votes_signals (hwindow : e.priceHistory[tick.instrumentId]? = some window) :
    (e.votes tick).contributingBuySignals =
        (Signal.speaking true window tick.price).map Signal.label ∧
      (e.votes tick).contributingSellSignals =
        (Signal.speaking false window tick.price).map Signal.label := by
  obtain ⟨hbuy2, hsell2⟩ := evaluateSignal2_iff hwindow
  obtain ⟨hbuys, hsells⟩ := votes_lists e tick
  obtain ⟨hbuyLabels, hsellLabels⟩ := Signal.speaking_labels window tick.price
  rw [hbuys, hsells, hbuyLabels, hsellLabels]
  simp only [evaluateSignal1_buy tick window, evaluateSignal1_sell tick window, hbuy2, hsell2,
    evaluateSignal3_buy hwindow, and_self]

/-! ### A tick -/

omit [Field R] [LinearOrder R] [IsStrictOrderedRing R] in
theorem selectSignal_congr {world : World W} {signals signals' : List String}
    (hsame : signals = signals') (h : 0 < signals.length) (h' : 0 < signals'.length) (w : W) :
    selectSignal world signals h w = selectSignal world signals' h' w := by
  subst hsame
  rfl

omit [LinearOrder R] [IsStrictOrderedRing R] [Field R] in
theorem selectSignal_mem (world : World W) (signals : List String) (h : 0 < signals.length)
    (w : W) : (selectSignal world signals h w).1 ∈ signals := by
  rw [selectSignal]
  split
  · exact List.get_mem ..
  · exact List.get_mem ..

omit [Field R] [LinearOrder R] [IsStrictOrderedRing R] in
theorem labels_nonempty (d : Decision R) : 0 < (d.signals.map Signal.label).length := by
  rw [List.length_map]
  exact d.nonempty

/-- The order for a decision, which names one of its signals. -/
def placeDecision (world : World W) (d : Decision R) (e : TradeEngine R W) : TradeEngine R W :=
  let (selectedSignal, w) :=
    selectSignal world (d.signals.map Signal.label) (labels_nonempty d) e.randomGenerator
  placeOrder world d.tick d.isBuy selectedSignal { e with randomGenerator := w }

/-- A tick is recorded, and then an order is placed if it is a decision. -/
theorem processTick_eq (world : World W)
    (hwindow : (e.updateHistory tick).priceHistory[tick.instrumentId]? = some window) :
    processTick world e tick =
      match decision window tick with
      | some d => placeDecision world d (e.updateHistory tick)
      | none => e.updateHistory tick := by
  obtain ⟨hbuys, hsells⟩ := votes_signals hwindow
  have hbuyVotes : ((e.updateHistory tick).votes tick).buyVotes =
      (Signal.speaking true window tick.price).length := by
    rw [← Votes.buy_length, hbuys, List.length_map]
  have hsellVotes : ((e.updateHistory tick).votes tick).sellVotes =
      (Signal.speaking false window tick.price).length := by
    rw [← Votes.sell_length, hsells, List.length_map]
  rw [processTick, decision]
  simp only [hbuyVotes, hsellVotes]
  by_cases hbuy : (Signal.speaking true window tick.price).length >
      (Signal.speaking false window tick.price).length
  · rw [dif_pos hbuy, dif_pos hbuy]
    simp only [placeDecision]
    rw [selectSignal_congr hbuys]
  · rw [dif_neg hbuy, dif_neg hbuy]
    by_cases hsell : (Signal.speaking false window tick.price).length >
        (Signal.speaking true window tick.price).length
    · rw [dif_pos hsell, dif_pos hsell]
      simp only [placeDecision]
      rw [selectSignal_congr hsells]
    · rw [dif_neg hsell, dif_neg hsell]

/-! ### A run -/

omit [IsStrictOrderedRing R] in
theorem window_after (world : World W) (g : W) (feed ticks : List (MarketData R))
    (tick : MarketData R) :
    ((ticks.foldl (processTick world) (new feed g)).updateHistory tick).priceHistory[
        tick.instrumentId]? = some (windowAfter (ticks ++ [tick]) tick.instrumentId) := by
  have hprices : pricesOf tick.instrumentId (ticks ++ [tick]) =
      pricesOf tick.instrumentId ticks ++ [tick.price] := by
    simp [pricesOf]
  rw [updateHistory_priceHistory, if_pos rfl, history_window world g feed ticks, windowAfter,
    hprices, ← trim_window]

omit [IsStrictOrderedRing R] in
theorem process_new (world : World W) (g : W) (feed : List (MarketData R)) :
    (new feed g).process world = feed.foldl (processTick world) (new feed g) := rfl

/-- The run after one more tick of the feed. -/
theorem process_append (world : World W) (g : W) (feed ticks : List (MarketData R))
    (tick : MarketData R) :
    (ticks ++ [tick]).foldl (processTick world) (new feed g) =
      match decision (windowAfter (ticks ++ [tick]) tick.instrumentId) tick with
      | some d =>
          placeDecision world d ((ticks.foldl (processTick world) (new feed g)).updateHistory tick)
      | none => (ticks.foldl (processTick world) (new feed g)).updateHistory tick := by
  rw [List.foldl_append, List.foldl_cons, List.foldl_nil,
    processTick_eq world (window_after world g feed ticks tick)]

/-- What an order and its latency may be for a decision. -/
structure Places (d : Decision R) (placed : Order R × Int) : Prop where
  instrument : placed.1.instrumentId = d.tick.instrumentId
  price : placed.1.price = d.tick.price + (if d.isBuy then 0.01 else -0.01)
  side : placed.1.isBuy = d.isBuy
  source : ∃ s ∈ d.signals, placed.1.signalSource = s.label
  latency : placed.2 = Int.tdiv (placed.1.timestamp - d.tick.timestamp) 1000000

omit [LinearOrder R] [IsStrictOrderedRing R] in
/-- One order and one latency more, of those that the decision allows. -/
theorem placeDecision_places (world : World W) (d : Decision R) (e : TradeEngine R W) :
    ∃ placed, Places d placed ∧
      (placeDecision world d e).orders = e.orders ++ [placed.1] ∧
      (placeDecision world d e).latencies = e.latencies ++ [placed.2] := by
  refine ⟨(_, _), ⟨rfl, rfl, rfl, ?_, rfl⟩, rfl, rfl⟩
  obtain ⟨s, hs, hlabel⟩ := List.mem_map.mp (selectSignal_mem world (d.signals.map Signal.label)
    (labels_nonempty d) e.randomGenerator)
  exact ⟨s, hs, hlabel.symm⟩

theorem run_places (world : World W) (g : W) (feed ticks : List (MarketData R)) :
    ∃ placed, List.Forall₂ Places (decisions ticks) placed ∧
      (ticks.foldl (processTick world) (new feed g)).orders = placed.map (·.1) ∧
      (ticks.foldl (processTick world) (new feed g)).latencies = placed.map (·.2) := by
  induction ticks using List.reverseRecOn with
  | nil => exact ⟨[], .nil, rfl, rfl⟩
  | append_singleton ticks tick ih =>
      obtain ⟨placed, hplaces, horders, hlatencies⟩ := ih
      rw [process_append, decisions_append]
      cases decision (windowAfter (ticks ++ [tick]) tick.instrumentId) tick with
      | none => exact ⟨placed, by simpa using hplaces, horders, hlatencies⟩
      | some d =>
          obtain ⟨p, hp, hporders, hplatencies⟩ := placeDecision_places world d
            ((ticks.foldl (processTick world) (new feed g)).updateHistory tick)
          refine ⟨placed ++ [p], List.rel_append hplaces (.cons hp .nil), ?_, ?_⟩
          · exact hporders.trans (by rw [List.map_append, ← horders]; rfl)
          · exact hplatencies.trans (by rw [List.map_append, ← hlatencies]; rfl)

/-! ### Each list of orders is possible -/

/-- What the generator draws and the clock reads, for one order after the other. -/
abbrev Script := List (Nat × Int)

def scripted : World Script where
  distrib n w := (Fin.ofNat (n + 1) ((w.head?.map (·.1)).getD 0), w)
  now w := ((w.head?.map (·.2)).getD 0, w.tail)

/-- The draw and the reading that give the order. -/
def scriptFor (d : Decision R) (placed : Order R × Int) : Nat × Int :=
  ((d.signals.map Signal.label).idxOf placed.1.signalSource, placed.1.timestamp)

omit [Field R] [LinearOrder R] [IsStrictOrderedRing R] in
theorem selectSignal_scripted {signals : List String} {source : String} (hsource : source ∈ signals)
    (h : 0 < signals.length) (t : Int) (rest : Script) :
    selectSignal scripted signals h ((signals.idxOf source, t) :: rest) =
      (source, (signals.idxOf source, t) :: rest) := by
  have hlt : signals.idxOf source < signals.length := List.idxOf_lt_length_of_mem hsource
  rw [selectSignal]
  split
  · rename_i hone
    obtain ⟨s, rfl⟩ := List.length_eq_one_iff.mp hone
    rw [List.mem_singleton.mp hsource]
    rfl
  · have hdraw : (signals.idxOf source) % (signals.length - 1 + 1) = signals.idxOf source :=
      Nat.mod_eq_of_lt (by omega)
    simp only [scripted, List.head?_cons, Option.map_some, Option.getD_some, Fin.ofNat, hdraw,
      List.get_eq_getElem, List.getElem_idxOf]

omit [LinearOrder R] [IsStrictOrderedRing R] in
theorem placeDecision_scripted {d : Decision R} {placed : Order R × Int} (hplaces : Places d placed)
    {e : TradeEngine R Script} {rest : Script}
    (hscript : e.randomGenerator = scriptFor d placed :: rest) :
    (placeDecision scripted d e).orders = e.orders ++ [placed.1] ∧
      (placeDecision scripted d e).latencies = e.latencies ++ [placed.2] ∧
      (placeDecision scripted d e).randomGenerator = rest := by
  obtain ⟨s, hs, hlabel⟩ := hplaces.source
  have hsource : placed.1.signalSource ∈ d.signals.map Signal.label :=
    List.mem_map.mpr ⟨s, hs, hlabel.symm⟩
  have hselect := selectSignal_scripted hsource (labels_nonempty d) placed.1.timestamp rest
  have hnow : scripted.now (scriptFor d placed :: rest) = (placed.1.timestamp, rest) := rfl
  simp only [placeDecision, hscript, scriptFor, hselect, placeOrder] at hnow ⊢
  simp only [hnow, and_true]
  rw [hplaces.latency, ← hplaces.instrument, ← hplaces.price, ← hplaces.side]
  exact ⟨rfl, rfl⟩

theorem forall₂_snoc {A B : Type} {r : A → B → Prop} {l : List A} {a : A} {l' : List B}
    (h : List.Forall₂ r (l ++ [a]) l') :
    ∃ init b, l' = init ++ [b] ∧ List.Forall₂ r l init ∧ r a b := by
  induction l generalizing l' with
  | nil =>
      obtain ⟨b, rest, hab, hrest, rfl⟩ := List.forall₂_cons_left_iff.mp h
      rw [List.forall₂_nil_left_iff.mp hrest]
      exact ⟨[], b, rfl, .nil, hab⟩
  | cons c l ih =>
      obtain ⟨b, rest, hcb, hrest, rfl⟩ := List.forall₂_cons_left_iff.mp h
      obtain ⟨init, last, rfl, hinit, hlast⟩ := ih hrest
      exact ⟨b :: init, last, rfl, .cons hcb hinit, hlast⟩

theorem run_scripted (feed ticks : List (MarketData R)) :
    ∀ placed, List.Forall₂ Places (decisions ticks) placed → ∀ rest,
      let e := ticks.foldl (processTick scripted)
        (new feed (List.zipWith scriptFor (decisions ticks) placed ++ rest))
      e.orders = placed.map (·.1) ∧ e.latencies = placed.map (·.2) ∧ e.randomGenerator = rest := by
  induction ticks using List.reverseRecOn with
  | nil =>
      intro placed hplaces rest
      rw [List.forall₂_nil_left_iff.mp hplaces]
      exact ⟨rfl, rfl, rfl⟩
  | append_singleton ticks tick ih =>
      intro placed hplaces rest
      rw [decisions_append] at hplaces ⊢
      simp only [process_append]
      cases hdecision : decision (windowAfter (ticks ++ [tick]) tick.instrumentId) tick with
      | none =>
          rw [hdecision, Option.toList_none, List.append_nil] at hplaces
          rw [Option.toList_none, List.append_nil]
          exact ih placed hplaces rest
      | some d =>
          rw [hdecision, Option.toList_some] at hplaces
          obtain ⟨init, p, rfl, hinit, hp⟩ := forall₂_snoc hplaces
          have hscript : List.zipWith scriptFor (decisions ticks ++ [d]) (init ++ [p]) ++ rest =
              List.zipWith scriptFor (decisions ticks) init ++ (scriptFor d p :: rest) := by
            rw [List.zipWith_append hinit.length_eq, List.append_assoc]
            rfl
          rw [Option.toList_some, hscript]
          obtain ⟨horders, hlatencies, hgenerator⟩ := ih init hinit (scriptFor d p :: rest)
          obtain ⟨hporders, hplatencies, hpgenerator⟩ := placeDecision_scripted hp
            (e := (ticks.foldl (processTick scripted) (new feed (List.zipWith scriptFor
              (decisions ticks) init ++ scriptFor d p :: rest))).updateHistory tick) hgenerator
          refine ⟨hporders.trans ?_, hplatencies.trans ?_, hpgenerator⟩
          · rw [List.map_append, ← horders]
            rfl
          · rw [List.map_append, ← hlatencies]
            rfl

/-- **The orders of a feed, exactly.** A list of orders and a list of latencies come out of a run
over the feed, for some generator and some clock, if and only if they have the same length and
give, one for one and in order, what the decisions of the feed allow. -/
theorem orders_exactly (feed : List (MarketData R)) (orders : List (Order R))
    (latencies : List Int) :
    (∃ (W : Type) (world : World W) (g : W),
        ((new feed g).process world).orders = orders ∧
          ((new feed g).process world).latencies = latencies) ↔
      orders.length = latencies.length ∧
        List.Forall₂ Places (decisions feed) (orders.zip latencies) := by
  constructor
  · rintro ⟨W, world, g, rfl, rfl⟩
    obtain ⟨placed, hplaces, horders, hlatencies⟩ := run_places world g feed feed
    have hzip : (placed.map (·.1)).zip (placed.map (·.2)) = placed := by
      rw [List.zip_map', List.map_id'']
      intro p
      rfl
    rw [process_new, horders, hlatencies, hzip]
    exact ⟨by rw [List.length_map, List.length_map], hplaces⟩
  · rintro ⟨hlength, hplaces⟩
    obtain ⟨horders, hlatencies, -⟩ := run_scripted feed feed (orders.zip latencies) hplaces []
    refine ⟨Script, scripted, _, horders.trans ?_, hlatencies.trans ?_⟩
    · exact List.map_fst_zip hlength.le
    · exact List.map_snd_zip hlength.ge

/-- Three rising prices below the low threshold. -/
def risingFeed : List (MarketData ℚ) :=
  [⟨7, 101, 1000000⟩, ⟨7, 102, 2000000⟩, ⟨7, 103, 3000000⟩]

/-- The third order may be attributed to the momentum. -/
theorem orders_exactly_sample :
    ∃ (W : Type) (world : World W) (g : W),
      (((new risingFeed g).process world).orders.map fun o => (o.price, o.isBuy, o.signalSource)) =
          [(101 + 0.01, true, "Signal 1 (Low Threshold)"),
            (102 + 0.01, true, "Signal 1 (Low Threshold)"),
            (103 + 0.01, true, "Signal 3 (Momentum)")] ∧
        ((new risingFeed g).process world).latencies = [8, 7, 5] := by
  obtain ⟨W, world, g, horders, hlatencies⟩ := (orders_exactly risingFeed
    [⟨7, 101 + 0.01, true, 9000000, "Signal 1 (Low Threshold)"⟩,
      ⟨7, 102 + 0.01, true, 9000000, "Signal 1 (Low Threshold)"⟩,
      ⟨7, 103 + 0.01, true, 8000001, "Signal 3 (Momentum)"⟩] [8, 7, 5]).mpr
    ⟨rfl, by
      have hdecisions : decisions risingFeed =
          [⟨⟨7, 101, 1000000⟩, true, [.lowThreshold], by decide, by decide⟩,
            ⟨⟨7, 102, 2000000⟩, true, [.lowThreshold], by decide, by decide⟩,
            ⟨⟨7, 103, 3000000⟩, true, [.lowThreshold, .momentum], by decide, by decide⟩] := by
        decide +kernel
      rw [hdecisions]
      refine .cons ⟨rfl, rfl, rfl, ⟨.lowThreshold, by decide, rfl⟩, rfl⟩ (.cons
        ⟨rfl, rfl, rfl, ⟨.lowThreshold, by decide, rfl⟩, rfl⟩ (.cons
        ⟨rfl, rfl, rfl, ⟨.momentum, by decide, rfl⟩, rfl⟩ .nil))⟩
  exact ⟨W, world, g, by rw [horders]; rfl, hlatencies⟩

end Ordered

end TradeEngine

end HftProject.Week2
