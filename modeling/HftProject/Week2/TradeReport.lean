import HftProject.Lib.Tally
import HftProject.Week2.TradeOrders
import Mathlib.Algebra.Order.BigOperators.Group.List

/-!
The program of `hw2`: `generateData` draws a feed, `TradeEngine` places its orders and
`reportStats` prints what they were. Each tick has the time at which it was drawn, and each order
is later, so the latencies are not negative as long as the clock does not go back.

The report counts each order once, under the signal that it names. Its average divides a signed
sum by a `size_t`, so it is the average of the latencies exactly when their sum is not negative or
there is one order; its maximum starts at zero (`report_of_run`).
-/

namespace HftProject.Week2

/-- A world that also draws the prices of a feed. -/
structure Market (R W : Type) extends World W where
  priceDist : W → R × W

/-- What `reportStats` prints. -/
structure Report where
  ticks : Nat
  orders : Nat
  breakdown : List (String × Nat)
  avgLatency : Int
  maxLatency : Int
deriving DecidableEq, Repr

variable {R W : Type}

/-- An iteration of the loop of `generateData`. -/
def generateTick (market : Market R W) (s : List (MarketData R) × W) (i : Nat) :
    List (MarketData R) × W :=
  let (price, w) := market.priceDist s.2
  let (timestamp, w) := market.now w
  (s.1 ++ [{ instrumentId := ((i % 10 : Nat) : Int), price := price, timestamp := timestamp }], w)

/-- `numTicks` is not negative. -/
def generateData (market : Market R W) (numTicks : Nat) (data : List (MarketData R)) (w : W) :
    List (MarketData R) × W :=
  (List.range numTicks).foldl (generateTick market) (data, w)

/-- A `long long` divided by a `size_t`: both become 64 unsigned bits. -/
def divSize (sum : Int) (size : Nat) : Int :=
  Int.bmod (sum % 2 ^ 64 / size) (2 ^ 64)

namespace TradeEngine

def reportStats (e : TradeEngine R W) : Report :=
  let sumLatency := e.latencies.foldl (· + ·) 0
  let maxLatency := e.latencies.foldl max 0
  let signalCounts : Std.ExtTreeMap String Nat := e.orders.foldl (fun counts order =>
    counts.insert order.signalSource ((counts[order.signalSource]?).getD 0 + 1)) ∅
  { ticks := e.marketData.length
    orders := e.orders.length
    breakdown := if e.orders.isEmpty then [] else signalCounts.toList
    avgLatency := if e.latencies.isEmpty then 0 else divSize sumLatency e.latencies.length
    maxLatency := maxLatency }

/-- The engine after `process` in `main`, whose constructor reads the clock for its seed. -/
def runMain [Field R] [LinearOrder R] (market : Market R W) (numTicks : Nat) (w : W) :
    TradeEngine R W :=
  let (feed, w) := generateData market numTicks [] w
  let (_, w) := market.now w
  (new feed w).process market.toWorld

/-! ### The average -/

theorem bmod_word {x : Int} (hlow : -2 ^ 63 ≤ x) (hhigh : x < 2 ^ 63) :
    Int.bmod x (2 ^ 64) = x := by
  rw [Int.bmod_def]
  omega

/-- The division is that of integers exactly when the sum is not negative or divided by one. -/
theorem divSize_eq_iff {sum : Int} {size : Nat} (hpos : 0 < size) (hsize : size < 2 ^ 63)
    (hlow : -2 ^ 63 ≤ sum) (hhigh : sum < 2 ^ 63) :
    divSize sum size = sum.tdiv size ↔ 0 ≤ sum ∨ size = 1 := by
  rcases lt_or_ge sum 0 with hneg | hnonneg
  · have hmod : sum % 2 ^ 64 = sum + 2 ^ 64 := by omega
    rw [divSize, hmod]
    rcases Nat.eq_or_lt_of_le hpos with hone | htwo
    · have hwrap : Int.bmod (sum + 2 ^ 64) (2 ^ 64) = sum := by
        rw [Int.bmod_def]
        omega
      rw [← hone, Nat.cast_one, Int.ediv_one, Int.tdiv_one, hwrap]
      simp
    · have hupper : (sum + 2 ^ 64) / size < 2 ^ 63 :=
        Int.ediv_lt_of_lt_mul (by omega) (by omega)
      have hlower : 1 ≤ (sum + 2 ^ 64) / size :=
        Int.le_ediv_of_mul_le (by omega) (by omega)
      have hquotient : sum.tdiv size ≤ 0 := by
        have := Int.tdiv_nonneg (show 0 ≤ -sum by omega) (Int.natCast_nonneg size)
        rw [Int.neg_tdiv] at this
        omega
      rw [bmod_word (by omega) hupper]
      constructor
      · intro heq
        omega
      · rintro (h | h) <;> omega
  · have hquotient : sum / size ≤ sum := Int.ediv_le_self _ hnonneg
    have hquotient0 : 0 ≤ sum / size := Int.ediv_nonneg hnonneg (Int.natCast_nonneg size)
    rw [divSize, Int.emod_eq_of_lt hnonneg (by omega), bmod_word (by omega) (by omega),
      Int.tdiv_eq_ediv_of_nonneg hnonneg]
    simp [hnonneg]

example : divSize (-3) 2 = 2 ^ 63 - 2 := by decide

/-- The maximum starts at the first value. -/
theorem foldl_max (first : Int) (values : List Int) :
    first ≤ values.foldl max first ∧ (∀ v ∈ values, v ≤ values.foldl max first) ∧
      (values.foldl max first = first ∨ values.foldl max first ∈ values) := by
  induction values generalizing first with
  | nil => exact ⟨le_refl _, by simp, .inl rfl⟩
  | cons v values ih =>
      obtain ⟨hfirst, hall, hattained⟩ := ih (max first v)
      refine ⟨(le_max_left ..).trans hfirst, ?_, ?_⟩
      · intro x hx
        rcases List.mem_cons.mp hx with rfl | hx
        · exact (le_max_right ..).trans hfirst
        · exact hall x hx
      · rw [List.foldl_cons]
        rcases hattained with heq | hmem
        · rcases max_choice first v with hmax | hmax
          · exact .inl (heq.trans hmax)
          · exact .inr (List.mem_cons.mpr (.inl (heq.trans hmax)))
        · exact .inr (List.mem_cons.mpr (.inr hmem))

/-! ### Latencies -/

section Latencies

variable [Field R] [LinearOrder R]

/-- At most one latency more, from a reading after at most one draw. -/
theorem processTick_latency (world : World W) (e : TradeEngine R W) (tick : MarketData R) :
    ((processTick world e tick).latencies = e.latencies ∧
        (processTick world e tick).randomGenerator = e.randomGenerator) ∨
      ∃ w, (w = e.randomGenerator ∨ ∃ n, w = (world.distrib n e.randomGenerator).2) ∧
        (processTick world e tick).latencies =
          e.latencies ++ [((world.now w).1 - tick.timestamp).tdiv 1000000] ∧
        (processTick world e tick).randomGenerator = (world.now w).2 := by
  have hdrawn : ∀ signals (h : 0 < signals.length),
      (selectSignal world signals h e.randomGenerator).2 = e.randomGenerator ∨
        ∃ n, (selectSignal world signals h e.randomGenerator).2 =
          (world.distrib n e.randomGenerator).2 := by
    intro signals h
    rw [selectSignal]
    split
    · exact .inl rfl
    · exact .inr ⟨_, rfl⟩
  simp only [processTick]
  split
  · exact .inr ⟨_, hdrawn _ _, rfl, rfl⟩
  · split
    · exact .inr ⟨_, hdrawn _ _, rfl, rfl⟩
    · exact .inl ⟨rfl, rfl⟩

/-- What holds of each latency that a tick may give holds of all. -/
theorem latencies_forall (world : World W) {P : Int → Prop} {I : W → Prop}
    (hdraw : ∀ n w, I w → I (world.distrib n w).2) (hnow : ∀ w, I w → I (world.now w).2)
    {ticks : List (MarketData R)}
    (hlatency : ∀ tick ∈ ticks, ∀ w, I w → P (((world.now w).1 - tick.timestamp).tdiv 1000000)) :
    ∀ e : TradeEngine R W, I e.randomGenerator → (∀ l ∈ e.latencies, P l) →
      ∀ l ∈ (ticks.foldl (processTick world) e).latencies, P l := by
  induction ticks with
  | nil =>
      intro e _ hlatencies
      exact hlatencies
  | cons tick ticks ih =>
      intro e hgenerator hlatencies
      refine ih (fun t ht => hlatency t (List.mem_cons_of_mem _ ht)) _ ?_ ?_
      · rcases processTick_latency world e tick with ⟨-, hsame⟩ | ⟨w, hw, -, hread⟩
        · rw [hsame]
          exact hgenerator
        · rw [hread]
          rcases hw with rfl | ⟨n, rfl⟩
          · exact hnow _ hgenerator
          · exact hnow _ (hdraw n _ hgenerator)
      · rcases processTick_latency world e tick with ⟨hsame, -⟩ | ⟨w, hw, hplaced, -⟩
        · rw [hsame]
          exact hlatencies
        · have hI : I w := by
            rcases hw with rfl | ⟨n, rfl⟩
            · exact hgenerator
            · exact hdraw n _ hgenerator
          intro l hl
          rw [hplaced, List.mem_append, List.mem_singleton] at hl
          rcases hl with hl | rfl
          · exact hlatencies l hl
          · exact hlatency tick List.mem_cons_self w hI

end Latencies

/-! ### The feed -/

theorem generateData_succ (market : Market R W) (n : Nat) (data : List (MarketData R)) (w : W) :
    generateData market (n + 1) data w = generateTick market (generateData market n data w) n := by
  rw [generateData, List.range_succ, List.foldl_append]
  rfl

theorem generateData_length (market : Market R W) (n : Nat) (w : W) :
    (generateData market n [] w).1.length = n := by
  induction n with
  | zero => rfl
  | succ n ih =>
      rw [generateData_succ, generateTick]
      simp [ih]

theorem generateData_drawn (market : Market R W) (n : Nat) (w : W) :
    ∀ tick ∈ (generateData market n [] w).1,
      (∃ w, tick.price = (market.priceDist w).1) ∧ ∃ w, tick.timestamp = (market.now w).1 := by
  induction n with
  | zero =>
      intro tick htick
      cases htick
  | succ n ih =>
      intro tick htick
      rw [generateData_succ, generateTick] at htick
      rcases List.mem_append.mp htick with htick | htick
      · exact ih tick htick
      · rw [List.mem_singleton.mp htick]
        exact ⟨⟨_, rfl⟩, _, rfl⟩

/-- The clock never goes back: `clock w` is the time in the world `w`. -/
structure Steady (market : Market R W) (clock : W → Int) : Prop where
  read_ge : ∀ w, clock w ≤ (market.now w).1
  read_le : ∀ w, (market.now w).1 ≤ clock (market.now w).2
  distrib_le : ∀ n w, clock w ≤ clock (market.distrib n w).2
  priceDist_le : ∀ w, clock w ≤ clock (market.priceDist w).2

/-- A feed is drawn before the time at which its drawing ends. -/
theorem generateData_past {market : Market R W} {clock : W → Int} (hsteady : Steady market clock)
    (n : Nat) (w : W) :
    ∀ tick ∈ (generateData market n [] w).1,
      tick.timestamp ≤ clock (generateData market n [] w).2 := by
  induction n with
  | zero =>
      intro tick htick
      cases htick
  | succ n ih =>
      intro tick htick
      rw [generateData_succ, generateTick] at htick ⊢
      rcases List.mem_append.mp htick with htick | htick
      · exact (ih tick htick).trans ((hsteady.priceDist_le _).trans
          ((hsteady.read_ge _).trans (hsteady.read_le _)))
      · rw [List.mem_singleton.mp htick]
        exact hsteady.read_le _

section Run

variable [Field R] [LinearOrder R]

theorem steady_latencies {market : Market R W} {clock : W → Int} (hsteady : Steady market clock)
    (n : Nat) (w : W) : ∀ l ∈ (runMain market n w).latencies, 0 ≤ l := by
  have hpast := generateData_past hsteady n w
  refine latencies_forall market.toWorld
    (I := fun w' => ∀ tick ∈ (generateData market n [] w).1, tick.timestamp ≤ clock w')
    ?_ ?_ ?_ _ ?_ (by simp [new])
  · intro m w' hw' tick htick
    exact (hw' tick htick).trans (hsteady.distrib_le m w')
  · intro w' hw' tick htick
    exact (hw' tick htick).trans ((hsteady.read_ge w').trans (hsteady.read_le w'))
  · intro tick htick w' hw'
    exact Int.tdiv_nonneg (by have := hw' tick htick; have := hsteady.read_ge w'; omega) (by omega)
  · intro tick htick
    exact (hpast tick htick).trans ((hsteady.read_ge _).trans (hsteady.read_le _))

/-- The readings of a clock within a span of milliseconds bound the latencies. -/
theorem span_latencies {market : Market R W} {start : Int}
    (hspan : ∀ w, start ≤ (market.now w).1 ∧ (market.now w).1 < start + 2 ^ 32 * 1000000)
    (n : Nat) (w : W) : ∀ l ∈ (runMain market n w).latencies, -2 ^ 32 ≤ l ∧ l ≤ 2 ^ 32 := by
  refine latencies_forall market.toWorld (I := fun _ => True) (fun _ _ _ => trivial)
    (fun _ _ => trivial) ?_ _ trivial (by simp [new])
  intro tick htick w' _
  obtain ⟨-, w'', htimestamp⟩ := generateData_drawn market n w tick htick
  have hnow := hspan w'
  have hthen := hspan w''
  rw [htimestamp]
  have hquotient : (((market.now w').1 - (market.now w'').1).tdiv 1000000).natAbs ≤ 2 ^ 32 := by
    rw [Int.natAbs_tdiv]
    refine Nat.div_le_of_le_mul ?_
    change _ ≤ 1000000 * 2 ^ 32
    omega
  omega

/-! ### The orders -/

/-- A price below the low threshold is one vote to buy, against one vote to sell at most. -/
theorem decision_spec [IsStrictOrderedRing R] {window : List R} {tick : MarketData R}
    {d : Decision R} (h : decision window tick = some d) :
    d.tick = tick ∧ (d.isBuy = false → 105.0 ≤ tick.price) := by
  simp only [decision] at h
  split at h
  · cases h
    exact ⟨rfl, by rintro ⟨⟩⟩
  · split at h
    · rename_i hsell
      cases h
      refine ⟨rfl, fun _ => not_lt.mp fun hlow => ?_⟩
      obtain ⟨hbuys, hsells⟩ := Signal.speaking_labels window tick.price
      have hhigh : ¬ Signal.highThreshold.Holds window tick.price := by
        have hthresholds : (105.0 : R) < 195.0 := by norm_num
        exact not_lt.mpr (hlow.trans hthresholds).le
      have hbuysLength := congrArg List.length hbuys
      have hsellsLength := congrArg List.length hsells
      rw [List.length_map, if_pos (show Signal.lowThreshold.Holds window tick.price from hlow)]
        at hbuysLength
      rw [List.length_map, if_neg hhigh, List.nil_append] at hsellsLength
      simp only [List.length_append, List.length_singleton] at hbuysLength
      have hone : (if Signal.aboveAvg.Holds window tick.price then ["Signal 2 (Above Avg)"]
          else []).length ≤ 1 := by
        split <;> simp
      omega
    · cases h

theorem decisions_spec [IsStrictOrderedRing R] (ticks : List (MarketData R)) :
    (decisions ticks).length ≤ ticks.length ∧
      ∀ d ∈ decisions ticks, d.tick ∈ ticks ∧ (d.isBuy = false → 105.0 ≤ d.tick.price) := by
  induction ticks using List.reverseRecOn with
  | nil => exact ⟨le_refl _, by simp [decisions]⟩
  | append_singleton ticks tick ih =>
      obtain ⟨hlength, hspec⟩ := ih
      rw [decisions_append]
      cases hd : decision (windowAfter (ticks ++ [tick]) tick.instrumentId) tick with
      | none =>
          rw [Option.toList_none, List.append_nil]
          refine ⟨by simp; omega, fun d hmem => ⟨?_, (hspec d hmem).2⟩⟩
          exact List.mem_append_left _ (hspec d hmem).1
      | some last =>
          obtain ⟨htick, hsell⟩ := decision_spec hd
          rw [Option.toList_some]
          refine ⟨by simp; omega, fun d hmem => ?_⟩
          rcases List.mem_append.mp hmem with hmem | hmem
          · exact ⟨List.mem_append_left _ (hspec d hmem).1, (hspec d hmem).2⟩
          · rw [List.mem_singleton.mp hmem, htick]
            exact ⟨by simp, hsell⟩

theorem processTick_marketData (world : World W) (e : TradeEngine R W) (tick : MarketData R) :
    (processTick world e tick).marketData = e.marketData := by
  simp only [processTick]
  split
  · rfl
  · split
    · rfl
    · rfl

theorem runMain_marketData (market : Market R W) (n : Nat) (w : W) :
    (runMain market n w).marketData = (generateData market n [] w).1 := by
  have hkept : ∀ (ticks : List (MarketData R)) (e : TradeEngine R W),
      (ticks.foldl (processTick market.toWorld) e).marketData = e.marketData := by
    intro ticks
    induction ticks with
    | nil => exact fun e => rfl
    | cons tick ticks ih =>
        exact fun e => (ih _).trans (processTick_marketData market.toWorld e tick)
  exact hkept _ _

theorem runMain_places [IsStrictOrderedRing R] (market : Market R W) (n : Nat) (w : W) :
    ∃ placed, List.Forall₂ Places (decisions (generateData market n [] w).1) placed ∧
      (runMain market n w).orders = placed.map (·.1) ∧
      (runMain market n w).latencies = placed.map (·.2) :=
  run_places market.toWorld _ _ _

/-- Each order comes from a decision on a tick of the feed. -/
theorem order_decision [IsStrictOrderedRing R] {market : Market R W} {n : Nat} {w : W}
    {o : Order R} (ho : o ∈ (runMain market n w).orders) :
    ∃ d ∈ decisions (generateData market n [] w).1, ∃ l, Places d (o, l) := by
  obtain ⟨placed, hplaces, horders, -⟩ := runMain_places market n w
  rw [horders] at ho
  obtain ⟨p, hp, rfl⟩ := List.mem_map.mp ho
  obtain ⟨i, hi, rfl⟩ := List.getElem_of_mem hp
  exact ⟨_, List.getElem_mem (hplaces.length_eq ▸ hi), _, hplaces.get _ hi⟩

theorem runMain_length [IsStrictOrderedRing R] (market : Market R W) (n : Nat) (w : W) :
    (runMain market n w).latencies.length = (runMain market n w).orders.length ∧
      (runMain market n w).orders.length ≤ n := by
  obtain ⟨placed, hplaces, horders, hlatencies⟩ := runMain_places market n w
  have hlength := (decisions_spec (generateData market n [] w).1).1
  rw [hplaces.length_eq, generateData_length] at hlength
  rw [horders, hlatencies, List.length_map, List.length_map]
  exact ⟨rfl, hlength⟩

end Run

/-! ### The report -/

theorem reportStats_breakdown (e : TradeEngine R W) :
    e.reportStats.breakdown = (Tally.count (e.orders.map (·.signalSource))).toList := by
  rw [Tally.count, List.foldl_map, reportStats]
  split
  · rename_i hempty
    rw [List.isEmpty_iff.mp hempty]
    rfl
  · rfl

theorem reportStats_average {e : TradeEngine R W} (hpos : 0 < e.latencies.length)
    (hlength : e.latencies.length < 2 ^ 31)
    (hbound : ∀ l ∈ e.latencies, -2 ^ 32 ≤ l ∧ l ≤ 2 ^ 32) :
    e.reportStats.avgLatency = e.latencies.sum.tdiv e.latencies.length ↔
      0 ≤ e.latencies.sum ∨ e.latencies.length = 1 := by
  have hupper : e.latencies.sum ≤ e.latencies.length * 2 ^ 32 := by
    simpa using List.sum_le_card_nsmul e.latencies (2 ^ 32) fun l hl => (hbound l hl).2
  have hlower : e.latencies.length * (-2 ^ 32) ≤ e.latencies.sum := by
    simpa using List.card_nsmul_le_sum e.latencies (-2 ^ 32) fun l hl => (hbound l hl).1
  have hne : e.latencies.isEmpty = false := by
    cases h : e.latencies with
    | nil => simp [h] at hpos
    | cons l latencies => rfl
  rw [← divSize_eq_iff hpos (by omega) (by omega) (by omega)]
  simp only [reportStats, hne, Bool.false_eq_true, if_false, List.sum_eq_foldl]

/-- The average of latencies that are not negative lies between zero and the maximum. -/
theorem reportStats_steady {e : TradeEngine R W} (hlength : e.latencies.length < 2 ^ 31)
    (hbound : ∀ l ∈ e.latencies, -2 ^ 32 ≤ l ∧ l ≤ 2 ^ 32) (hnonneg : ∀ l ∈ e.latencies, 0 ≤ l) :
    e.reportStats.avgLatency = e.latencies.sum.tdiv e.latencies.length ∧
      0 ≤ e.reportStats.avgLatency ∧ e.reportStats.avgLatency ≤ e.reportStats.maxLatency := by
  obtain ⟨hfirst, hmax, -⟩ := foldl_max 0 e.latencies
  have hsum : 0 ≤ e.latencies.sum := List.sum_nonneg hnonneg
  rcases Nat.eq_zero_or_pos e.latencies.length with hzero | hpos
  · rw [List.length_eq_zero_iff] at hzero
    simp [reportStats, hzero]
  · have haverage := (reportStats_average hpos hlength hbound).mpr (.inl hsum)
    refine ⟨haverage, ?_, ?_⟩
    · rw [haverage]
      exact Int.tdiv_nonneg hsum (Int.natCast_nonneg _)
    · have hupper : e.latencies.sum ≤ e.latencies.length * e.reportStats.maxLatency := by
        have hsumMax := List.sum_le_card_nsmul e.latencies _ hmax
        rwa [nsmul_eq_mul] at hsumMax
      rw [haverage, Int.tdiv_eq_ediv_of_nonneg hsum]
      exact Int.ediv_le_of_le_mul (by omega) (by rwa [Int.mul_comm] at hupper)

section Run

variable [Field R] [LinearOrder R] [IsStrictOrderedRing R]

theorem order_price {market : Market R W} {n : Nat} {w : W}
    (hprice : ∀ w, 100.0 ≤ (market.priceDist w).1 ∧ (market.priceDist w).1 < 200.0)
    {o : Order R} (ho : o ∈ (runMain market n w).orders) :
    if o.isBuy then 100.01 ≤ o.price ∧ o.price < 200.01
    else 104.99 ≤ o.price ∧ o.price < 199.99 := by
  obtain ⟨d, hd, l, hplaces⟩ := order_decision ho
  obtain ⟨htick, hsell⟩ := (decisions_spec _).2 d hd
  obtain ⟨⟨w', hdrawn⟩, -⟩ := generateData_drawn market n w d.tick htick
  obtain ⟨hlow, hhigh⟩ := hprice w'
  rw [← hdrawn] at hlow hhigh
  have hpriceEq := hplaces.price
  have hside := hplaces.side
  simp only at hpriceEq hside
  rw [hpriceEq, hside]
  cases hbuy : d.isBuy with
  | true =>
      simp only [if_true]
      norm_num at hlow hhigh ⊢
      constructor <;> linarith
  | false =>
      have hlow' := hsell hbuy
      simp only [Bool.false_eq_true, if_false]
      norm_num at hlow' hhigh ⊢
      constructor <;> linarith

/-- **The report of a run.** Each order is counted once, under a signal that it names; the prices
of the orders are those of the feed, and no sell order is placed below the low threshold. The
average is that of the latencies exactly when their sum is not negative or there is one order, in
particular while the clock never goes back; the maximum is that of the latencies and zero. -/
theorem report_of_run (market : Market R W) (n : Nat) (w : W) (start : Int) (hticks : n < 2 ^ 31)
    (hspan : ∀ w, start ≤ (market.now w).1 ∧ (market.now w).1 < start + 2 ^ 32 * 1000000)
    (hprice : ∀ w, 100.0 ≤ (market.priceDist w).1 ∧ (market.priceDist w).1 < 200.0) :
    let e := runMain market n w
    let r := e.reportStats
    (r.ticks = n ∧ r.orders ≤ r.ticks) ∧
      (r.breakdown.Pairwise (fun a b => compare a.1 b.1 = .lt) ∧
        (∀ label k, (label, k) ∈ r.breakdown ↔
          0 < k ∧ (e.orders.map (·.signalSource)).count label = k) ∧
        (r.breakdown.map (·.2)).sum = r.orders ∧
        ∀ entry ∈ r.breakdown, ∃ s : Signal, entry.1 = s.label) ∧
      (∀ o ∈ e.orders, if o.isBuy then 100.01 ≤ o.price ∧ o.price < 200.01
        else 104.99 ≤ o.price ∧ o.price < 199.99) ∧
      (0 < r.orders → (r.avgLatency = e.latencies.sum.tdiv r.orders ↔
        0 ≤ e.latencies.sum ∨ r.orders = 1)) ∧
      ((∀ l ∈ e.latencies, l ≤ r.maxLatency) ∧
        (r.maxLatency = 0 ∨ r.maxLatency ∈ e.latencies)) ∧
      ∀ clock, Steady market clock →
        (∀ l ∈ e.latencies, 0 ≤ l) ∧ r.avgLatency = e.latencies.sum.tdiv r.orders ∧
          0 ≤ r.avgLatency ∧ r.avgLatency ≤ r.maxLatency := by
  intro e r
  have hbreakdown : r.breakdown = (Tally.count (e.orders.map (·.signalSource))).toList :=
    reportStats_breakdown e
  obtain ⟨hlatencies, horders⟩ := runMain_length market n w
  have hbound := span_latencies hspan n w
  have hlength : (runMain market n w).latencies.length < 2 ^ 31 := by omega
  obtain ⟨-, hmax, hattained⟩ := foldl_max 0 e.latencies
  have hticksEq : r.ticks = n :=
    (congrArg List.length (runMain_marketData market n w)).trans (generateData_length market n w)
  have hordersEq : (r.orders : Nat) = e.latencies.length := hlatencies.symm
  refine ⟨⟨hticksEq, hticksEq ▸ horders⟩, ⟨?_, ?_, ?_, ?_⟩, fun o ho => order_price hprice ho,
    ?_, ⟨hmax, hattained⟩, ?_⟩
  · rw [hbreakdown]
    exact Std.ExtTreeMap.ordered_keys_toList
  · intro label k
    rw [hbreakdown]
    exact Tally.mem_toList_count _ label k
  · rw [hbreakdown, Tally.sum_toList_count, List.length_map]
    rfl
  · rintro ⟨label, k⟩ hentry
    rw [hbreakdown] at hentry
    obtain ⟨hpos, hcount⟩ := (Tally.mem_toList_count _ label k).mp hentry
    obtain ⟨o, ho, rfl⟩ := List.mem_map.mp (List.count_pos_iff.mp (hcount ▸ hpos))
    obtain ⟨d, -, l, hplaces⟩ := order_decision ho
    obtain ⟨s, -, hlabel⟩ := hplaces.source
    exact ⟨s, hlabel⟩
  · intro hpos
    rw [hordersEq] at hpos ⊢
    exact reportStats_average hpos hlength hbound
  · intro clock hsteady
    have hnonneg := steady_latencies hsteady n w
    rw [hordersEq]
    exact ⟨hnonneg, reportStats_steady hlength hbound hnonneg⟩

/-- Prices below the low threshold, and a clock that stops after a second. -/
def cheapMarket : Market ℚ Nat where
  distrib n w := (Fin.last n, w)
  now w := (((min w 1000 : Nat) : Int) * 1000000, w + 1)
  priceDist w := (101, w)

theorem report_of_run_sample :
    let r := (runMain cheapMarket 3 0).reportStats
    r.orders = 3 ∧ (r.breakdown.map (·.2)).sum = r.orders ∧ r.avgLatency ≤ r.maxLatency := by
  obtain ⟨-, ⟨-, -, hsum, -⟩, -, -, -, hsteady⟩ := report_of_run cheapMarket 3 0 0 (by decide)
    (by
      intro w
      simp only [cheapMarket]
      omega)
    (by
      intro w
      simp only [cheapMarket]
      norm_num)
  refine ⟨by decide +kernel, hsum, ?_⟩
  refine (hsteady (fun w => ((min w 1000 : Nat) : Int) * 1000000) ⟨?_, ?_, ?_, ?_⟩).2.2.2
  · exact fun w => le_refl _
  · intro w
    simp only [cheapMarket]
    omega
  · exact fun n w => le_refl _
  · exact fun w => le_refl _

end Run

end TradeEngine

end HftProject.Week2
