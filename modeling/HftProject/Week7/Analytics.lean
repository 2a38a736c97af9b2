import HftProject.Lib.Quantiles
import HftProject.Lib.Rounding
import HftProject.Week7.OrderProcessing
import Mathlib.Algebra.Order.BigOperators.Group.List
import Mathlib.Data.Rat.Floor

/-!
The analytics of the latency records: averages and percentiles. Averages and the positions of the
percentiles are computed with doubles, which are rationals rounded to 53 bits here.

For fewer than 2^40 records the positions are what exact arithmetic gives, so the printed
percentiles are quantiles of the exact shares, and the report does not depend on the order in which
the consumers stored the records (`analytics_report`).
-/

namespace HftProject.Week7

open Quantiles Rounding

/-- A double, its exponent not bounded. -/
def double (x : ℚ) : ℚ := roundBinary 53 x

/-- The lines of the report. Averages are in nanoseconds; those in microseconds are left out. -/
inductive ReportLine where
  | noRecords
  | records (n : Nat)
  | average (label : String) (ns : ℚ)
  | noData (name : String)
  | heading (name : String)
  | latency (label : String) (ns : Int)
deriving DecidableEq

/-- `double(total) / data.size()` -/
def averageOf (total : Int) (size : Nat) : ℚ := double (double total / double size)

def calculateAverageQueueTime (data : List LatencyRecord) : ℚ :=
  if data.isEmpty then 0
  else averageOf (data.foldl (fun sum r => sum + r.queueDuration) 0) data.length

def calculateAverageProcessingTime (data : List LatencyRecord) : ℚ :=
  if data.isEmpty then 0
  else averageOf (data.foldl (fun sum r => sum + r.processingDuration) 0) data.length

/-- The position of a percentile among so many latencies. -/
def idx (p : ℚ) (size : Nat) : Nat :=
  let i := ⌊double (double p * double size)⌋.toNat
  if i ≥ size then size - 1 else i

/-- An access outside the vector is `none`. -/
def printLatencyPercentiles (data : List LatencyRecord) (extractor : LatencyRecord → Int)
    (name : String) : Option (List ReportLine) :=
  if data.isEmpty then some [.noData name]
  else do
    let latencies := (data.map extractor).insertionSort (· ≤ ·)
    let percentile (p : ℚ) := latencies[idx p latencies.length]?
    let lowest ← latencies.head?
    let median ← percentile (50 / 100)
    let p90 ← percentile (90 / 100)
    let p95 ← percentile (95 / 100)
    let p99 ← percentile (99 / 100)
    let p999 ←
      if latencies.length > 1 then
        (percentile (999 / 1000)).map fun v => [ReportLine.latency "99.9th" v]
      else some []
    let highest ← latencies.getLast?
    return [.heading name, .latency "Min" lowest, .latency "50th (Median)" median,
      .latency "90th" p90, .latency "95th" p95, .latency "99th" p99] ++ p999 ++
        [.latency "Max" highest]

def runTradeAnalytics (data : List LatencyRecord) : Option (List ReportLine) :=
  if data.isEmpty then some [.noRecords]
  else do
    let avgQ := calculateAverageQueueTime data
    let avgP := calculateAverageProcessingTime data
    let totalE2E := (data.map fun r => r.queueDuration + r.processingDuration).sum
    let avgE2E := averageOf totalE2E data.length
    let queue ← printLatencyPercentiles data (·.queueDuration) "Queue"
    let processing ← printLatencyPercentiles data (·.processingDuration) "Processing"
    return [.records data.length, .average "Average Order Queue Time" avgQ,
      .average "Average Order Processing Time" avgP, .average "Average End-to-End Latency" avgE2E] ++
        queue ++ processing

/-! ### Positions -/

/-- A product whose relative error is small has the integer part of the exact one. -/
theorem floor_double {q x : ℚ} {m r b : Nat} (hq : q * b = b * m + r) (hqpos : 0 < q)
    (hr : r < b) (hb : b ≤ 1000) (hsmall : q < 2 ^ 40) (herror : |x - q| < q / 2 ^ 54) :
    ⌊double x⌋ = (m : Int) := by
  have hb0 : (0 : ℚ) < b := by exact_mod_cast (Nat.zero_le r).trans_lt hr
  have hbig : (b : ℚ) ≤ 1000 := by exact_mod_cast hb
  rcases Nat.eq_zero_or_pos r with hzero | hrest
  · -- a whole number is met exactly
    have hqm : q = m := by
      rw [hzero, Nat.cast_zero, add_zero, mul_comm] at hq
      exact mul_left_cancel₀ hb0.ne' hq
    rw [hqm] at herror hqpos hsmall
    have hm : m < 2 ^ 53 := by
      have hm : m < 2 ^ 40 := by exact_mod_cast hsmall
      omega
    rw [double, roundBinary_eq_natCast (Nat.cast_pos.mp hqpos) hm herror]
    exact Int.floor_natCast m
  · -- any other is farther from the next whole number than the two roundings reach
    have hnear := abs_lt.mp herror
    have hlow : (m : ℚ) + 1 / 1000 ≤ q := by
      have hone : (1 : ℚ) ≤ r := Nat.one_le_cast.mpr hrest
      refine le_of_mul_le_mul_right ?_ hb0
      rw [hq]
      linarith
    have hhigh : q ≤ (m : ℚ) + 1 - 1 / 1000 := by
      have hless : (r : ℚ) + 1 ≤ b := by exact_mod_cast hr
      refine le_of_mul_le_mul_right ?_ hb0
      rw [hq]
      linarith
    have hx : 0 < x := by linarith
    have hround := abs_le.mp (abs_sub_roundBinary_le_div 53 hx)
    have hfrom : (m : ℚ) ≤ roundBinary 53 x :=
      natCast_le_roundBinary (by linarith) (by linarith)
    rw [Int.floor_eq_iff, Int.cast_natCast, double]
    exact ⟨hfrom, by linarith⟩

/-- The literal `a / b` as a double is near enough. -/
def Literal (a b : Nat) : Prop :=
  0 < a ∧ a < b ∧ b ≤ 1000 ∧ |double (a / b) - a / b| < (a / b : ℚ) / 2 ^ 54

instance (a b : Nat) : Decidable (Literal a b) :=
  inferInstanceAs (Decidable (_ ∧ _ ∧ _ ∧ _))

theorem literals : Literal 50 100 ∧ Literal 90 100 ∧ Literal 95 100 ∧ Literal 99 100 ∧
    Literal 999 1000 := by
  decide +kernel

theorem idx_eq {a b : Nat} (h : Literal a b) {n : Nat} (hpos : 0 < n) (hn : n < 2 ^ 40) :
    idx (a / b) n = a * n / b := by
  obtain ⟨ha, hab, hb, hliteral⟩ := h
  have hb0 : (0 : ℚ) < b := by exact_mod_cast ha.trans hab
  have ha0 : (0 : ℚ) < a := by exact_mod_cast ha
  have hn0 : (0 : ℚ) < n := by exact_mod_cast hpos
  have hn' : (n : ℚ) < 2 ^ 40 := by exact_mod_cast hn
  have hless : a * n / b < n := by
    rw [Nat.div_lt_iff_lt_mul (ha.trans hab), Nat.mul_comm]
    exact Nat.mul_lt_mul_of_pos_left hab hpos
  have hq : (a / b * n : ℚ) * b = b * (a * n / b : Nat) + (a * n % b : Nat) := by
    have hdivmod : (b : ℚ) * (a * n / b : Nat) + (a * n % b : Nat) = a * n := by
      exact_mod_cast Nat.div_add_mod (a * n) b
    rw [hdivmod]
    field_simp
  have hsmall : (a / b * n : ℚ) < 2 ^ 40 := by
    have hshare : (a / b : ℚ) < 1 := by
      rw [div_lt_one hb0]
      exact_mod_cast hab
    calc (a / b * n : ℚ) < 1 * n := mul_lt_mul_of_pos_right hshare hn0
      _ = n := one_mul _
      _ < 2 ^ 40 := hn'
  have herror : |double (a / b) * n - a / b * n| < (a / b * n : ℚ) / 2 ^ 54 := by
    calc |double (a / b) * n - a / b * n| = |double (a / b) - a / b| * n := by
          rw [← sub_mul, abs_mul, abs_of_pos hn0]
      _ < (a / b : ℚ) / 2 ^ 54 * n := mul_lt_mul_of_pos_right hliteral hn0
      _ = (a / b * n : ℚ) / 2 ^ 54 := by ring
  have hfloor := floor_double hq (by positivity) (Nat.mod_lt _ (ha.trans hab)) hb hsmall herror
  have hsize : double n = n := roundBinary_natCast (by omega)
  have hi : ⌊double (double (a / b) * double n)⌋.toNat = a * n / b := by
    rw [hsize, hfloor, Int.toNat_natCast]
  rw [idx, hi, if_neg (by omega)]

/-! ### Percentiles -/

/-- The printed latencies. -/
structure Percentiles where
  lowest : Int
  median : Int
  p90 : Int
  p95 : Int
  p99 : Int
  p999 : Int
  highest : Int

namespace Percentiles

/-- They are what they are called, with exact shares. -/
structure Of (values : List Int) (s : Percentiles) : Prop where
  lowest : s.lowest ∈ values ∧ ∀ v ∈ values, s.lowest ≤ v
  median : Quantile (50 / 100) values s.median
  p90 : Quantile (90 / 100) values s.p90
  p95 : Quantile (95 / 100) values s.p95
  p99 : Quantile (99 / 100) values s.p99
  p999 : Quantile (999 / 1000) values s.p999
  highest : s.highest ∈ values ∧ ∀ v ∈ values, v ≤ s.highest

/-- The lines about so many records. -/
def lines (name : String) (records : Nat) (s : Percentiles) : List ReportLine :=
  [.heading name, .latency "Min" s.lowest, .latency "50th (Median)" s.median,
    .latency "90th" s.p90, .latency "95th" s.p95, .latency "99th" s.p99] ++
    (if records > 1 then [.latency "99.9th" s.p999] else []) ++ [.latency "Max" s.highest]

/-- They do not decrease down the report. -/
def Ordered (s : Percentiles) : Prop :=
  s.lowest ≤ s.median ∧ s.median ≤ s.p90 ∧ s.p90 ≤ s.p95 ∧ s.p95 ≤ s.p99 ∧ s.p99 ≤ s.p999 ∧
    s.p999 ≤ s.highest

theorem Of.ordered {values : List Int} {s : Percentiles} (h : s.Of values) : s.Ordered :=
  ⟨h.lowest.2 _ h.median.mem, h.median.mono h.p90 (by norm_num), h.p90.mono h.p95 (by norm_num),
    h.p95.mono h.p99 (by norm_num), h.p99.mono h.p999 (by norm_num), h.highest.2 _ h.p999.mem⟩

end Percentiles

/-- What stands at the position of a percentile. -/
theorem percentile_quantile {values : List Int} {a b : Nat} (h : Literal a b)
    (hne : values ≠ []) (hlen : values.length < 2 ^ 40) :
    ∃ v, (values.insertionSort (· ≤ ·))[idx (a / b) values.length]? = some v ∧
      Quantile (a / b) values v := by
  have hpos := List.length_pos_iff.mpr hne
  have hi : a * values.length / b < (values.insertionSort (· ≤ ·)).length := by
    rw [List.length_insertionSort, Nat.div_lt_iff_lt_mul (h.1.trans h.2.1), Nat.mul_comm]
    exact Nat.mul_lt_mul_of_pos_left h.2.1 hpos
  have hb0 : (0 : ℚ) < b := by exact_mod_cast h.1.trans h.2.1
  have hlow : ((a * values.length / b : Nat) : ℚ) ≤
      a / b * (values.insertionSort (· ≤ ·)).length := by
    rw [List.length_insertionSort, div_mul_eq_mul_div, le_div_iff₀ hb0]
    exact_mod_cast Nat.div_mul_le_self _ _
  have hhigh : (a / b * (values.insertionSort (· ≤ ·)).length : ℚ) <
      (a * values.length / b : Nat) + 1 := by
    rw [List.length_insertionSort, div_mul_eq_mul_div, div_lt_iff₀ hb0, mul_comm _ (b : ℚ)]
    exact_mod_cast Nat.lt_mul_div_succ _ (h.1.trans h.2.1)
  rw [idx_eq h hpos hlen, List.getElem?_eq_getElem hi]
  exact ⟨_, rfl, (Quantile.of_sorted (List.pairwise_insertionSort _ _) hi hlow hhigh).perm
    (List.perm_insertionSort _ _)⟩

/-- The first and the last of the sorted values. -/
theorem sorted_ends {values : List Int} (hne : values ≠ []) :
    (∃ v, (values.insertionSort (· ≤ ·)).head? = some v ∧ v ∈ values ∧ ∀ w ∈ values, v ≤ w) ∧
      ∃ v, (values.insertionSort (· ≤ ·)).getLast? = some v ∧ v ∈ values ∧ ∀ w ∈ values, w ≤ v := by
  have hperm := List.perm_insertionSort (· ≤ ·) values
  have hsorted := List.pairwise_insertionSort (· ≤ ·) values
  have hne' : values.insertionSort (· ≤ ·) ≠ [] := fun hnil =>
    hne (List.perm_nil.mp (hnil ▸ hperm.symm))
  generalize values.insertionSort (· ≤ ·) = sorted at hperm hsorted hne'
  constructor
  · cases sorted with
    | nil => exact absurd rfl hne'
    | cons v rest =>
        refine ⟨v, rfl, hperm.mem_iff.mp List.mem_cons_self, fun w hw => ?_⟩
        rcases List.mem_cons.mp (hperm.mem_iff.mpr hw) with rfl | hw'
        · exact le_rfl
        · exact (List.pairwise_cons.mp hsorted).1 w hw'
  · refine ⟨sorted.getLast hne', List.getLast?_eq_some_getLast hne',
      hperm.mem_iff.mp (List.getLast_mem hne'), fun w hw => ?_⟩
    have hw' := hperm.mem_iff.mpr hw
    rw [← List.dropLast_append_getLast hne', List.mem_append, List.mem_singleton] at hw'
    rcases hw' with hw' | rfl
    · rw [← List.dropLast_append_getLast hne'] at hsorted
      exact (List.pairwise_append.mp hsorted).2.2 w hw' _ (List.mem_singleton.mpr rfl)
    · exact le_rfl

theorem printLatencyPercentiles_eq {data : List LatencyRecord} (hne : data ≠ [])
    (hlen : data.length < 2 ^ 40) (extractor : LatencyRecord → Int) (name : String) :
    ∃ s : Percentiles, printLatencyPercentiles data extractor name =
      some (s.lines name data.length) ∧ s.Of (data.map extractor) := by
  have hvalues : data.map extractor ≠ [] := by simpa using hne
  have hlen' : (data.map extractor).length < 2 ^ 40 := by rwa [List.length_map]
  obtain ⟨h50, h90, h95, h99, h999⟩ := literals
  obtain ⟨median, hmedian, hquantile⟩ := percentile_quantile h50 hvalues hlen'
  obtain ⟨p90, hp90, hquantile90⟩ := percentile_quantile h90 hvalues hlen'
  obtain ⟨p95, hp95, hquantile95⟩ := percentile_quantile h95 hvalues hlen'
  obtain ⟨p99, hp99, hquantile99⟩ := percentile_quantile h99 hvalues hlen'
  obtain ⟨p999, hp999, hquantile999⟩ := percentile_quantile h999 hvalues hlen'
  simp only [Nat.cast_ofNat, List.length_map] at hmedian hp90 hp95 hp99 hp999
  simp only [Nat.cast_ofNat] at hquantile hquantile90 hquantile95 hquantile99 hquantile999
  obtain ⟨hlowest, hhighest⟩ := sorted_ends hvalues
  obtain ⟨lowest, hhead, hlow⟩ := hlowest
  obtain ⟨highest, hlast, hhigh⟩ := hhighest
  refine ⟨⟨lowest, median, p90, p95, p99, p999, highest⟩, ?_,
    ⟨hlow, hquantile, hquantile90, hquantile95, hquantile99, hquantile999, hhigh⟩⟩
  have hfull : data.isEmpty = false := by simpa using hne
  by_cases hmore : data.length > 1
  · simp [printLatencyPercentiles, hfull, hhead, hlast, hmedian, hp90, hp95, hp99, hp999, hmore,
      Percentiles.lines]
  · simp [printLatencyPercentiles, hfull, hhead, hlast, hmedian, hp90, hp95, hp99, hmore,
      Percentiles.lines]

theorem printLatencyPercentiles_perm {data data' : List LatencyRecord} (h : data.Perm data')
    (extractor : LatencyRecord → Int) (name : String) :
    printLatencyPercentiles data extractor name = printLatencyPercentiles data' extractor name := by
  have hsort : (data.map extractor).insertionSort (· ≤ ·) =
      (data'.map extractor).insertionSort (· ≤ ·) := by
    refine List.Perm.eq_of_pairwise' (List.pairwise_insertionSort _ _)
      (List.pairwise_insertionSort _ _) ?_
    exact (List.perm_insertionSort _ _).trans
      ((h.map extractor).trans (List.perm_insertionSort _ _).symm)
  have hempty : data.isEmpty = data'.isEmpty := h.isEmpty_eq
  simp only [printLatencyPercentiles, hsort, hempty]

/-! ### Averages -/

theorem calculateAverageQueueTime_eq {data : List LatencyRecord} (hne : data ≠ []) :
    calculateAverageQueueTime data =
      averageOf (data.map (·.queueDuration)).sum (data.map (·.queueDuration)).length := by
  rw [calculateAverageQueueTime, if_neg (by simpa using hne), List.sum_eq_foldl, List.foldl_map,
    List.length_map]

theorem calculateAverageProcessingTime_eq {data : List LatencyRecord} (hne : data ≠ []) :
    calculateAverageProcessingTime data =
      averageOf (data.map (·.processingDuration)).sum
        (data.map (·.processingDuration)).length := by
  rw [calculateAverageProcessingTime, if_neg (by simpa using hne), List.sum_eq_foldl,
    List.foldl_map, List.length_map]

/-- The average is between the least and the greatest value, although it has been rounded twice. -/
theorem averageOf_between {values : List Int} {lowest highest : Int} (hne : values ≠ [])
    (hlen : values.length < 2 ^ 40) (hsum : values.sum < 2 ^ 53) (hpos : 0 ≤ lowest)
    (hmem : highest ∈ values) (hlow : ∀ v ∈ values, lowest ≤ v)
    (hhigh : ∀ v ∈ values, v ≤ highest) :
    lowest ≤ averageOf values.sum values.length ∧
      averageOf values.sum values.length ≤ highest := by
  have hnonneg : ∀ v ∈ values, 0 ≤ v := fun v hv => hpos.trans (hlow v hv)
  have hleast := List.card_nsmul_le_sum values lowest hlow
  have hmost := List.sum_le_card_nsmul values highest hhigh
  have hlast := List.single_le_sum hnonneg highest hmem
  obtain ⟨total, htotal⟩ := Int.eq_ofNat_of_zero_le (List.sum_nonneg hnonneg)
  obtain ⟨low, rfl⟩ := Int.eq_ofNat_of_zero_le hpos
  obtain ⟨high, rfl⟩ := Int.eq_ofNat_of_zero_le (hnonneg highest hmem)
  have hn := List.length_pos_iff.mpr hne
  rw [htotal] at hleast hmost hlast hsum ⊢
  rw [nsmul_eq_mul] at hleast hmost
  generalize values.length = n at hleast hmost hlen hn ⊢
  have hn0 : (0 : ℚ) < n := by exact_mod_cast hn
  have hx : double ((total : Int) : ℚ) / double n = (total : ℚ) / n := by
    rw [double, double, Int.cast_natCast, roundBinary_natCast (by omega),
      roundBinary_natCast (by omega)]
  have hfrom : (low : ℚ) ≤ total / n := by
    rw [le_div_iff₀ hn0, mul_comm]
    exact_mod_cast hleast
  have hto : (total / n : ℚ) ≤ high := by
    rw [div_le_iff₀ hn0, mul_comm]
    exact_mod_cast hmost
  have hbound : (total / n : ℚ) < 2 ^ 53 := hto.trans_lt (by exact_mod_cast hlast.trans_lt hsum)
  rw [averageOf, hx, Int.cast_natCast, Int.cast_natCast]
  refine ⟨natCast_le_roundBinary hfrom hbound, ?_⟩
  rcases Nat.eq_zero_or_pos total with hzero | htotalpos
  · rw [hzero, Nat.cast_zero, zero_div, double, roundBinary, if_pos rfl]
    exact Nat.cast_nonneg high
  · exact roundBinary_le_natCast (div_pos (by exact_mod_cast htotalpos) hn0) hto hbound

/-! ### The report -/

/-- The report on at least one record: every percentile is the quantile of the exact share and every
average is between the least and the greatest latency. The report does not depend on the order of
the records. -/
theorem analytics_report (data : List LatencyRecord) (hne : data ≠ [])
    (hlen : data.length < 2 ^ 40) :
    (∃ queue processing : Percentiles,
      runTradeAnalytics data = some ([.records data.length,
          .average "Average Order Queue Time" (calculateAverageQueueTime data),
          .average "Average Order Processing Time" (calculateAverageProcessingTime data),
          .average "Average End-to-End Latency"
            (averageOf ((data.map (·.queueDuration)).sum + (data.map (·.processingDuration)).sum)
              data.length)] ++
        queue.lines "Queue" data.length ++ processing.lines "Processing" data.length) ∧
      queue.Of (data.map (·.queueDuration)) ∧ queue.Ordered ∧
      processing.Of (data.map (·.processingDuration)) ∧ processing.Ordered ∧
      (0 ≤ queue.lowest → (data.map (·.queueDuration)).sum < 2 ^ 53 →
        queue.lowest ≤ calculateAverageQueueTime data ∧
          calculateAverageQueueTime data ≤ queue.highest) ∧
      (0 ≤ processing.lowest → (data.map (·.processingDuration)).sum < 2 ^ 53 →
        processing.lowest ≤ calculateAverageProcessingTime data ∧
          calculateAverageProcessingTime data ≤ processing.highest)) ∧
    ∀ data' : List LatencyRecord, data'.Perm data →
      runTradeAnalytics data' = runTradeAnalytics data := by
  obtain ⟨queue, hqueue, hqueueOf⟩ := printLatencyPercentiles_eq hne hlen (·.queueDuration) "Queue"
  obtain ⟨processing, hprocessing, hprocessingOf⟩ :=
    printLatencyPercentiles_eq hne hlen (·.processingDuration) "Processing"
  have hfull : ¬ data.isEmpty = true := by simpa using hne
  refine ⟨⟨queue, processing, ?_, hqueueOf, hqueueOf.ordered, hprocessingOf,
    hprocessingOf.ordered, fun hpos hsum => ?_, fun hpos hsum => ?_⟩, fun data' hperm => ?_⟩
  · rw [runTradeAnalytics, if_neg hfull]
    simp only [hqueue, hprocessing, List.sum_map_add]
    rfl
  · rw [calculateAverageQueueTime_eq hne]
    exact averageOf_between (by simpa using hne) (by rwa [List.length_map]) hsum hpos
      hqueueOf.highest.1 hqueueOf.lowest.2 hqueueOf.highest.2
  · rw [calculateAverageProcessingTime_eq hne]
    exact averageOf_between (by simpa using hne) (by rwa [List.length_map]) hsum hpos
      hprocessingOf.highest.1 hprocessingOf.lowest.2 hprocessingOf.highest.2
  · have hne' : data' ≠ [] := fun hnil => hne (List.perm_nil.mp (hnil ▸ hperm.symm))
    simp only [runTradeAnalytics, hperm.isEmpty_eq, calculateAverageQueueTime_eq hne,
      calculateAverageQueueTime_eq hne', calculateAverageProcessingTime_eq hne,
      calculateAverageProcessingTime_eq hne', (hperm.map _).sum_eq, List.length_map,
      hperm.length_eq, printLatencyPercentiles_perm hperm]

/-- Three records, and the same in the order of the ids. -/
theorem analytics_report_sample :
    runTradeAnalytics [⟨2, 40, 101⟩, ⟨0, 10, 149⟩, ⟨1, 31, 100⟩] =
      runTradeAnalytics [⟨0, 10, 149⟩, ⟨1, 31, 100⟩, ⟨2, 40, 101⟩] ∧
    calculateAverageQueueTime [⟨0, 10, 149⟩, ⟨1, 31, 100⟩, ⟨2, 40, 101⟩] = 27 :=
  ⟨(analytics_report [⟨0, 10, 149⟩, ⟨1, 31, 100⟩, ⟨2, 40, 101⟩] (by decide) (by decide)).2
    [⟨2, 40, 101⟩, ⟨0, 10, 149⟩, ⟨1, 31, 100⟩] (by decide), by decide +kernel⟩

end HftProject.Week7
