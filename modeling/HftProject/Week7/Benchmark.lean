import HftProject.Week7.Analytics
import HftProject.Week7.RingCompletion

/-!
The benchmark of the order processing: rounds on the same globals, each with `reset_all`,
`startOrderProcessing` and the analytics. The memory policy has no effect where memory is
sequentially consistent.

A round reports on its own orders, each once, whatever the rounds before it have left behind, and a
round that has been started can always be brought to its end (`benchmark_rounds`).
-/

namespace HftProject.Week7

open RingProcessing

variable {N K : Nat}

/-- Why the benchmark does not go on. -/
inductive BenchmarkFault where
  | thread (fault : Fault)
  /-- `startOrderProcessing` still waits for a thread. -/
  | notJoined
  /-- A `release` beyond the maximum of the semaphore. -/
  | beyondMaximum
deriving DecidableEq

/-- `while (processingSemaphore.try_acquire()) {}` -/
def tryAcquireAll : Nat → Nat
  | 0 => 0
  | slots + 1 => tryAcquireAll slots

/-- `processingSemaphore.release()` -/
def release (slots : Nat) : Except BenchmarkFault Nat :=
  if slots < numConsumersForBarrier then .ok (slots + 1) else .error .beyondMaximum

namespace RingProcessing

/-- The latch and the barrier are made anew. -/
def resetAll (ordersPerProducer : Nat) (s : RingProcessing N) :
    Except BenchmarkFault (RingProcessing N) := do
  let slots ← (List.range numConsumersForBarrier).foldlM (fun slots _ => release slots)
    (tryAcquireAll s.globals.processingSemaphore)
  return {
    ring := { s.ring with queue := s.ring.queue.reset }
    globals := { s.globals with
      orderQueue := .empty
      orderBook := fun _ => (0, 0)
      latencyDataStore := []
      ordersProcessed := 0
      totalExpectedOrders := N * ordersPerProducer
      latchOpen := false
      processingSemaphore := slots } }

/-- The threads are started. -/
def spawn (ordersPerProducer : Nat) (s : RingProcessing N) : RingProcessing N where
  ring := ⟨s.ring.queue, fun _ => .idle, []⟩
  globals := { s.globals with
    totalExpectedOrders := N * ordersPerProducer
    producers := fun _ => .looping 0
    consumers := fun _ => .waiting }

/-- The threads take the turns, and all of them are joined. -/
def startOrderProcessing (ordersPerProducer : Nat) (turns : List (RingTurn N))
    (s : RingProcessing N) : Except BenchmarkFault (RingProcessing N) :=
  match Run.run (step ordersPerProducer) turns (s.spawn ordersPerProducer) with
  | .error fault => .error (.thread fault)
  | .ok t =>
      if (∀ p, t.globals.producers p = .looping ordersPerProducer) ∧
          ∀ c, t.globals.consumers c = .finished then .ok t
      else .error .notJoined

end RingProcessing

/-- The globals, and what has been printed. -/
structure Benchmark (N : Nat) where
  processing : RingProcessing N
  reports : List (Option (List ReportLine))

/-- The number of orders of a producer, and the turns of the threads. -/
abbrev Round (N : Nat) := Nat × List (RingTurn N)

namespace Benchmark

def round (r : Round N) (s : Benchmark N) : Except BenchmarkFault (Benchmark N) := do
  let t ← s.processing.resetAll r.1
  let t ← t.startOrderProcessing r.1 r.2
  return ⟨t, s.reports ++ [runTradeAnalytics t.globals.latencyDataStore]⟩

/-- The report is about every order of the round, once. -/
def Reports (r : Round N) (report : Option (List ReportLine)) : Prop :=
  ∃ data : List LatencyRecord, report = runTradeAnalytics data ∧ data.length = N * r.1 ∧
    (↑(data.map (·.orderId)) : Multiset Nat) =
      ∑ p : Fin N, ∑ i ∈ Finset.range r.1, {(producedOrder p i 0).orderId}

/-- The globals at the end of a round are about its orders only. -/
structure Ended (K : Nat) (t : RingProcessing N) : Prop where
  empty : t.ring.queue.head = t.ring.queue.tail
  book : ∀ symbol, t.globals.orderBook symbol =
    ∑ p : Fin N, ∑ i ∈ Finset.range K, side symbol (producedOrder p i 0)
  processed : t.globals.ordersProcessed = N * K

/-- Whatever `reset_all` finds, the threads start on fresh globals. -/
theorem resetAll_spawn (K : Nat) (s : RingProcessing N) :
    ∃ t, s.resetAll K = .ok t ∧ t.spawn K = start s.ring.queue N K := by
  have hnone : ∀ slots, tryAcquireAll slots = 0 := by
    intro slots
    induction slots with
    | zero => rfl
    | succ slots ih => exact ih
  have hslots : (List.range numConsumersForBarrier).foldlM (fun slots _ => release slots)
      (tryAcquireAll s.globals.processingSemaphore) = .ok numConsumersForBarrier := by
    rw [hnone]
    rfl
  simp only [resetAll, hslots]
  exact ⟨_, rfl, rfl⟩

theorem round_eq (r : Round N) (s : Benchmark N) :
    s.round r = match Run.run (RingProcessing.step r.1) r.2
        (start s.processing.ring.queue N r.1) with
      | .error fault => .error (.thread fault)
      | .ok t =>
          if (∀ p, t.globals.producers p = .looping r.1) ∧ ∀ c, t.globals.consumers c = .finished
          then .ok ⟨t, s.reports ++ [runTradeAnalytics t.globals.latencyDataStore]⟩
          else .error .notJoined := by
  obtain ⟨t, ht, hspawn⟩ := resetAll_spawn r.1 s.processing
  rw [round, ht]
  change (t.startOrderProcessing r.1 r.2 >>= _) = _
  rw [startOrderProcessing, hspawn]
  cases Run.run (RingProcessing.step r.1) r.2 (start s.processing.ring.queue N r.1) with
  | error fault => rfl
  | ok t =>
      simp only
      split <;> rfl

/-- A round that ends. -/
theorem round_inv {r : Round N} {s s' : Benchmark N} (h : s.round r = .ok s') :
    (∃ report, s'.reports = s.reports ++ [report] ∧ Reports r report) ∧
      Ended r.1 s'.processing := by
  rw [round_eq] at h
  cases hrun : Run.run (RingProcessing.step r.1) r.2
      (start s.processing.ring.queue N r.1) with
  | error fault =>
      rw [hrun] at h
      cases h
  | ok t =>
      rw [hrun] at h
      simp only at h
      split at h
      · rename_i hjoined
        cases h
        obtain ⟨-, hempty, hbook, hids, hall, hexpected⟩ :=
          ring_orders_processed _ _ hrun (c := 0) (by rw [hjoined.2]; rfl)
        refine ⟨⟨_, rfl, _, rfl, ?_, hids⟩, hempty, hbook, hall.trans hexpected⟩
        have hcard := congrArg Multiset.card hids
        simpa using hcard
      · cases h

/-- A round can be brought to its end, whatever its first turns were. -/
theorem round_completes (s : Benchmark N) (K : Nat) {turns : List (RingTurn N)}
    {t : RingProcessing N}
    (h : Run.run (RingProcessing.step K) turns (start s.processing.ring.queue N K) = .ok t) :
    ∃ rest s', s.round (K, turns ++ rest) = .ok s' := by
  obtain ⟨-, -, rest, t', hrest, hfinished, hproduced, -⟩ :=
    every_ring_run_can_finish _ turns h
  refine ⟨rest, ⟨t', s.reports ++ [runTradeAnalytics t'.globals.latencyDataStore]⟩, ?_⟩
  rw [round_eq, Run.run_append.mpr ⟨t, h, hrest⟩]
  exact if_pos ⟨hproduced, hfinished⟩

/-- A round does not end only because a turn cannot be taken or turns are missing. -/
theorem round_within (r : Round N) (s : Benchmark N) : s.round r ≠ .error .beyondMaximum := by
  rw [round_eq]
  split
  · exact nofun
  · split <;> exact nofun

/-- After any rounds there is a report for each of them, on its own orders, each once; the globals
are about the orders of the last round; the semaphore is never released beyond its maximum; and
every start of another round can be brought to its end. -/
theorem benchmark_rounds (rounds : List (Round N)) (s t : Benchmark N)
    (h : Run.run round rounds s = .ok t) :
    (∃ reports, t.reports = s.reports ++ reports ∧ List.Forall₂ Reports rounds reports) ∧
      (∀ r ∈ rounds.getLast?, Ended r.1 t.processing) ∧
      (∀ r, t.round r ≠ .error .beyondMaximum) ∧
      ∀ K turns m, Run.run (RingProcessing.step K) turns
          (start t.processing.ring.queue N K) = .ok m →
        ∃ rest t', t.round (K, turns ++ rest) = .ok t' := by
  refine ⟨?_, ?_, fun r => round_within r t, fun K turns m hrun => round_completes t K hrun⟩
  · induction rounds generalizing s with
    | nil =>
        cases h
        exact ⟨[], (List.append_nil _).symm, .nil⟩
    | cons r rounds ih =>
        obtain ⟨m, hround, hrest⟩ := Run.run_cons_inv h
        obtain ⟨⟨report, hm, hreport⟩, -⟩ := round_inv hround
        obtain ⟨reports, ht, hreports⟩ := ih m hrest
        refine ⟨report :: reports, ?_, .cons hreport hreports⟩
        rw [ht, hm, List.append_assoc]
        rfl
  · intro r hr
    obtain ⟨before, rfl⟩ := List.getLast?_eq_some_iff.mp hr
    obtain ⟨m, -, hlast⟩ := Run.run_append.mp h
    obtain ⟨m', hround, hnil⟩ := Run.run_cons_inv hlast
    cases hnil
    exact (round_inv hround).2

/-- One producer with one order; the first consumer takes it, and all leave. -/
def oneOrderRound : Round 1 :=
  let p : Fin 1 := ⟨0, Nat.zero_lt_one⟩
  let consumers := List.finRange numConsumersForBarrier
  (1, [.countDown] ++ List.replicate 7 (.producer p false 1) ++
    consumers.flatMap (fun c =>
      List.replicate (if c.val = 0 then 18 else 7) (.consumer c false true 5)) ++
    consumers.map fun c => .consumer c false true 7)

/-- Two rounds on a queue that has been used, with an empty semaphore. -/
theorem benchmark_rounds_sample : ∃ t : Benchmark 1,
    Run.run round [oneOrderRound, oneOrderRound]
      ⟨⟨⟨usedQueue, fun _ => .idle, []⟩, { Processing.start 1 0 with processingSemaphore := 0 }⟩,
        []⟩ = .ok t ∧
      t.reports.length = 2 ∧ t.processing.globals.ordersProcessed = 1 := by
  have hruns : (Run.run round [oneOrderRound, oneOrderRound]
      ⟨⟨⟨usedQueue, fun _ => .idle, []⟩, { Processing.start 1 0 with processingSemaphore := 0 }⟩,
        []⟩).map (fun t : Benchmark 1 => t.reports.length) = .ok 2 := by
    decide +kernel
  obtain ⟨t, hrun, hlength⟩ := Run.except_map_inv hruns
  exact ⟨t, hrun, hlength, ((benchmark_rounds _ _ t hrun).2.1 oneOrderRound rfl).processed⟩

end Benchmark

end HftProject.Week7
