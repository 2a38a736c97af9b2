import HftProject.Week7.OrderConservation

/-!
The ids of a run. A producer numbers its orders from `producerId * 10000`, so the ids of
different producers meet as soon as there are two producers with more than ten thousand
orders each. They are what the latency store of a finished run holds
(`order_ids_unique_iff`), and every start can be run to its end (`exists_finished_run`).
-/

namespace HftProject.Week7

open Conservation Processing

variable {N K : Nat}

/-! ### The ids that are assigned -/

/-- The orders that the producer has made are those before this one. -/
def Producer.made : Producer → Nat
  | .looping i => i
  | .pushing i _ => i + 1

/-- The id that the turn gives to a new order. -/
def assigns (numOrders : Nat) (turn : Turn N) (s : Processing N) : Option Nat :=
  match turn with
  | .producer p _ now =>
      match s.producers p with
      | .looping i => if i < numOrders then some (producedOrder p i now).orderId else none
      | .pushing _ _ => none
  | .countDown => none
  | .consumer .. => none

/-- The ids that the producers give to their orders, in the order of the run. -/
def assignedIds (numOrders : Nat) : List (Turn N) → Processing N → List Nat :=
  Run.outputs (Processing.step numOrders) (assigns numOrders)

/-- The ids of the first orders of each producer. -/
def ids (made : Fin N → Nat) : Multiset Nat :=
  ∑ p, ∑ i ∈ Finset.range (made p), {(producedOrder p i 0).orderId}

/-- The ids are numbers of orders, `10000` to a producer. -/
theorem ids_eq_map (made : Fin N → Nat) :
    ids made = (Finset.univ.sigma fun p => Finset.range (made p)).val.map
      fun order : (_ : Fin N) × Nat => order.1.val * 10000 + order.2 := by
  rw [ids, Finset.sum_sigma', ← Multiset.sum_map_singleton (Multiset.map _ _), Multiset.map_map]
  rfl

theorem ids_nodup_iff (made : Fin N → Nat) :
    (ids made).Nodup ↔ ∀ p i p' i', i < made p → i' < made p' →
      p.val * 10000 + i = p'.val * 10000 + i' → p = p' ∧ i = i' := by
  rw [ids_eq_map, Multiset.nodup_map_iff_inj_on (Finset.nodup _)]
  constructor
  · intro h p i p' i' hi hi' heq
    have hsame := h ⟨p, i⟩ (by simpa using hi) ⟨p', i'⟩ (by simpa using hi') heq
    cases hsame
    exact ⟨rfl, rfl⟩
  · rintro h ⟨p, i⟩ hi ⟨p', i'⟩ hi' heq
    obtain ⟨rfl, rfl⟩ := h p i p' i' (by simpa using hi) (by simpa using hi') heq
    rfl

/-- The ids of two producers cannot meet. -/
def IdsSeparate (numProducers ordersPerProducer : Nat) : Prop :=
  numProducers ≤ 1 ∨ ordersPerProducer ≤ 10000

theorem ids_nodup {made : Fin N → Nat} (hmade : ∀ p, made p ≤ K) (h : IdsSeparate N K) :
    (ids made).Nodup := by
  refine (ids_nodup_iff made).mpr fun p i p' i' hi hi' heq => ?_
  have hp := p.isLt
  have hp' := p'.isLt
  have hK := hmade p
  have hK' := hmade p'
  have hnum : p.val = p'.val := by
    rcases h with hN | hfew <;> omega
  exact ⟨Fin.ext hnum, by omega⟩

/-- The second producer's first order has the id of an order of the first. -/
theorem ids_not_nodup (h : ¬ IdsSeparate N K) : ¬ (ids fun _ : Fin N => K).Nodup := by
  obtain ⟨hN, hK⟩ := not_or.mp h
  intro hnodup
  have hmeet := (ids_nodup_iff _).mp hnodup ⟨0, by omega⟩ 10000 ⟨1, by omega⟩ 0
    (Nat.lt_of_not_le hK) (by omega) (by simp)
  exact absurd hmeet.2 (by decide)

/-! ### Runs -/

/-- The ids of the orders that the producers have made so far. -/
def madeIds (s : Processing N) : Multiset Nat := ids fun p => (s.producers p).made

/-- The ids of the orders that a producer has made. -/
def idsOf (p : Fin N) (loc : Producer) : Multiset Nat :=
  ∑ i ∈ Finset.range loc.made, ({(producedOrder p i 0).orderId} : Multiset Nat)

theorem madeIds_eq (s : Processing N) : madeIds s = total idsOf s.producers := rfl

theorem madeIds_setProducer {s : Processing N} {p : Fin N} {loc : Producer}
    (h : loc.made = (s.producers p).made) : madeIds (s.setProducer p loc) = madeIds s := by
  have hsame : idsOf p loc = idsOf p (s.producers p) := by rw [idsOf, idsOf, h]
  rw [madeIds_eq, madeIds_eq]
  exact total_update_same hsame

/-- A producer that makes its next order. -/
theorem madeIds_make {s : Processing N} {p : Fin N} {i : Nat} {order : Order}
    (h : s.producers p = .looping i) :
    madeIds (s.setProducer p (.pushing i order)) =
      madeIds s + {(producedOrder p i 0).orderId} := by
  have hupdate := total_update idsOf s.producers p (.pushing i order)
  rw [h] at hupdate
  simp only [idsOf, Producer.made, Finset.sum_range_succ] at hupdate
  rw [add_left_comm, add_comm (∑ j ∈ Finset.range i, _)] at hupdate
  exact add_right_cancel hupdate

theorem madeIds_step {s s' : Processing N} {turn : Turn N} (hstep : s.step K turn = .ok s') :
    madeIds s' = madeIds s + ((assigns K turn s).toList.map ({·})).sum := by
  cases turn with
  | countDown =>
      cases hstep
      exact (add_zero _).symm
  | producer p refuses now =>
      rw [Processing.step, orderProducer] at hstep
      cases hloc : s.producers p with
      | looping i =>
          simp only [hloc] at hstep
          split at hstep
          · rename_i hi
            cases hstep
            rw [madeIds_make hloc]
            simp [assigns, hloc, hi, producedOrder]
          · cases hstep
      | pushing i order =>
          have hnone : assigns K (.producer p refuses now) s = none := by simp [assigns, hloc]
          rw [hnone]
          simp only [hloc] at hstep
          split at hstep
          · cases hstep
            refine (madeIds_setProducer ?_).trans (add_zero _).symm
            change i + 1 = (s.producers p).made
            rw [hloc]
            rfl
          · cases hstep
            exact (add_zero _).symm
  | consumer c refuses processedFirst now =>
      have hproducers := (orderConsumer_consumes hstep).producers
      rw [madeIds, hproducers]
      exact (add_zero _).symm

/-- The ids that a run assigns are those of the orders that are made at its end. -/
theorem assignedIds_eq {turns : List (Turn N)} {s : Processing N}
    (hrun : Run.run (Processing.step K) turns (start N K) = .ok s) :
    (↑(assignedIds K turns (start N K)) : Multiset Nat) = madeIds s := by
  have hsteps : ∀ turn (s s' : Processing N), True → s.step K turn = .ok s' →
      True ∧ madeIds s' = madeIds s + ((assigns K turn s).toList.map ({·})).sum :=
    fun _ _ _ _ hstep => ⟨trivial, madeIds_step hstep⟩
  have hweigh := outputs_weigh hsteps trivial hrun
  have hstart : madeIds (start N K) = 0 := total_zero fun _ => rfl
  rw [hstart, zero_add] at hweigh
  rw [hweigh, ← Multiset.sum_coe, ← Multiset.map_coe, Multiset.sum_map_singleton]
  rfl

theorem accounts_of_run {turns : List (Turn N)} {s : Processing N}
    (hrun : Run.run (Processing.step K) turns (start N K) = .ok s) : Accounts K s :=
  Run.run_invariant (fun _ _ _ hs hstep => hs.step hstep) start_accounts hrun

/-- At the end of a run all ids have been assigned and are in the latency store. -/
theorem finished_ids_not_nodup {turns : List (Turn N)} {s : Processing N}
    (hrun : Run.run (Processing.step K) turns (start N K) = .ok s)
    {c : Fin numConsumersForBarrier} (hleft : (s.consumers c).outside = true)
    (hmeet : ¬ IdsSeparate N K) :
    ¬ (assignedIds K turns (start N K)).Nodup ∧ ¬ (s.latencyDataStore.map (·.orderId)).Nodup := by
  have h := accounts_of_run hrun
  have hmade : madeIds s = ids fun _ => K :=
    congrArg ids (funext fun p => by rw [(h.finished hleft).2.1 p]; rfl)
  rw [← Multiset.coe_nodup, ← Multiset.coe_nodup, assignedIds_eq hrun, h.finished_latency hleft,
    hmade]
  exact ⟨ids_not_nodup hmeet, ids_not_nodup hmeet⟩

/-- The ids that are assigned and the ids in the latency store differ pairwise. -/
def UniqueIds (K : Nat) (turns : List (Turn N)) (s : Processing N) : Prop :=
  (assignedIds K turns (start N K)).Nodup ∧ (s.latencyDataStore.map (·.orderId)).Nodup

/-- With one producer, or at most ten thousand orders each, the ids are unique in every state
of every run; otherwise a run that has come to its end has assigned an id twice, and its
latency store holds an id twice. -/
theorem order_ids_unique_iff (turns : List (Turn N)) {s : Processing N}
    (hrun : Run.run (Processing.step K) turns (start N K) = .ok s) :
    (IdsSeparate N K → UniqueIds K turns s) ∧
      ∀ c, (s.consumers c).outside = true → ¬ IdsSeparate N K →
        ¬ (assignedIds K turns (start N K)).Nodup ∧
          ¬ (s.latencyDataStore.map (·.orderId)).Nodup := by
  have h := accounts_of_run hrun
  refine ⟨fun hseparate => ⟨?_, ?_⟩, fun c hleft hmeet => finished_ids_not_nodup hrun hleft hmeet⟩
  · rw [← Multiset.coe_nodup, assignedIds_eq hrun]
    refine ids_nodup (fun p => ?_) hseparate
    cases hloc : s.producers p with
    | looping i =>
        have hi := h.next p
        rwa [hloc] at hi
    | pushing i order => exact (h.made p i order hloc).1
  · have hall : (ids fun p => (s.producers p).next).Nodup := ids_nodup h.next hseparate
    rw [← Multiset.coe_nodup]
    refine Multiset.nodup_of_le ?_ hall
    exact (Multiset.le_add_left _ _).trans_eq h.latency.symm

theorem order_ids_unique_one : ∃ s : Processing 1,
    Run.run (Processing.step 1) oneOrder (start 1 1) = .ok s ∧ UniqueIds 1 oneOrder s :=
  ⟨_, rfl, (order_ids_unique_iff oneOrder rfl).1 (.inl (Nat.le_refl 1))⟩

/-! ### A run to the end -/

/-- Between two orders: the queue is empty and every consumer is about to pop. -/
structure Between (s : Processing N) (made : Fin N → Nat) : Prop where
  queue : s.orderQueue.items = []
  slots : 0 < s.processingSemaphore
  producers : ∀ p, s.producers p = .looping (made p)
  consumers : ∀ c, s.consumers c = .popping

/-- A consumer that has taken an order brings it through all stages. -/
theorem acquiring_run {s : Processing N} {c : Fin numConsumersForBarrier} {order : Order}
    (hslots : 0 < s.processingSemaphore) (hloc : s.consumers c = .acquiring order) :
    Run.run (Processing.step K) (List.replicate 5 (.consumer c false true 0)) s =
      .ok { s with
        orderBook := applyOrder s.orderBook order
        latencyDataStore := s.latencyDataStore ++
          [⟨order.orderId, order.dequeueTime - order.enqueueTime, 0⟩]
        ordersProcessed := s.ordersProcessed + 1
        consumers := Function.update s.consumers c .popping } := by
  have hback : s.processingSemaphore - 1 + 1 = s.processingSemaphore := Nat.sub_add_cancel hslots
  simp [List.replicate_succ, Run.run, Processing.step, orderConsumer, setConsumer, hloc, hslots,
    hback]

/-- The producer makes an order and pushes it into the empty queue. -/
theorem looping_run {s : Processing N} {p : Fin N} {i : Nat}
    (hqueue : s.orderQueue.items = []) (hloc : s.producers p = .looping i) (hi : i < K) :
    ∃ queue, Run.run (Processing.step K) [.producer p false 0, .producer p false 0] s =
        .ok { s with
          orderQueue := queue
          producers := Function.update s.producers p (.looping (i + 1)) } ∧
      queue.items = [producedOrder p i 0] := by
  have hroom : s.orderQueue.items.length < orderQueueCapacity := by
    rw [hqueue]
    decide
  obtain ⟨hpush, hitems⟩ := s.orderQueue.push_room (producedOrder p i 0) hroom
  refine ⟨(s.orderQueue.push (producedOrder p i 0)).2, ?_, by rw [hitems, hqueue]; rfl⟩
  simp [Run.run, Processing.step, orderProducer, setProducer, hloc, hi, hpush]

/-- A producer makes an order, and a consumer takes it through all stages. -/
theorem Between.reaches {s : Processing N} {made : Fin N → Nat} (h : Between s made) {p : Fin N}
    (hp : made p < K) : ∃ s', Run.Reaches (Processing.step K) s s' ∧
      Between s' (Function.update made p (made p + 1)) := by
  obtain ⟨queue, hmake, hitems⟩ := looping_run (K := K) h.queue (h.producers p) hp
  obtain ⟨hsome, hrest⟩ := BoundedFifo.pop_cons hitems
  have htake : Processing.step K (.consumer 0 false true 0) { s with
        orderQueue := queue
        producers := Function.update s.producers p (.looping (made p + 1)) } =
      .ok { s with
        orderQueue := queue.pop.2
        producers := Function.update s.producers p (.looping (made p + 1))
        consumers := Function.update s.consumers 0 (.acquiring (producedOrder p (made p) 0)) } := by
    have hpop : queue.pop = (some (producedOrder p (made p) 0), queue.pop.2) := Prod.ext hsome rfl
    simp only [Processing.step, orderConsumer, h.consumers 0]
    rw [hpop]
    rfl
  have hacquiring : Function.update s.consumers 0 (.acquiring (producedOrder p (made p) 0)) 0 =
      .acquiring (producedOrder p (made p) 0) := Function.update_self ..
  refine ⟨_, .trans ⟨_, hmake⟩ (.head htake ⟨_, acquiring_run (c := 0) h.slots hacquiring⟩), hrest,
    h.slots, fun p' => ?_, fun c => ?_⟩
  · by_cases hp' : p' = p
    · subst hp'
      simp
    · simp [hp', h.producers p']
  · by_cases hc : c = 0
    · subst hc
      simp
    · simp [hc, h.consumers c]

/-- Made orders are missing until each producer has made all of its own. -/
theorem Between.reaches_end {s : Processing N} {made : Fin N → Nat} (h : Between s made)
    (hmade : ∀ p, made p ≤ K) :
    ∃ s', Run.Reaches (Processing.step K) s s' ∧ Between s' fun _ => K := by
  induction hleft : ∑ p, (K - made p) using Nat.strong_induction_on generalizing s made with
  | _ left ih =>
    by_cases hall : ∀ p, made p = K
    · obtain rfl : made = fun _ => K := funext hall
      exact ⟨s, .refl s, h⟩
    · obtain ⟨p, hp⟩ := not_forall.mp hall
      have hlt : made p < K := Nat.lt_of_le_of_ne (hmade p) hp
      obtain ⟨m, hm, hbetween⟩ := h.reaches hlt
      have hmade' : ∀ p', Function.update made p (made p + 1) p' ≤ K :=
        (Function.forall_update_iff made fun _ n => n ≤ K).mpr ⟨hlt, fun p' _ => hmade p'⟩
      have hless : ∑ p', (K - Function.update made p (made p + 1) p') < left := by
        rw [← hleft]
        refine Finset.sum_lt_sum (fun p' _ => ?_) ⟨p, Finset.mem_univ p, ?_⟩
        · by_cases hp' : p' = p
          · subst hp'
            rw [Function.update_self]
            omega
          · rw [Function.update_of_ne hp']
        · rw [Function.update_self]
          omega
      obtain ⟨t, ht, hend⟩ := ih _ hless hbetween hmade' rfl
      exact ⟨t, hm.trans ht, hend⟩

/-- A consumer that finds the queue empty and everything counted arrives at the barrier. -/
theorem leaving_run {s : Processing N} {c : Fin numConsumersForBarrier}
    (hqueue : s.orderQueue.items = []) (hcounted : s.totalExpectedOrders ≤ s.ordersProcessed)
    (hloc : s.consumers c = .popping) :
    Run.run (Processing.step K) (List.replicate 4 (.consumer c false true 0)) s =
      .ok (s.setConsumer c .arrived) := by
  have hpop := BoundedFifo.pop_nil hqueue
  simp [List.replicate_succ, Run.run, Processing.step, orderConsumer, setConsumer, hloc, hpop,
    stopOrContinue, hcounted]

/-- Each consumer moves from one place to the next, whatever the others do. -/
theorem consumers_reach {I : Processing N → Prop} {s : Processing N} (here there : Consumer)
    (move : ∀ s c, I s → (∀ c, s.consumers c = here ∨ s.consumers c = there) →
      s.consumers c = here → Run.Reaches (Processing.step K) s (s.setConsumer c there))
    (kept : ∀ s c, I s → I (s.setConsumer c there)) (init : I s)
    (hhere : ∀ c, s.consumers c = here) :
    ∃ s', Run.Reaches (Processing.step K) s s' ∧ I s' ∧ ∀ c, s'.consumers c = there := by
  have hbring : ∀ t : Processing N, (I t ∧ ∀ c, t.consumers c = here ∨ t.consumers c = there) →
      ∀ c, ∃ t', Run.Reaches (Processing.step K) t t' ∧
        (I t' ∧ ∀ c, t'.consumers c = here ∨ t'.consumers c = there) ∧ t'.consumers c = there ∧
          ∀ c', t.consumers c' = there → t'.consumers c' = there := by
    rintro t ⟨hI, hplaces⟩ c
    have hself : (t.setConsumer c there).consumers c = there := Function.update_self ..
    have hother : ∀ c', c' ≠ c → (t.setConsumer c there).consumers c' = t.consumers c' :=
      fun c' hc => Function.update_of_ne hc _ _
    rcases hplaces c with hloc | hloc
    · refine ⟨_, move t c hI hplaces hloc, ⟨kept t c hI, fun c' => ?_⟩, hself, fun c' hc' => ?_⟩
      · by_cases hc : c' = c
        · exact .inr (hc ▸ hself)
        · rw [hother c' hc]
          exact hplaces c'
      · by_cases hc : c' = c
        · exact hc ▸ hself
        · rw [hother c' hc, hc']
    · exact ⟨t, .refl t, ⟨hI, hplaces⟩, hloc, fun _ h => h⟩
  obtain ⟨t, ht, ⟨hI, -⟩, hall⟩ := reaches_forall hbring ⟨init, fun c => .inl (hhere c)⟩
  exact ⟨t, ht, hI, hall⟩

theorem waiting_step {s : Processing N} {c : Fin numConsumersForBarrier}
    (hopen : s.latchOpen = true) (hloc : s.consumers c = .waiting) :
    s.step K (.consumer c false true 0) = .ok (s.setConsumer c .popping) := by
  simp [Processing.step, orderConsumer, hloc, hopen]

theorem arrived_step {s : Processing N} {c : Fin numConsumersForBarrier}
    (hplaces : ∀ c, s.consumers c = .arrived ∨ s.consumers c = .finished)
    (hloc : s.consumers c = .arrived) :
    s.step K (.consumer c false true 0) = .ok (s.setConsumer c .finished) := by
  simp [Processing.step, orderConsumer, hloc, hplaces]

/-- The consumers pass the latch. -/
theorem start_reaches (N K : Nat) :
    ∃ s, Run.Reaches (Processing.step K) (start N K) s ∧ Between s fun _ => 0 := by
  have hopen : (start N K).step K .countDown = .ok { start N K with latchOpen := true } := rfl
  obtain ⟨s, hs, ⟨-, hqueue, hslots, hproducers⟩, hall⟩ :=
    consumers_reach (K := K) (s := { start N K with latchOpen := true })
      (I := fun s => s.latchOpen = true ∧ s.orderQueue.items = [] ∧ 0 < s.processingSemaphore ∧
        ∀ p, s.producers p = .looping 0) .waiting .popping
      (fun t c hI _ hloc => .head (waiting_step hI.1 hloc) (.refl _))
      (fun _ _ hI => hI) ⟨rfl, rfl, Nat.zero_lt_succ 3, fun _ => rfl⟩ fun _ => rfl
  exact ⟨s, .head hopen hs, hqueue, hslots, hproducers, hall⟩

/-- When all orders are made and the queue is empty, all are counted. -/
theorem Between.counted {s : Processing N} (h : Between s fun _ => K) (haccounts : Accounts K s) :
    s.totalExpectedOrders ≤ s.ordersProcessed := by
  obtain ⟨hproduced, hunderway⟩ := produced_all (K := K) (fun _ => 1) .counter
    (fun p => by rw [h.producers p]; rfl) h.queue (fun c => by rw [h.consumers c]; rfl)
  have hcounter := haccounts.counter
  rw [hproduced, hunderway, zero_add] at hcounter
  rw [haccounts.expected, ← hcounter]
  simp

/-- Every number of producers and of orders can be run to the end of all threads. -/
theorem exists_finished_run (N K : Nat) : ∃ (turns : List (Turn N)) (s : Processing N),
    Run.run (Processing.step K) turns (start N K) = .ok s ∧ ∀ c, s.consumers c = .finished := by
  obtain ⟨s, hs, hbetween⟩ := start_reaches N K
  obtain ⟨t, ht, hend⟩ := hbetween.reaches_end (K := K) fun _ => Nat.zero_le K
  obtain ⟨turns, hturns⟩ := hs.trans ht
  have haccounts := accounts_of_run hturns
  obtain ⟨u, hu, -, harrived⟩ := consumers_reach (K := K)
    (I := fun s => s.orderQueue.items = [] ∧ s.totalExpectedOrders ≤ s.ordersProcessed)
    .popping .arrived (fun s c hI _ hloc => ⟨_, leaving_run hI.1 hI.2 hloc⟩) (fun _ _ hI => hI)
    ⟨hend.queue, hend.counted haccounts⟩ hend.consumers
  obtain ⟨v, hv, -, hfinished⟩ := consumers_reach (K := K) (I := fun _ => True)
    .arrived .finished
    (fun s c _ hplaces hloc => .head (arrived_step hplaces hloc) (.refl _))
    (fun _ _ _ => trivial) trivial harrived
  obtain ⟨all, hrun⟩ := (hs.trans ht).trans (hu.trans hv)
  exact ⟨all, v, hrun, hfinished⟩

/-- The numbers of `main`: four producers with 25000 orders each. -/
theorem main_ids_not_unique : ∃ (turns : List (Turn 4)) (s : Processing 4),
    Run.run (Processing.step 25000) turns (start 4 25000) = .ok s ∧
      (∀ c, s.consumers c = .finished) ∧
      ¬ (assignedIds 25000 turns (start 4 25000)).Nodup ∧
      ¬ (s.latencyDataStore.map (·.orderId)).Nodup := by
  obtain ⟨turns, s, hrun, hfinished⟩ := exists_finished_run 4 25000
  have hmeet : ¬ IdsSeparate 4 25000 := by
    rintro (h | h) <;> omega
  refine ⟨turns, s, hrun, hfinished, ?_⟩
  exact finished_ids_not_nodup hrun (c := 0) (by rw [hfinished 0]; rfl) hmeet

end HftProject.Week7
