import HftProject.Lib.Conservation
import HftProject.Week7.OrderProcessing
import Mathlib.Algebra.BigOperators.Group.Multiset.Basic
import Mathlib.Algebra.Order.BigOperators.Group.Finset
import Mathlib.Data.Int.Basic

/-!
Orders are neither lost nor duplicated between the producers, the book, the latency store
and the counter. On its way from the queue a consumer passes an order through three stages;
what has been produced is what is queued, what consumers hold before the stage and what has
passed it (`Accounts`).
-/

namespace HftProject.Week7

open Conservation Processing

/-! ### What a thread holds -/

/-- What a consumer does with an order after it has been processed. -/
inductive Stage where
  | book
  | latency
  | counter
deriving DecidableEq, Repr

/-- The order that the consumer has popped and not passed through the stage. -/
def Consumer.hand (stage : Stage) : Consumer → Option Order
  | .acquiring order => some order
  | .processing order _ => some order
  | .applying order _ _ => some order
  | .recording order _ _ => if stage = .book then none else some order
  | .counting order => if stage = .counter then some order else none
  | _ => none

/-- The order that passes the stage in the consumer's next step. -/
def Consumer.passing (stage : Stage) : Consumer → Option Order
  | .applying order _ _ => if stage = .book then some order else none
  | .recording order _ _ => if stage = .latency then some order else none
  | .counting order => if stage = .counter then some order else none
  | _ => none

/-- The orders that the producer has pushed are those before this one. -/
def Producer.next : Producer → Nat
  | .looping i => i
  | .pushing i _ => i

section Measure

variable {M : Type} [AddCancelCommMonoid M] {N : Nat}

/-- The measure of an order, if there is one. -/
def weight (μ : Order → M) : Option Order → M
  | none => 0
  | some order => μ order

/-- The measure does not depend on the clock. -/
def Timeless (μ : Order → M) : Prop :=
  ∀ (order : Order) (enqueued dequeued : Int),
    μ { order with enqueueTime := enqueued, dequeueTime := dequeued } = μ order

/-- What the producer has pushed. -/
def pushed (μ : Order → M) (p : Fin N) (loc : Producer) : M :=
  ∑ i ∈ Finset.range loc.next, μ (producedOrder p i 0)

/-- What has been pushed. -/
def produced (μ : Order → M) (s : Processing N) : M := total (pushed μ) s.producers

/-- What the consumers hold before the stage. -/
def inHand (stage : Stage) (μ : Order → M)
    (consumers : Fin numConsumersForBarrier → Consumer) : M :=
  total (fun _ loc => weight μ (loc.hand stage)) consumers

/-- What has been pushed and not passed the stage. -/
def underway (stage : Stage) (μ : Order → M) (s : Processing N) : M :=
  (s.orderQueue.items.map μ).sum + inHand stage μ s.consumers

end Measure

/-- What the order adds to the entry of the symbol. -/
def side (symbol : String) (order : Order) : Int × Int :=
  if order.symbol = symbol then
    if order.isBuy then (order.quantity, 0) else (0, order.quantity)
  else 0

theorem applyOrder_apply (book : String → Int × Int) (order : Order) (symbol : String) :
    applyOrder book order symbol = book symbol + side symbol order := by
  unfold applyOrder side
  by_cases h : order.symbol = symbol
  · subst h
    rw [Function.update_self, if_pos rfl]
    split
    · ext <;> simp
    · ext <;> simp
  · rw [Function.update_of_ne (Ne.symm h), if_neg h, add_zero]

/-! ### What a step can do -/

variable {N K : Nat}

/-- What a consumer that has loaded a counter, or left, knows. -/
def Known (s : Processing N) : Consumer → Prop
  | .loadedProcessed processed => processed ≤ s.ordersProcessed
  | .loadedExpected expected => expected = s.totalExpectedOrders
  | .left => s.totalExpectedOrders ≤ s.ordersProcessed
  | .arrived => s.totalExpectedOrders ≤ s.ordersProcessed
  | .finished => s.totalExpectedOrders ≤ s.ordersProcessed
  | _ => True

/-- The steps of a consumer. -/
inductive Consumes (s : Processing N) (c : Fin numConsumersForBarrier) : Processing N → Prop
  /-- It has no order before or after. -/
  | look {loc loc' : Consumer} (h : s.consumers c = loc) (hand : ∀ stage, loc.hand stage = none)
      (hand' : ∀ stage, loc'.hand stage = none) (passing : ∀ stage, loc.passing stage = none)
      (known : Known s loc → Known s loc') : Consumes s c (s.setConsumer c loc')
  | take {order : Order} {queue : BoundedFifo Order orderQueueCapacity} (now : Int)
      (h : s.consumers c = .popping) (pop : s.orderQueue.pop = (some order, queue)) :
      Consumes s c ({ s with orderQueue := queue }.setConsumer c
        (.acquiring { order with dequeueTime := now }))
  | carry {loc loc' : Consumer} (slots : Nat) (h : s.consumers c = loc)
      (hand : ∀ stage, loc'.hand stage = loc.hand stage)
      (passing : ∀ stage, loc.passing stage = none) (known : ∀ s : Processing N, Known s loc') :
      Consumes s c ({ s with processingSemaphore := slots }.setConsumer c loc')
  | apply {order : Order} {procStart procEnd : Int}
      (h : s.consumers c = .applying order procStart procEnd) :
      Consumes s c ({ s with orderBook := applyOrder s.orderBook order }.setConsumer c
        (.recording order procStart procEnd))
  | record {order : Order} {procStart procEnd : Int} (record : LatencyRecord)
      (h : s.consumers c = .recording order procStart procEnd)
      (id : record.orderId = order.orderId) :
      Consumes s c ({ s with latencyDataStore := s.latencyDataStore ++ [record] }.setConsumer c
        (.counting order))
  | count {order : Order} (h : s.consumers c = .counting order) :
      Consumes s c ({ s with ordersProcessed := s.ordersProcessed + 1 }.setConsumer c .popping)

theorem stopOrContinue_hand (stage : Stage) (processed expected : Nat) :
    (stopOrContinue processed expected).hand stage = none := by
  unfold stopOrContinue
  split <;> rfl

theorem known_stopOrContinue {s : Processing N} {processed expected : Nat}
    (hprocessed : processed ≤ s.ordersProcessed) (hexpected : expected = s.totalExpectedOrders) :
    Known s (stopOrContinue processed expected) := by
  unfold stopOrContinue
  split
  · rename_i hstop
    subst hexpected
    exact Nat.le_trans hstop hprocessed
  · trivial

theorem orderConsumer_consumes {s s' : Processing N} {c : Fin numConsumersForBarrier}
    {refuses processedFirst : Bool} {now : Int}
    (h : s.orderConsumer c refuses processedFirst now = .ok s') : Consumes s c s' := by
  have hnone : ∀ _ : Stage, (none : Option Order) = none := fun _ => rfl
  unfold orderConsumer at h
  cases hloc : s.consumers c with
  | waiting =>
      simp only [hloc] at h
      split at h
      · cases h
        exact .look hloc hnone hnone hnone fun _ => trivial
      · cases h
  | popping =>
      simp only [hloc] at h
      split at h
      · rename_i order queue hpop
        cases h
        exact .take now hloc hpop
      · cases h
        exact .look hloc hnone hnone hnone fun _ => trivial
  | checking =>
      simp only [hloc] at h
      cases h
      cases processedFirst with
      | false => exact .look hloc hnone hnone hnone fun _ => rfl
      | true => exact .look hloc hnone hnone hnone fun _ => Nat.le_refl _
  | loadedProcessed processed =>
      simp only [hloc] at h
      cases h
      exact .look hloc hnone (fun stage => stopOrContinue_hand stage _ _) hnone
        fun hknown => known_stopOrContinue hknown rfl
  | loadedExpected expected =>
      simp only [hloc] at h
      cases h
      exact .look hloc hnone (fun stage => stopOrContinue_hand stage _ _) hnone
        fun hknown => known_stopOrContinue (Nat.le_refl _) hknown
  | acquiring order =>
      simp only [hloc] at h
      split at h
      · cases h
        exact .carry _ hloc (fun _ => rfl) hnone fun _ => trivial
      · cases h
  | processing order procStart =>
      simp only [hloc] at h
      cases h
      exact .carry _ hloc (fun _ => rfl) hnone fun _ => trivial
  | applying order procStart procEnd =>
      simp only [hloc] at h
      cases h
      exact .apply hloc
  | recording order procStart procEnd =>
      simp only [hloc] at h
      cases h
      exact .record _ hloc rfl
  | counting order =>
      simp only [hloc] at h
      cases h
      exact .count hloc
  | left =>
      simp only [hloc] at h
      cases h
      exact .look hloc hnone hnone hnone fun hknown => hknown
  | arrived =>
      simp only [hloc] at h
      split at h
      · cases h
        exact .look hloc hnone hnone hnone fun hknown => hknown
      · cases h
  | finished =>
      simp only [hloc] at h
      cases h

/-- The steps of a producer. -/
inductive Produces (numOrders : Nat) (s : Processing N) (p : Fin N) : Processing N → Prop
  | make {i : Nat} (now : Int) (h : s.producers p = .looping i) (hi : i < numOrders) :
      Produces numOrders s p (s.setProducer p (.pushing i (producedOrder p i now)))
  | push {i : Nat} {order : Order} {queue : BoundedFifo Order orderQueueCapacity}
      (h : s.producers p = .pushing i order) (items : queue.items = s.orderQueue.items ++ [order]) :
      Produces numOrders s p ({ s with orderQueue := queue }.setProducer p (.looping (i + 1)))
  | retry : Produces numOrders s p s

theorem orderProducer_produces {s s' : Processing N} {p : Fin N} {refuses : Bool} {now : Int}
    (h : s.orderProducer K p refuses now = .ok s') : Produces K s p s' := by
  unfold orderProducer at h
  cases hloc : s.producers p with
  | looping i =>
      simp only [hloc] at h
      split at h
      · rename_i hi
        cases h
        exact .make now hloc hi
      · cases h
  | pushing i order =>
      simp only [hloc] at h
      split at h
      · rename_i hpush
        cases h
        rcases Nat.lt_or_eq_of_le s.orderQueue.bounded with hlt | hfull
        · exact .push hloc (s.orderQueue.push_room order hlt).2
        · rw [s.orderQueue.push_full order hfull] at hpush
          cases hpush.2
      · cases h
        exact .retry

/-! ### What a step moves -/

section Moves

variable {M : Type} [AddCancelCommMonoid M] {s s' : Processing N} {μ : Order → M}

theorem inHand_take {consumers : Fin numConsumersForBarrier → Consumer}
    {c : Fin numConsumersForBarrier} {loc : Consumer} {stage : Stage} {order : Order}
    (h : (consumers c).hand stage = none) (h' : loc.hand stage = some order) :
    inHand stage μ (Function.update consumers c loc) = inHand stage μ consumers + μ order := by
  have hgain : inHand stage μ (Function.update consumers c loc) =
      inHand stage μ consumers + weight μ (loc.hand stage) :=
    total_update_gain (congrArg (weight μ) h)
  rw [hgain, h']
  rfl

/-- What was in the consumer's hands and is not passes the stage. -/
theorem inHand_pass {consumers : Fin numConsumersForBarrier → Consumer}
    {c : Fin numConsumersForBarrier} {loc : Consumer} {stage : Stage}
    (h : weight μ ((consumers c).hand stage) =
      weight μ (loc.hand stage) + weight μ ((consumers c).passing stage)) :
    inHand stage μ consumers = inHand stage μ (Function.update consumers c loc) +
      weight μ ((consumers c).passing stage) := by
  have hupdate : inHand stage μ (Function.update consumers c loc) +
      weight μ ((consumers c).hand stage) =
        inHand stage μ consumers + weight μ (loc.hand stage) :=
    total_update (fun _ (loc : Consumer) => weight μ (loc.hand stage)) consumers c loc
  rw [h, add_comm (weight μ (loc.hand stage)), ← add_assoc] at hupdate
  exact (add_right_cancel hupdate).symm

theorem underway_pass {t : Processing N} {c : Fin numConsumersForBarrier} {loc : Consumer}
    {stage : Stage} (hqueue : t.orderQueue = s.orderQueue)
    (hconsumers : t.consumers = Function.update s.consumers c loc)
    (h : weight μ ((s.consumers c).hand stage) =
      weight μ (loc.hand stage) + weight μ ((s.consumers c).passing stage)) :
    underway stage μ s = underway stage μ t + weight μ ((s.consumers c).passing stage) := by
  rw [underway, underway, hqueue, hconsumers, add_assoc, inHand_pass h]

/-- What leaves a consumer's hands at a stage is no longer underway to it. -/
theorem Consumes.underway {c : Fin numConsumersForBarrier} (hμ : Timeless μ)
    (h : Consumes s c s') (stage : Stage) :
    underway stage μ s = Week7.underway stage μ s' +
      weight μ ((s.consumers c).passing stage) := by
  cases h with
  | look hloc hand hand' passing known =>
      refine underway_pass rfl rfl ?_
      rw [hloc, hand, hand', passing]
      exact (add_zero _).symm
  | @take order queue now hloc pop =>
      change (s.orderQueue.items.map μ).sum + inHand stage μ s.consumers =
        (queue.items.map μ).sum + inHand stage μ (Function.update s.consumers c _) + _
      have htake : inHand stage μ (Function.update s.consumers c
            (.acquiring { order with dequeueTime := now })) =
          inHand stage μ s.consumers + μ { order with dequeueTime := now } :=
        inHand_take (by rw [hloc]; rfl) rfl
      have horder : μ { order with dequeueTime := now } = μ order :=
        hμ order order.enqueueTime now
      rw [htake, horder, BoundedFifo.items_of_pop pop, hloc, List.map_cons, List.sum_cons]
      change _ = _ + 0
      abel
  | carry slots hloc hand passing known =>
      refine underway_pass rfl rfl ?_
      rw [hloc, hand, passing]
      exact (add_zero _).symm
  | apply hloc =>
      refine underway_pass rfl rfl ?_
      rw [hloc]
      cases stage <;> simp [Consumer.hand, Consumer.passing, weight]
  | record record hloc id =>
      refine underway_pass rfl rfl ?_
      rw [hloc]
      cases stage <;> simp [Consumer.hand, Consumer.passing, weight]
  | count hloc =>
      refine underway_pass rfl rfl ?_
      rw [hloc]
      cases stage <;> simp [Consumer.hand, Consumer.passing, weight]

theorem Consumes.producers {c : Fin numConsumersForBarrier} (h : Consumes s c s') :
    s'.producers = s.producers := by
  cases h <;> rfl

theorem Consumes.totalExpectedOrders {c : Fin numConsumersForBarrier} (h : Consumes s c s') :
    s'.totalExpectedOrders = s.totalExpectedOrders := by
  cases h <;> rfl

/-- What passes a stage arrives behind it. -/
theorem Consumes.orderBook {c : Fin numConsumersForBarrier} (h : Consumes s c s')
    (symbol : String) : s'.orderBook symbol =
      s.orderBook symbol + weight (side symbol) ((s.consumers c).passing .book) := by
  cases h with
  | look hloc hand hand' passing known =>
      rw [hloc, passing]
      exact (add_zero _).symm
  | take now hloc pop =>
      rw [hloc]
      exact (add_zero _).symm
  | carry slots hloc hand passing known =>
      rw [hloc, passing]
      exact (add_zero _).symm
  | apply hloc =>
      rw [hloc]
      exact applyOrder_apply _ _ _
  | record record hloc id =>
      rw [hloc]
      exact (add_zero _).symm
  | count hloc =>
      rw [hloc]
      exact (add_zero _).symm

theorem Consumes.latencyDataStore {c : Fin numConsumersForBarrier} (h : Consumes s c s') :
    (↑(s'.latencyDataStore.map (·.orderId)) : Multiset Nat) =
      ↑(s.latencyDataStore.map (·.orderId)) +
        weight (fun order => {order.orderId}) ((s.consumers c).passing .latency) := by
  cases h with
  | look hloc hand hand' passing known =>
      rw [hloc, passing]
      exact (add_zero _).symm
  | take now hloc pop =>
      rw [hloc]
      exact (add_zero _).symm
  | carry slots hloc hand passing known =>
      rw [hloc, passing]
      exact (add_zero _).symm
  | apply hloc =>
      rw [hloc]
      exact (add_zero _).symm
  | record record hloc id =>
      rw [hloc]
      change (↑((s.latencyDataStore ++ [record]).map (·.orderId)) : Multiset Nat) = _
      rw [List.map_append, ← Multiset.coe_add, List.map_singleton, id]
      rfl
  | count hloc =>
      rw [hloc]
      exact (add_zero _).symm

theorem Consumes.ordersProcessed {c : Fin numConsumersForBarrier} (h : Consumes s c s') :
    s'.ordersProcessed =
      s.ordersProcessed + weight (fun _ => 1) ((s.consumers c).passing .counter) := by
  cases h with
  | look hloc hand hand' passing known =>
      rw [hloc, passing]
      rfl
  | take now hloc pop =>
      rw [hloc]
      rfl
  | carry slots hloc hand passing known =>
      rw [hloc, passing]
      rfl
  | apply hloc =>
      rw [hloc]
      rfl
  | record record hloc id =>
      rw [hloc]
      rfl
  | count hloc =>
      rw [hloc]
      rfl

end Moves

/-- The consumer's new place, and that it knows what it should there. -/
theorem Consumes.consumers {s s' : Processing N} {c : Fin numConsumersForBarrier}
    (h : Consumes s c s') : ∃ loc, s'.consumers = Function.update s.consumers c loc ∧
      (Known s (s.consumers c) → Known s' loc) := by
  cases h with
  | @look loc loc' hloc hand hand' passing known =>
      refine ⟨loc', rfl, ?_⟩
      rw [hloc]
      intro hknown
      have hloc' := known hknown
      cases loc' <;> exact hloc'
  | take now hloc pop => exact ⟨_, rfl, fun _ => trivial⟩
  | carry slots hloc hand passing known => exact ⟨_, rfl, fun _ => known _⟩
  | apply hloc => exact ⟨_, rfl, fun _ => trivial⟩
  | record record hloc id => exact ⟨_, rfl, fun _ => trivial⟩
  | count hloc => exact ⟨_, rfl, fun _ => trivial⟩

/-- Counters that do not go down keep what a consumer knows. -/
theorem Known.mono {s s' : Processing N} {loc : Consumer} (h : Known s loc)
    (hprocessed : s.ordersProcessed ≤ s'.ordersProcessed)
    (hexpected : s'.totalExpectedOrders = s.totalExpectedOrders) : Known s' loc := by
  have hleft : s.totalExpectedOrders ≤ s.ordersProcessed →
      s'.totalExpectedOrders ≤ s'.ordersProcessed := by omega
  cases loc with
  | loadedProcessed processed => exact Nat.le_trans h hprocessed
  | loadedExpected expected => exact Eq.trans h hexpected.symm
  | left => exact hleft h
  | arrived => exact hleft h
  | finished => exact hleft h
  | waiting => trivial
  | popping => trivial
  | checking => trivial
  | acquiring order => trivial
  | processing order procStart => trivial
  | applying order procStart procEnd => trivial
  | recording order procStart procEnd => trivial
  | counting order => trivial

theorem produced_push {M : Type} [AddCancelCommMonoid M] {s : Processing N} {p : Fin N} {i : Nat}
    (μ : Order → M) (h : (s.producers p).next = i) :
    total (pushed μ) (Function.update s.producers p (.looping (i + 1))) =
      produced μ s + μ (producedOrder p i 0) := by
  have hupdate := total_update (pushed μ) s.producers p (.looping (i + 1))
  have hone : pushed μ p (.looping (i + 1)) =
      pushed μ p (s.producers p) + μ (producedOrder p i 0) := by
    unfold pushed
    rw [h]
    exact Finset.sum_range_succ _ _
  rw [hone, add_left_comm, add_comm (pushed μ p (s.producers p))] at hupdate
  exact add_right_cancel hupdate

theorem produced_same {M : Type} [AddCancelCommMonoid M] {s : Processing N} {p : Fin N}
    {loc : Producer} (μ : Order → M) (h : loc.next = (s.producers p).next) :
    total (pushed μ) (Function.update s.producers p loc) = produced μ s :=
  total_update_same (by unfold pushed; rw [h])

/-! ### Every interleaving -/

/-- What has been pushed is what is underway to a stage and what has passed it. -/
structure Accounts (K : Nat) (s : Processing N) : Prop where
  expected : s.totalExpectedOrders = N * K
  next : ∀ p, (s.producers p).next ≤ K
  made : ∀ p i order, s.producers p = .pushing i order →
    i < K ∧ ∃ now, order = producedOrder p i now
  known : ∀ c, Known s (s.consumers c)
  book : ∀ symbol,
    produced (side symbol) s = underway .book (side symbol) s + s.orderBook symbol
  latency : produced (fun order => ({order.orderId} : Multiset Nat)) s =
    underway .latency (fun order => {order.orderId}) s + ↑(s.latencyDataStore.map (·.orderId))
  counter : produced (fun _ => 1) s = underway .counter (fun _ => 1) s + s.ordersProcessed

theorem Accounts.consume {s s' : Processing N} {c : Fin numConsumersForBarrier}
    (h : Accounts K s) (hstep : Consumes s c s') : Accounts K s' := by
  have hproducers := hstep.producers
  have hsame : ∀ {M : Type} [AddCancelCommMonoid M] (μ : Order → M),
      produced μ s' = produced μ s := fun μ => congrArg (total (pushed μ)) hproducers
  refine ⟨?_, ?_, ?_, ?_, fun symbol => ?_, ?_, ?_⟩
  · rw [hstep.totalExpectedOrders, h.expected]
  · rw [hproducers]
    exact h.next
  · rw [hproducers]
    exact h.made
  · obtain ⟨loc, hconsumers, hknown⟩ := hstep.consumers
    intro other
    rw [hconsumers]
    by_cases hother : other = c
    · rw [hother, Function.update_self]
      exact hknown (h.known c)
    · rw [Function.update_of_ne hother]
      apply (h.known other).mono _ hstep.totalExpectedOrders
      rw [hstep.ordersProcessed]
      exact Nat.le_add_right _ _
  · rw [hsame, h.book, hstep.underway (fun _ _ _ => rfl) .book, hstep.orderBook]
    abel
  · rw [hsame, h.latency, hstep.underway (fun _ _ _ => rfl) .latency, hstep.latencyDataStore]
    abel
  · rw [hsame, h.counter, hstep.underway (fun _ _ _ => rfl) .counter, hstep.ordersProcessed]
    abel

theorem Accounts.next_update {s : Processing N} {p : Fin N} {loc : Producer}
    (h : Accounts K s) (hloc : loc.next ≤ K) (other : Fin N) :
    (Function.update s.producers p loc other).next ≤ K :=
  (Function.forall_update_iff s.producers fun _ loc => loc.next ≤ K).2
    ⟨hloc, fun other _ => h.next other⟩ other

theorem Accounts.made_update {s : Processing N} {p : Fin N} {loc : Producer}
    (h : Accounts K s)
    (hloc : ∀ i order, loc = .pushing i order → i < K ∧ ∃ now, order = producedOrder p i now) :
    ∀ other i order, Function.update s.producers p loc other = .pushing i order →
      i < K ∧ ∃ now, order = producedOrder other i now :=
  (Function.forall_update_iff s.producers fun other loc => ∀ i order, loc = .pushing i order →
    i < K ∧ ∃ now, order = producedOrder other i now).2 ⟨hloc, fun other _ => h.made other⟩

theorem Accounts.produce {s s' : Processing N} {p : Fin N} (h : Accounts K s)
    (hstep : Produces K s p s') : Accounts K s' := by
  cases hstep with
  | @make i now hloc hi =>
      have hsame : ∀ {M : Type} [AddCancelCommMonoid M] (μ : Order → M),
          produced μ (s.setProducer p (.pushing i (producedOrder p i now))) = produced μ s :=
        fun μ => produced_same μ (by rw [hloc]; rfl)
      refine ⟨h.expected, fun other => ?_, fun other j order hj => ?_, h.known, fun symbol => ?_,
        ?_, ?_⟩
      · refine h.next_update ?_ other
        exact Nat.le_of_lt hi
      · refine h.made_update (fun j order hj => ?_) other j order hj
        cases hj
        exact ⟨hi, now, rfl⟩
      · rw [hsame, h.book]
        rfl
      · rw [hsame, h.latency]
        rfl
      · rw [hsame, h.counter]
        rfl
  | @push i order queue hloc items =>
      obtain ⟨hi, now, rfl⟩ := h.made p i order hloc
      have hone : ∀ {M : Type} [AddCancelCommMonoid M] (μ : Order → M),
          produced μ ({ s with orderQueue := queue }.setProducer p (.looping (i + 1))) =
            produced μ s + μ (producedOrder p i 0) :=
        fun μ => produced_push μ (by rw [hloc]; rfl)
      have hqueue : ∀ {M : Type} [AddCancelCommMonoid M] (stage : Stage) (μ : Order → M),
          Timeless μ →
          underway stage μ ({ s with orderQueue := queue }.setProducer p (.looping (i + 1))) =
            underway stage μ s + μ (producedOrder p i 0) := by
        intro M _ stage μ hμ
        change (queue.items.map μ).sum + inHand stage μ s.consumers = _
        have horder : μ (producedOrder p i now) = μ (producedOrder p i 0) :=
          hμ (producedOrder p i 0) now 0
        rw [items, List.map_append, List.sum_append, List.map_singleton, List.sum_singleton,
          horder, underway]
        abel
      refine ⟨h.expected, fun other => ?_, fun other j order hj => ?_, h.known, fun symbol => ?_,
        ?_, ?_⟩
      · refine h.next_update ?_ other
        exact hi
      · refine h.made_update (fun j order hj => ?_) other j order hj
        cases hj
      · rw [hone, hqueue .book _ (fun _ _ _ => rfl), h.book]
        exact add_right_comm _ _ _
      · rw [hone, hqueue .latency _ (fun _ _ _ => rfl), h.latency]
        exact add_right_comm _ _ _
      · rw [hone, hqueue .counter _ (fun _ _ _ => rfl), h.counter]
        exact add_right_comm _ _ _
  | retry => exact h

theorem Accounts.step {s s' : Processing N} {turn : Turn N} (h : Accounts K s)
    (hstep : s.step K turn = .ok s') : Accounts K s' := by
  cases turn with
  | countDown =>
      cases hstep
      refine ⟨h.expected, h.next, h.made, fun c => ?_, h.book, h.latency, h.counter⟩
      exact (h.known c).mono (Nat.le_refl _) rfl
  | producer p refuses now => exact h.produce (orderProducer_produces hstep)
  | consumer c refuses processedFirst now => exact h.consume (orderConsumer_consumes hstep)

/-- At the start nothing has been pushed and nothing is underway. -/
theorem start_empty {M : Type} [AddCancelCommMonoid M] (μ : Order → M) (stage : Stage) :
    produced μ (start N K) = 0 ∧ underway stage μ (start N K) = 0 := by
  constructor
  · exact total_zero fun _ => rfl
  · have hzero : inHand stage μ (start N K).consumers = 0 := total_zero fun _ => rfl
    rw [underway, hzero]
    exact add_zero 0

theorem start_accounts : Accounts K (start N K) where
  expected := rfl
  next _ := Nat.zero_le _
  made _ _ _ h := by cases h
  known _ := trivial
  book symbol := by
    obtain ⟨hproduced, hunderway⟩ := start_empty (N := N) (K := K) (side symbol) .book
    rw [hproduced, hunderway]
    rfl
  latency := by
    obtain ⟨hproduced, hunderway⟩ := start_empty (N := N) (K := K)
      (fun order => ({order.orderId} : Multiset Nat)) .latency
    rw [hproduced, hunderway]
    rfl
  counter := by
    obtain ⟨hproduced, hunderway⟩ := start_empty (N := N) (K := K) (fun _ => 1) .counter
    rw [hproduced, hunderway]
    rfl

/-- Once every order is counted, every order has been pushed and none is underway. -/
theorem Accounts.settled {s : Processing N} (h : Accounts K s)
    (hcounted : s.totalExpectedOrders ≤ s.ordersProcessed) :
    s.ordersProcessed = N * K ∧ (∀ p, (s.producers p).next = K) ∧ s.orderQueue.items = [] ∧
      ∀ c, (s.consumers c).hand .counter = none := by
  have hproduced : produced (fun _ => 1) s = ∑ p, (s.producers p).next := by
    unfold produced total
    exact Finset.sum_congr rfl fun p _ => by simp [pushed]
  have hall : ∑ _p : Fin N, K = N * K := by simp
  have hbound : ∑ p, (s.producers p).next ≤ ∑ _p : Fin N, K :=
    Finset.sum_le_sum fun p _ => h.next p
  have hcounter := h.counter
  rw [h.expected] at hcounted
  unfold underway at hcounter
  have hqueue : (s.orderQueue.items.map fun _ => 1).sum = 0 := by omega
  have hhands : inHand .counter (fun _ => 1) s.consumers = 0 := by omega
  refine ⟨by omega, fun p => ?_, ?_, fun c => ?_⟩
  · have hsum : ∑ p, (s.producers p).next = ∑ _p : Fin N, K := by omega
    exact (Finset.sum_eq_sum_iff_of_le fun p _ => h.next p).mp hsum p (Finset.mem_univ p)
  · simpa using hqueue
  · unfold inHand total at hhands
    have hzero : weight (fun _ => 1) ((s.consumers c).hand .counter) = 0 :=
      Finset.sum_eq_zero_iff.mp hhands c (Finset.mem_univ c)
    cases hhand : (s.consumers c).hand .counter with
    | none => rfl
    | some order =>
        rw [hhand] at hzero
        cases hzero

/-- An order that is in hand before an earlier stage is in hand before the counter. -/
theorem hand_of_counter {loc : Consumer} (h : loc.hand .counter = none) (stage : Stage) :
    loc.hand stage = none := by
  cases loc <;> first | rfl | cases h

/-- What has passed a stage is everything, when nothing is underway. -/
theorem produced_all {M : Type} [AddCancelCommMonoid M] {s : Processing N} (μ : Order → M)
    (stage : Stage) (hnext : ∀ p, (s.producers p).next = K) (hqueue : s.orderQueue.items = [])
    (hhands : ∀ c, (s.consumers c).hand stage = none) :
    produced μ s = ∑ p : Fin N, ∑ i ∈ Finset.range K, μ (producedOrder p i 0) ∧
      underway stage μ s = 0 := by
  constructor
  · unfold produced total pushed
    simp only [hnext]
  · have hzero : inHand stage μ s.consumers = 0 :=
      total_zero fun c => congrArg (weight μ) (hhands c)
    rw [underway, hqueue, hzero]
    exact add_zero 0

/-- When a consumer has left its loop, the producers have finished and no order is
underway. -/
theorem Accounts.finished {s : Processing N} (h : Accounts K s) {c : Fin numConsumersForBarrier}
    (hleft : (s.consumers c).outside = true) :
    s.ordersProcessed = N * K ∧ (∀ p, s.producers p = .looping K) ∧ s.orderQueue.items = [] ∧
      ∀ stage c, (s.consumers c).hand stage = none := by
  have hcounted : s.totalExpectedOrders ≤ s.ordersProcessed := by
    have hknown := h.known c
    cases hloc : s.consumers c <;> rw [hloc] at hleft hknown <;>
      first | exact hknown | cases hleft
  obtain ⟨hall, hnext, hqueue, hcounter⟩ := h.settled hcounted
  refine ⟨hall, fun p => ?_, hqueue, fun stage c => hand_of_counter (hcounter c) stage⟩
  have hi := hnext p
  cases hloc : s.producers p with
  | looping i =>
      rw [hloc] at hi
      exact congrArg _ hi
  | pushing i order =>
      rw [hloc] at hi
      exact absurd hi (Nat.ne_of_lt (h.made p i order hloc).1)

/-- The latency store at the end. -/
theorem Accounts.finished_latency {s : Processing N} (h : Accounts K s)
    {c : Fin numConsumersForBarrier} (hleft : (s.consumers c).outside = true) :
    (↑(s.latencyDataStore.map (·.orderId)) : Multiset Nat) =
      ∑ p : Fin N, ∑ i ∈ Finset.range K, {(producedOrder p i 0).orderId} := by
  obtain ⟨-, hproducers, hqueue, hhands⟩ := h.finished hleft
  have hlatency := h.latency
  obtain ⟨hproduced, hunderway⟩ :=
    produced_all (fun order => ({order.orderId} : Multiset Nat)) .latency
      (fun p => by rw [hproducers p]) hqueue (hhands .latency)
  rw [hproduced, hunderway, zero_add] at hlatency
  exact hlatency.symm

/-- In every state of every run in which a consumer has left its loop: the producers have
finished, the queue is empty, the book holds the sums of all produced orders, one latency
record is stored for each of them, and all are counted. -/
theorem all_orders_processed (turns : List (Turn N)) {s : Processing N}
    (hrun : Run.run (Processing.step K) turns (start N K) = .ok s)
    {c : Fin numConsumersForBarrier} (hleft : (s.consumers c).outside = true) :
    (∀ p, s.producers p = .looping K) ∧ s.orderQueue.items = [] ∧
      (∀ symbol, s.orderBook symbol =
        ∑ p : Fin N, ∑ i ∈ Finset.range K, side symbol (producedOrder p i 0)) ∧
      (↑(s.latencyDataStore.map (·.orderId)) : Multiset Nat) =
        ∑ p : Fin N, ∑ i ∈ Finset.range K, {(producedOrder p i 0).orderId} ∧
      s.ordersProcessed = s.totalExpectedOrders ∧ s.totalExpectedOrders = N * K := by
  have h : Accounts K s :=
    Run.run_invariant (fun _ _ _ hs hstep => hs.step hstep) start_accounts hrun
  obtain ⟨hall, hproducers, hqueue, hhands⟩ := h.finished hleft
  refine ⟨hproducers, hqueue, fun symbol => ?_, h.finished_latency hleft,
    by rw [hall, h.expected], h.expected⟩
  have hbook := h.book symbol
  obtain ⟨hproduced, hunderway⟩ :=
    produced_all (side symbol) .book (fun p => by rw [hproducers p]) hqueue (hhands .book)
  rw [hproduced, hunderway, zero_add] at hbook
  exact hbook.symm

/-- One producer with one order, and the consumer that processes it and leaves. -/
def oneOrder : List (Turn 1) :=
  [.producer 0 false 1, .producer 0 true 2, .producer 0 false 3, .countDown] ++
    List.replicate 7 (.consumer 0 false true 5) ++
    [.consumer 0 true true 6, .consumer 0 false true 6, .consumer 0 false true 6]

theorem all_orders_processed_sample :
    ∃ s : Processing 1, Run.run (Processing.step 1) oneOrder (start 1 1) = .ok s ∧
      s.latencyDataStore = [⟨0, 4, 0⟩] ∧ s.ordersProcessed = s.totalExpectedOrders :=
  ⟨_, rfl, rfl, (all_orders_processed (K := 1) oneOrder rfl (c := 0) rfl).2.2.2.2.1⟩

end HftProject.Week7
