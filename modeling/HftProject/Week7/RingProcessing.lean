import HftProject.Week7.OrderConservation
import HftProject.Week7.QueueLinearizable

/-!
`OrderProcessing` on the ring itself: the producers and consumers walk through `push` and `pop` one
access at a time, between the accesses of the others. What they do is what they do with the atomic
queue (`Linked`), except that the clock is read only once `pop` is back. So nothing is lost or
processed twice here either (`ring_orders_processed`).
-/

namespace HftProject.Week7

open Processing

variable {N K : Nat}

instance : NeZero orderQueueCapacity := ⟨by decide⟩

/-- A thread that uses the queue. -/
abbrev Worker (N : Nat) := Fin N ⊕ Fin numConsumersForBarrier

/-- The ring with the calls that are in it, and everything else. The queue of `globals` is not
used. -/
structure RingProcessing (N : Nat) where
  ring : System (Worker N) Order orderQueueCapacity
  globals : Processing N

/-- A step of a thread at the time `now`. An exchange may fail `spuriously`. -/
inductive RingTurn (N : Nat) where
  | countDown
  | producer (p : Fin N) (spuriously : Bool) (now : Int)
  | consumer (c : Fin numConsumersForBarrier) (spuriously processedFirst : Bool) (now : Int)
deriving DecidableEq, Repr

namespace RingProcessing

/-- `reset_all` has reset the queue, whatever is in its cells. -/
def start (q : ConcurrentQueue Order orderQueueCapacity) (N ordersPerProducer : Nat) :
    RingProcessing N where
  ring := ⟨q.reset, fun _ => .idle, []⟩
  globals := .start N ordersPerProducer

/-- A step away from the queue. -/
def apart (numOrders : Nat) (turn : Turn N) (s : RingProcessing N) :
    Except Fault (RingProcessing N) := do
  let globals ← s.globals.step numOrders turn
  return { s with globals := globals }

/-- A step of a call. -/
def access (action : Action (Worker N) Order) (s : RingProcessing N) :
    Except Fault (RingProcessing N) := do
  let ring ← s.ring.step .unbounded action
  return { s with ring := ring }

/-- The `i`-th `push` is back when it has returned true. -/
def pushBack (p : Fin N) (i : Nat) (loc : Local Order) (globals : Processing N) : Processing N :=
  match loc with
  | .pushed true => globals.setProducer p (.looping (i + 1))
  | _ => globals

/-- What the consumer does with what `pop` returns at the time `now`. -/
def popBack (c : Fin numConsumersForBarrier) (now : Int) (loc : Local Order)
    (globals : Processing N) : Processing N :=
  match loc with
  | .popped (some order) =>
      globals.setConsumer c (.acquiring { order with dequeueTime := now })
  | .popped none => globals.setConsumer c .checking
  | _ => globals

def orderProducer (numOrders : Nat) (p : Fin N) (spuriously : Bool) (now : Int)
    (s : RingProcessing N) : Except Fault (RingProcessing N) :=
  match s.globals.producers p with
  | .looping _ => s.apart numOrders (.producer p false now)
  | .pushing i order =>
      if (s.ring.threads (.inl p)).ready then s.access (.push (.inl p) order)
      else do
        let s ← s.access (.advance (.inl p) spuriously)
        return { s with globals := pushBack p i (s.ring.threads (.inl p)) s.globals }

def orderConsumer (numOrders : Nat) (c : Fin numConsumersForBarrier)
    (spuriously processedFirst : Bool) (now : Int) (s : RingProcessing N) :
    Except Fault (RingProcessing N) :=
  match s.globals.consumers c with
  | .popping =>
      if (s.ring.threads (.inr c)).ready then s.access (.pop (.inr c))
      else do
        let s ← s.access (.advance (.inr c) spuriously)
        return { s with globals := popBack c now (s.ring.threads (.inr c)) s.globals }
  | _ => s.apart numOrders (.consumer c false processedFirst now)

def step (ordersPerProducer : Nat) (turn : RingTurn N) (s : RingProcessing N) :
    Except Fault (RingProcessing N) :=
  match turn with
  | .countDown => s.apart ordersPerProducer .countDown
  | .producer p spuriously now => s.orderProducer ordersPerProducer p spuriously now
  | .consumer c spuriously processedFirst now =>
      s.orderConsumer ordersPerProducer c spuriously processedFirst now

end RingProcessing

/-! ### The atomic queue in its place -/

/-- The ring as the threads see it. -/
abbrev OrderQueueObject (N : Nat) :=
  Atomic.Object (Worker N) (QueueOp Order) (QueueAnswer Order) (BoundedFifo Order orderQueueCapacity)

/-- A producer here, its call, and the producer over the atomic queue. -/
inductive ProducerLink : Producer → Atomic.Phase (QueueOp Order) (QueueAnswer Order) →
    Producer → Prop
  | looping (i : Nat) : ProducerLink (.looping i) .idle (.looping i)
  | ready (i : Nat) (order : Order) : ProducerLink (.pushing i order) .idle (.pushing i order)
  | called (i : Nat) (order : Order) :
      ProducerLink (.pushing i order) (.called (.push order)) (.pushing i order)
  | refused (i : Nat) (order : Order) :
      ProducerLink (.pushing i order) (.effected (.push order) (.pushed false)) (.pushing i order)
  /-- The order is in the queue and `push` is not back. -/
  | accepted (i : Nat) (order : Order) :
      ProducerLink (.pushing i order) (.effected (.push order) (.pushed true)) (.looping (i + 1))

/-- The order before the clock is read. -/
def Order.untimed (order : Order) : Order := { order with dequeueTime := 0 }

def Consumer.untimed : Consumer → Consumer
  | .acquiring order => .acquiring order.untimed
  | .processing order procStart => .processing order.untimed procStart
  | .applying order procStart procEnd => .applying order.untimed procStart procEnd
  | .recording order procStart procEnd => .recording order.untimed procStart procEnd
  | .counting order => .counting order.untimed
  | loc => loc

/-- A consumer here, its call, and the consumer over the atomic queue. -/
inductive ConsumerLink : Consumer → Atomic.Phase (QueueOp Order) (QueueAnswer Order) →
    Consumer → Prop
  | idle (loc : Consumer) : ConsumerLink loc .idle loc.untimed
  | called : ConsumerLink .popping (.called .pop) .popping
  | failed : ConsumerLink .popping (.effected .pop (.popped none)) .popping
  /-- The order is out of the queue and `pop` is not back. -/
  | taken (order : Order) :
      ConsumerLink .popping (.effected .pop (.popped (some order))) (.acquiring order.untimed)

/-- What a latency record says of the order and its processing. -/
def LatencyRecord.processed (record : LatencyRecord) : Nat × Int :=
  (record.orderId, record.processingDuration)

/-- `s` is what the threads have come to over the atomic queue. -/
structure Linked (o : OrderQueueObject N) (g s : Processing N) : Prop where
  orderQueue : s.orderQueue = o.state
  orderBook : s.orderBook = g.orderBook
  ordersProcessed : s.ordersProcessed = g.ordersProcessed
  totalExpectedOrders : s.totalExpectedOrders = g.totalExpectedOrders
  processingSemaphore : s.processingSemaphore = g.processingSemaphore
  latchOpen : s.latchOpen = g.latchOpen
  latencyDataStore : s.latencyDataStore.map LatencyRecord.processed =
    g.latencyDataStore.map LatencyRecord.processed
  producers : ∀ p, ProducerLink (g.producers p) (o.phases (.inl p)) (s.producers p)
  consumers : ∀ c, ConsumerLink (g.consumers c) (o.phases (.inr c)) (s.consumers c)

theorem setProducer_self (s : Processing N) (p : Fin N) :
    s.setProducer p (s.producers p) = s := by
  rw [Processing.setProducer, Function.update_eq_self]

theorem setConsumer_self (s : Processing N) (c : Fin numConsumersForBarrier) :
    s.setConsumer c (s.consumers c) = s := by
  rw [Processing.setConsumer, Function.update_eq_self]

section Links

variable {o o' : OrderQueueObject N} {g s : Processing N}

theorem Linked.setProducer (h : Linked o g s) (f : BoundedFifo Order orderQueueCapacity)
    (p : Fin N) (phase : Atomic.Phase (QueueOp Order) (QueueAnswer Order)) (loc loc' : Producer)
    (hlink : ProducerLink loc phase loc') :
    Linked ({ o with state := f }.setPhase (.inl p) phase) (g.setProducer p loc)
      ({ s with orderQueue := f }.setProducer p loc') where
  orderQueue := rfl
  orderBook := h.orderBook
  ordersProcessed := h.ordersProcessed
  totalExpectedOrders := h.totalExpectedOrders
  processingSemaphore := h.processingSemaphore
  latchOpen := h.latchOpen
  latencyDataStore := h.latencyDataStore
  producers p' := by
    change ProducerLink (Function.update g.producers p loc p')
      (Function.update o.phases (.inl p) phase (.inl p')) (Function.update s.producers p loc' p')
    by_cases hp : p' = p
    · rw [hp, Function.update_self, Function.update_self, Function.update_self]
      exact hlink
    · have hworker : (Sum.inl p' : Worker N) ≠ .inl p := fun heq => hp (Sum.inl.inj heq)
      rw [Function.update_of_ne hp, Function.update_of_ne hp, Function.update_of_ne hworker]
      exact h.producers p'
  consumers c := by
    change ConsumerLink (g.consumers c) (Function.update o.phases (.inl p) phase (.inr c))
      (s.consumers c)
    rw [Function.update_of_ne Sum.inr_ne_inl]
    exact h.consumers c

theorem Linked.setConsumer (h : Linked o g s) (f : BoundedFifo Order orderQueueCapacity)
    (c : Fin numConsumersForBarrier) (phase : Atomic.Phase (QueueOp Order) (QueueAnswer Order))
    (loc loc' : Consumer) (hlink : ConsumerLink loc phase loc') :
    Linked ({ o with state := f }.setPhase (.inr c) phase) (g.setConsumer c loc)
      ({ s with orderQueue := f }.setConsumer c loc') where
  orderQueue := rfl
  orderBook := h.orderBook
  ordersProcessed := h.ordersProcessed
  totalExpectedOrders := h.totalExpectedOrders
  processingSemaphore := h.processingSemaphore
  latchOpen := h.latchOpen
  latencyDataStore := h.latencyDataStore
  producers p := by
    change ProducerLink (g.producers p) (Function.update o.phases (.inr c) phase (.inl p))
      (s.producers p)
    rw [Function.update_of_ne Sum.inl_ne_inr]
    exact h.producers p
  consumers c' := by
    change ConsumerLink (Function.update g.consumers c loc c')
      (Function.update o.phases (.inr c) phase (.inr c')) (Function.update s.consumers c loc' c')
    by_cases hc : c' = c
    · rw [hc, Function.update_self, Function.update_self, Function.update_self]
      exact hlink
    · have hworker : (Sum.inr c' : Worker N) ≠ .inr c := fun heq => hc (Sum.inr.inj heq)
      rw [Function.update_of_ne hc, Function.update_of_ne hc, Function.update_of_ne hworker]
      exact h.consumers c'

/-- The call of a producer moves on. -/
theorem Linked.producer_phase (h : Linked o g s) (f : BoundedFifo Order orderQueueCapacity)
    (p : Fin N) (phase : Atomic.Phase (QueueOp Order) (QueueAnswer Order)) (loc' : Producer)
    (hlink : ProducerLink (g.producers p) phase loc') :
    Linked ({ o with state := f }.setPhase (.inl p) phase) g
      ({ s with orderQueue := f }.setProducer p loc') := by
  have hset := h.setProducer f p phase (g.producers p) loc' hlink
  rwa [setProducer_self] at hset

/-- The call of a consumer moves on. -/
theorem Linked.consumer_phase (h : Linked o g s) (f : BoundedFifo Order orderQueueCapacity)
    (c : Fin numConsumersForBarrier) (phase : Atomic.Phase (QueueOp Order) (QueueAnswer Order))
    (loc' : Consumer) (hlink : ConsumerLink (g.consumers c) phase loc') :
    Linked ({ o with state := f }.setPhase (.inr c) phase) g
      ({ s with orderQueue := f }.setConsumer c loc') := by
  have hset := h.setConsumer f c phase (g.consumers c) loc' hlink
  rwa [setConsumer_self] at hset

theorem Linked.producer_both (h : Linked o g s) (p : Fin N)
    {phase : Atomic.Phase (QueueOp Order) (QueueAnswer Order)} {loc loc' : Producer}
    (hlink : ProducerLink loc phase loc') :
    Linked (o.setPhase (.inl p) phase) (g.setProducer p loc) (s.setProducer p loc') := by
  have hset := h.setProducer s.orderQueue p phase loc loc' hlink
  have hsame : { o with state := s.orderQueue } = o := by rw [h.orderQueue]
  rwa [hsame] at hset

theorem Linked.consumer_both (h : Linked o g s) (c : Fin numConsumersForBarrier)
    {phase : Atomic.Phase (QueueOp Order) (QueueAnswer Order)} {loc loc' : Consumer}
    (hlink : ConsumerLink loc phase loc') :
    Linked (o.setPhase (.inr c) phase) (g.setConsumer c loc) (s.setConsumer c loc') := by
  have hset := h.setConsumer s.orderQueue c phase loc loc' hlink
  have hsame : { o with state := s.orderQueue } = o := by rw [h.orderQueue]
  rwa [hsame] at hset

/-- A producer moves on that has moved on over the atomic queue. -/
theorem Linked.producer_catches_up (h : Linked o g s) {p : Fin N}
    {phase : Atomic.Phase (QueueOp Order) (QueueAnswer Order)} {loc : Producer}
    (hlink : ProducerLink loc phase (s.producers p)) :
    Linked (o.setPhase (.inl p) phase) (g.setProducer p loc) s := by
  have hboth := h.producer_both p hlink
  rwa [setProducer_self] at hboth

/-- A consumer moves on that has moved on over the atomic queue. -/
theorem Linked.consumer_catches_up (h : Linked o g s) {c : Fin numConsumersForBarrier}
    {phase : Atomic.Phase (QueueOp Order) (QueueAnswer Order)} {loc : Consumer}
    (hlink : ConsumerLink loc phase (s.consumers c)) :
    Linked (o.setPhase (.inr c) phase) (g.setConsumer c loc) s := by
  have hboth := h.consumer_both c hlink
  rwa [setConsumer_self] at hboth

/-- The call of a producer moves on, and nothing else. -/
theorem Linked.producer_call (h : Linked o g s) {p : Fin N}
    {phase : Atomic.Phase (QueueOp Order) (QueueAnswer Order)}
    (hlink : ProducerLink (g.producers p) phase (s.producers p)) :
    Linked (o.setPhase (.inl p) phase) g s := by
  have hset := h.producer_catches_up hlink
  rwa [setProducer_self] at hset

/-- The call of a consumer moves on, and nothing else. -/
theorem Linked.consumer_call (h : Linked o g s) {c : Fin numConsumersForBarrier}
    {phase : Atomic.Phase (QueueOp Order) (QueueAnswer Order)}
    (hlink : ConsumerLink (g.consumers c) phase (s.consumers c)) :
    Linked (o.setPhase (.inr c) phase) g s := by
  have hset := h.consumer_catches_up hlink
  rwa [setConsumer_self] at hset

/-- A consumer in no call moves on, here and over the atomic queue. -/
theorem Linked.consumer_moves (h : Linked o g s) {c : Fin numConsumersForBarrier}
    (hidle : o.phases (.inr c) = .idle) (loc : Consumer) :
    Linked o (g.setConsumer c loc) (s.setConsumer c loc.untimed) := by
  have hboth := h.consumer_both c (.idle loc)
  rwa [Atomic.Object.setPhase, ← hidle, Function.update_eq_self] at hboth

theorem Linked.latency_ids (h : Linked o g s) :
    g.latencyDataStore.map (·.orderId) = s.latencyDataStore.map (·.orderId) := by
  have hids := congrArg (List.map Prod.fst) h.latencyDataStore.symm
  rwa [List.map_map, List.map_map] at hids

/-! ### Steps of the call -/

theorem push_step {p : Fin N} {i : Nat} {order : Order}
    {f : BoundedFifo Order orderQueueCapacity} (hloc : s.producers p = .pushing i order)
    (hpush : s.orderQueue.push order = (true, f)) :
    s.step K (.producer p false 0) =
      .ok ({ s with orderQueue := f }.setProducer p (.looping (i + 1))) := by
  simp [Processing.step, Processing.orderProducer, hloc, hpush]

theorem pop_step {c : Fin numConsumersForBarrier} {order : Order}
    {f : BoundedFifo Order orderQueueCapacity} (hloc : s.consumers c = .popping)
    (hpop : s.orderQueue.pop = (some order, f)) :
    s.step K (.consumer c false true 0) =
      .ok ({ s with orderQueue := f }.setConsumer c (.acquiring order.untimed)) := by
  simp [Processing.step, Processing.orderConsumer, hloc, hpop, Order.untimed]

theorem refused_step {c : Fin numConsumersForBarrier} (hloc : s.consumers c = .popping) :
    s.step K (.consumer c true true 0) = .ok (s.setConsumer c .checking) := by
  simp [Processing.step, Processing.orderConsumer, hloc]

/-- The call takes effect. -/
theorem Linked.effect (h : Linked o g s)
    (hstep : Atomic.Step (QueueEffect orderQueueCapacity) o none o') :
    ∃ s', Run.Reaches (Processing.step K) s s' ∧ Linked o' g s' := by
  cases hstep with
  | @effect thread op ret f hphase heffect =>
    cases thread with
    | inl p =>
        have hlink := h.producers p
        rw [hphase] at hlink
        generalize hg : g.producers p = loc, hs : s.producers p = loc' at hlink
        cases hlink with
        | called i order =>
          cases heffect with
          | enqueue hpush =>
              have hlinked := h.producer_phase f p (.effected (.push order) (.pushed true))
                (.looping (i + 1)) (hg ▸ .accepted i order)
              exact ⟨_, .head (push_step hs (h.orderQueue ▸ hpush)) (.refl _), hlinked⟩
          | full hfull =>
              exact ⟨s, .refl s, h.producer_call (by rw [hg, hs]; exact .refused i order)⟩
    | inr c =>
        have hlink := h.consumers c
        rw [hphase] at hlink
        generalize hg : g.consumers c = loc, hs : s.consumers c = loc' at hlink
        cases hlink with
        | called =>
          cases heffect with
          | @dequeue order _ _ _ hpop =>
              have hlinked := h.consumer_phase f c (.effected .pop (.popped (some order)))
                (.acquiring order.untimed) (hg ▸ .taken order)
              exact ⟨_, .head (pop_step hs (h.orderQueue ▸ hpop)) (.refl _), hlinked⟩
          | empty hempty =>
              exact ⟨s, .refl s, h.consumer_call (by rw [hg, hs]; exact .failed)⟩

theorem Linked.push_call (h : Linked o g s) {p : Fin N} {i : Nat} {order : Order}
    (hg : g.producers p = .pushing i order)
    (hstep : Atomic.Step (QueueEffect orderQueueCapacity) o (some (.inl p, .call (.push order)))
      o') : Linked o' g s := by
  cases hstep with
  | call _ hphase =>
    have hlink := h.producers p
    rw [hg, hphase] at hlink
    generalize hs : s.producers p = loc' at hlink
    cases hlink with
    | ready i order => exact h.producer_call (by rw [hg, hs]; exact .called i order)

theorem Linked.pop_call (h : Linked o g s) {c : Fin numConsumersForBarrier}
    (hg : g.consumers c = .popping)
    (hstep : Atomic.Step (QueueEffect orderQueueCapacity) o (some (.inr c, .call .pop)) o') :
    Linked o' g s := by
  cases hstep with
  | call _ hphase =>
    have hlink := h.consumers c
    rw [hg, hphase] at hlink
    generalize hs : s.consumers c = loc' at hlink
    cases hlink with
    | idle => exact h.consumer_call (by rw [hg, hs]; exact .called)

/-- The call is back. -/
theorem Linked.push_back (h : Linked o g s) {p : Fin N} {i : Nat} {order : Order}
    (hg : g.producers p = .pushing i order) {loc : Local Order} {answer : QueueAnswer Order}
    (hanswer : loc.answer = some answer)
    (hstep : Atomic.Step (QueueEffect orderQueueCapacity) o (some (.inl p, .ret answer)) o') :
    Linked o' (RingProcessing.pushBack p i loc g) s := by
  cases hstep with
  | ret hphase =>
    have hlink := h.producers p
    rw [hg, hphase] at hlink
    generalize hs : s.producers p = loc' at hlink
    cases hlink with
    | refused i order =>
        obtain rfl : loc = .pushed false := by cases loc <;> simp_all [Local.answer]
        exact h.producer_call (by rw [hg, hs]; exact .ready i order)
    | accepted i order =>
        obtain rfl : loc = .pushed true := by cases loc <;> simp_all [Local.answer]
        exact h.producer_catches_up (by rw [hs]; exact .looping (i + 1))

theorem Linked.pop_back (h : Linked o g s) {c : Fin numConsumersForBarrier}
    (hg : g.consumers c = .popping) (now : Int) {loc : Local Order} {answer : QueueAnswer Order}
    (hanswer : loc.answer = some answer)
    (hstep : Atomic.Step (QueueEffect orderQueueCapacity) o (some (.inr c, .ret answer)) o') :
    ∃ s', Run.Reaches (Processing.step K) s s' ∧
      Linked o' (RingProcessing.popBack c now loc g) s' := by
  cases hstep with
  | ret hphase =>
    have hlink := h.consumers c
    rw [hg, hphase] at hlink
    generalize hs : s.consumers c = loc' at hlink
    cases hlink with
    | failed =>
        obtain rfl : loc = .popped none := by cases loc <;> simp_all [Local.answer]
        exact ⟨_, .head (refused_step hs) (.refl _), h.consumer_both c (.idle .checking)⟩
    | taken order =>
        obtain rfl : loc = .popped (some order) := by cases loc <;> simp_all [Local.answer]
        exact ⟨s, .refl s, h.consumer_catches_up (by rw [hs]; exact .idle (.acquiring _))⟩

/-! ### Steps away from the queue -/

theorem Linked.make (h : Linked o g s) {p : Fin N} {i : Nat} {now : Int} {g' : Processing N}
    (hg : g.producers p = .looping i)
    (hstep : g.step K (.producer p false now) = .ok g') :
    ∃ s', Run.Reaches (Processing.step K) s s' ∧ Linked o g' s' := by
  have hlink := h.producers p
  rw [hg] at hlink
  generalize hs : s.producers p = loc', hphase : o.phases (.inl p) = phase at hlink
  cases hlink with
  | looping i =>
    rw [Processing.step, Processing.orderProducer, hg] at hstep
    simp only at hstep
    split at hstep
    · rename_i hi
      cases hstep
      have hmake : s.step K (.producer p false now) =
          .ok (s.setProducer p (.pushing i (producedOrder p i now))) := by
        simp [Processing.step, Processing.orderProducer, hs, hi]
      have hboth := h.producer_both p (.ready i (producedOrder p i now))
      rw [Atomic.Object.setPhase, ← hphase, Function.update_eq_self] at hboth
      exact ⟨_, .head hmake (.refl _), hboth⟩
    · cases hstep

/-- A consumer that is not at `pop` is in no call. -/
theorem Linked.consumer_idle (h : Linked o g s) {c : Fin numConsumersForBarrier}
    (hg : g.consumers c ≠ .popping) :
    o.phases (.inr c) = .idle ∧ s.consumers c = (g.consumers c).untimed := by
  have hlink := h.consumers c
  generalize g.consumers c = loc at hg hlink
  generalize o.phases (.inr c) = phase at hlink
  generalize s.consumers c = loc' at hlink
  cases hlink with
  | idle loc => exact ⟨rfl, rfl⟩
  | called => exact absurd rfl hg
  | failed => exact absurd rfl hg
  | taken order => exact absurd rfl hg

/-- The consumer is behind the barrier here as over the atomic queue. -/
theorem Linked.arrived (h : Linked o g s) {c : Fin numConsumersForBarrier}
    (harrived : g.consumers c = .arrived ∨ g.consumers c = .finished) :
    s.consumers c = .arrived ∨ s.consumers c = .finished := by
  have hne : g.consumers c ≠ .popping := by
    rintro hpopping
    rw [hpopping] at harrived
    rcases harrived with hloc | hloc <;> cases hloc
  rw [(h.consumer_idle hne).2]
  rcases harrived with hloc | hloc
  · exact .inl (by rw [hloc]; rfl)
  · exact .inr (by rw [hloc]; rfl)

theorem untimed_stopOrContinue (processed expected : Nat) :
    (stopOrContinue processed expected).untimed = stopOrContinue processed expected := by
  unfold stopOrContinue
  split <;> rfl

theorem Linked.consume (h : Linked o g s) {c : Fin numConsumersForBarrier} {processedFirst : Bool}
    {now : Int} {g' : Processing N} (hg : g.consumers c ≠ .popping)
    (hstep : g.orderConsumer c false processedFirst now = .ok g') :
    ∃ s', s.orderConsumer c false processedFirst now = .ok s' ∧ Linked o g' s' := by
  obtain ⟨hidle, hs⟩ := h.consumer_idle hg
  unfold Processing.orderConsumer at hstep ⊢
  rw [hs]
  cases hloc : g.consumers c with
  | popping => exact absurd hloc hg
  | waiting =>
      simp only [hloc] at hstep
      split at hstep
      · rename_i hopen
        cases hstep
        exact ⟨_, if_pos (h.latchOpen ▸ hopen), h.consumer_moves hidle .popping⟩
      · cases hstep
  | checking =>
      simp only [hloc] at hstep
      cases hstep
      refine ⟨_, rfl, ?_⟩
      rw [h.ordersProcessed, h.totalExpectedOrders]
      cases processedFirst with
      | false => exact h.consumer_moves hidle (.loadedExpected _)
      | true => exact h.consumer_moves hidle (.loadedProcessed _)
  | loadedProcessed processed =>
      simp only [hloc] at hstep
      cases hstep
      have hmoves := h.consumer_moves hidle (stopOrContinue processed g.totalExpectedOrders)
      rw [untimed_stopOrContinue, ← h.totalExpectedOrders] at hmoves
      exact ⟨_, rfl, h.totalExpectedOrders ▸ hmoves⟩
  | loadedExpected expected =>
      simp only [hloc] at hstep
      cases hstep
      have hmoves := h.consumer_moves hidle (stopOrContinue g.ordersProcessed expected)
      rw [untimed_stopOrContinue, ← h.ordersProcessed] at hmoves
      exact ⟨_, rfl, h.ordersProcessed ▸ hmoves⟩
  | acquiring order =>
      simp only [hloc] at hstep
      split at hstep
      · rename_i hslots
        cases hstep
        have hmoves := h.consumer_moves hidle (.processing order now)
        exact ⟨_, if_pos (h.processingSemaphore ▸ hslots),
          { hmoves with processingSemaphore := congrArg (· - 1) h.processingSemaphore }⟩
      · cases hstep
  | processing order procStart =>
      simp only [hloc] at hstep
      cases hstep
      have hmoves := h.consumer_moves hidle (.applying order procStart now)
      exact ⟨_, rfl,
        { hmoves with processingSemaphore := congrArg (· + 1) h.processingSemaphore }⟩
  | applying order procStart procEnd =>
      simp only [hloc] at hstep
      cases hstep
      have hmoves := h.consumer_moves hidle (.recording order procStart procEnd)
      exact ⟨_, rfl,
        { hmoves with orderBook := congrArg (applyOrder · order) h.orderBook }⟩
  | recording order procStart procEnd =>
      simp only [hloc] at hstep
      cases hstep
      have hmoves := h.consumer_moves hidle (.counting order)
      refine ⟨_, rfl, { hmoves with latencyDataStore := ?_ }⟩
      change (s.latencyDataStore ++ _).map _ = (g.latencyDataStore ++ _).map _
      rw [List.map_append, List.map_append, h.latencyDataStore]
      rfl
  | counting order =>
      simp only [hloc] at hstep
      cases hstep
      have hmoves := h.consumer_moves hidle .popping
      exact ⟨_, rfl, { hmoves with ordersProcessed := congrArg (· + 1) h.ordersProcessed }⟩
  | left =>
      simp only [hloc] at hstep
      cases hstep
      exact ⟨_, rfl, h.consumer_moves hidle .arrived⟩
  | arrived =>
      simp only [hloc] at hstep
      split at hstep
      · rename_i hall
        cases hstep
        exact ⟨_, if_pos fun c' => h.arrived (hall c'), h.consumer_moves hidle .finished⟩
      · cases hstep
  | finished =>
      simp only [hloc] at hstep
      cases hstep

/-! ### Every interleaving -/

theorem Linked.effects (h : Linked o g s)
    (htrace : Atomic.Trace (QueueEffect orderQueueCapacity) o [] o') :
    ∃ s', Run.Reaches (Processing.step K) s s' ∧ Linked o' g s' := by
  refine Atomic.Trace.silent (I := fun o => ∃ s', Run.Reaches (Processing.step K) s s' ∧
    Linked o g s') ?_ ⟨s, .refl s, h⟩ htrace
  rintro before after ⟨m, hreach, hlinked⟩ hstep
  obtain ⟨s', hreach', hlinked'⟩ := hlinked.effect (K := K) hstep
  exact ⟨s', hreach.trans hreach', hlinked'⟩

/-- The threads follow the event, and so what happens around it. -/
theorem Linked.trace (h : Linked o g s)
    {e : Worker N × Atomic.Event (QueueOp Order) (QueueAnswer Order)} {g' : Processing N}
    (htrace : Atomic.Trace (QueueEffect orderQueueCapacity) o [e] o')
    (hseen : ∀ before after s, Linked before g s →
      Atomic.Step (QueueEffect orderQueueCapacity) before (some e) after →
      ∃ s', Run.Reaches (Processing.step K) s s' ∧ Linked after g' s') :
    ∃ s', Run.Reaches (Processing.step K) s s' ∧ Linked o' g' s' := by
  obtain ⟨before, after, hbefore, hstep, hafter⟩ := htrace.cons_inv
  obtain ⟨s₁, hreach₁, h₁⟩ := h.effects (K := K) hbefore
  obtain ⟨s₂, hreach₂, h₂⟩ := hseen before after s₁ h₁ hstep
  obtain ⟨s₃, hreach₃, h₃⟩ := h₂.effects (K := K) hafter
  exact ⟨s₃, (hreach₁.trans hreach₂).trans hreach₃, h₃⟩

end Links

theorem System.visible_advance {Thread T : Type} {C : Nat} [NeZero C] [DecidableEq Thread]
    {q q' : System Thread T C} {thread : Thread} {spuriously : Bool}
    (h : q.step .unbounded (.advance thread spuriously) = .ok q') :
    q.visible (.advance thread spuriously) =
      (q'.threads thread).answer.map fun answer => (thread, Atomic.Event.ret answer) := by
  cases hadvance : q.queue.advance .unbounded spuriously (q.threads thread) with
  | error e =>
      rw [System.step, hadvance] at h
      cases h
  | ok out =>
      rw [System.step, hadvance] at h
      cases h
      rw [System.visible, hadvance]
      change _ = (Function.update q.threads thread out.2.1 thread).answer.map _
      rw [Function.update_self]

namespace RingProcessing

theorem pushBack_none {p : Fin N} {i : Nat} {loc : Local Order} {g : Processing N}
    (h : loc.answer = none) : pushBack p i loc g = g := by
  cases loc <;> first | rfl | cases h

theorem popBack_none {c : Fin numConsumersForBarrier} {now : Int} {loc : Local Order}
    {g : Processing N} (h : loc.answer = none) : popBack c now loc g = g := by
  cases loc <;> first | rfl | cases h

/-- The ring is an atomic queue, and over that the threads have come to `s`. -/
def Simulates (t : RingProcessing N) (s : Processing N) : Prop :=
  ∃ o, Follows o t.ring ∧ Linked o t.globals s

variable {t t' : RingProcessing N} {s : Processing N}

theorem orderQueueCapacity_two_le : 2 ≤ orderQueueCapacity := by decide

theorem Simulates.producer (h : Simulates t s) {p : Fin N} {spuriously : Bool} {now : Int}
    (hstep : t.orderProducer K p spuriously now = .ok t') :
    ∃ s', Run.Reaches (Processing.step K) s s' ∧ Simulates t' s' := by
  obtain ⟨o, hfollows, hlinked⟩ := h
  unfold orderProducer at hstep
  cases hloc : t.globals.producers p with
  | looping i =>
      simp only [hloc] at hstep
      obtain ⟨globals, hglobals, hok⟩ := Run.except_bind_inv hstep
      cases hok
      obtain ⟨s', hreach, hlinked'⟩ := hlinked.make hloc hglobals
      exact ⟨s', hreach, o, hfollows, hlinked'⟩
  | pushing i order =>
      simp only [hloc] at hstep
      split at hstep
      · obtain ⟨ring, hring, hok⟩ := Run.except_bind_inv hstep
        cases hok
        obtain ⟨o', htrace, hfollows'⟩ := hfollows.step orderQueueCapacity_two_le hring
        obtain ⟨s', hreach, hlinked'⟩ := hlinked.trace (K := K) htrace
          fun before after s hbefore hcall => ⟨s, .refl s, hbefore.push_call hloc hcall⟩
        exact ⟨s', hreach, o', hfollows', hlinked'⟩
      · obtain ⟨m, haccess, hok⟩ := Run.except_bind_inv hstep
        obtain ⟨ring, hring, hm⟩ := Run.except_bind_inv haccess
        cases hm
        cases hok
        obtain ⟨o', htrace, hfollows'⟩ := hfollows.step orderQueueCapacity_two_le hring
        rw [System.visible_advance hring] at htrace
        cases hanswer : (ring.threads (.inl p)).answer with
        | none =>
            rw [hanswer] at htrace
            obtain ⟨s', hreach, hlinked'⟩ := hlinked.effects (K := K) htrace
            exact ⟨s', hreach, o', hfollows', by rwa [pushBack_none hanswer]⟩
        | some answer =>
            rw [hanswer] at htrace
            obtain ⟨s', hreach, hlinked'⟩ := hlinked.trace (K := K) htrace
              fun before after s hbefore hret =>
                ⟨s, .refl s, hbefore.push_back hloc hanswer hret⟩
            exact ⟨s', hreach, o', hfollows', hlinked'⟩

theorem Simulates.consumer (h : Simulates t s) {c : Fin numConsumersForBarrier}
    {spuriously processedFirst : Bool} {now : Int}
    (hstep : t.orderConsumer K c spuriously processedFirst now = .ok t') :
    ∃ s', Run.Reaches (Processing.step K) s s' ∧ Simulates t' s' := by
  obtain ⟨o, hfollows, hlinked⟩ := h
  by_cases hloc : t.globals.consumers c = .popping
  · rw [orderConsumer, hloc] at hstep
    simp only at hstep
    split at hstep
    · obtain ⟨ring, hring, hok⟩ := Run.except_bind_inv hstep
      cases hok
      obtain ⟨o', htrace, hfollows'⟩ := hfollows.step orderQueueCapacity_two_le hring
      obtain ⟨s', hreach, hlinked'⟩ := hlinked.trace (K := K) htrace
        fun before after s hbefore hcall => ⟨s, .refl s, hbefore.pop_call hloc hcall⟩
      exact ⟨s', hreach, o', hfollows', hlinked'⟩
    · obtain ⟨m, haccess, hok⟩ := Run.except_bind_inv hstep
      obtain ⟨ring, hring, hm⟩ := Run.except_bind_inv haccess
      cases hm
      cases hok
      obtain ⟨o', htrace, hfollows'⟩ := hfollows.step orderQueueCapacity_two_le hring
      rw [System.visible_advance hring] at htrace
      cases hanswer : (ring.threads (.inr c)).answer with
      | none =>
          rw [hanswer] at htrace
          obtain ⟨s', hreach, hlinked'⟩ := hlinked.effects (K := K) htrace
          exact ⟨s', hreach, o', hfollows', by rwa [popBack_none hanswer]⟩
      | some answer =>
          rw [hanswer] at htrace
          obtain ⟨s', hreach, hlinked'⟩ := hlinked.trace (K := K) htrace
            fun before after s hbefore hret => hbefore.pop_back hloc now hanswer hret
          exact ⟨s', hreach, o', hfollows', hlinked'⟩
  · have hapart : t.apart K (.consumer c false processedFirst now) = .ok t' := by
      rw [← hstep, orderConsumer]
      cases hc : t.globals.consumers c <;> first | rfl | exact absurd hc hloc
    obtain ⟨globals, hglobals, hok⟩ := Run.except_bind_inv hapart
    cases hok
    obtain ⟨s', hconsume, hlinked'⟩ := hlinked.consume hloc hglobals
    have hturn : s.step K (.consumer c false processedFirst now) = .ok s' := hconsume
    exact ⟨s', .head hturn (.refl s'), o, hfollows, hlinked'⟩

theorem Simulates.step (h : Simulates t s) {turn : RingTurn N} (hstep : t.step K turn = .ok t') :
    ∃ s', Run.Reaches (Processing.step K) s s' ∧ Simulates t' s' := by
  cases turn with
  | countDown =>
      obtain ⟨o, hfollows, hlinked⟩ := h
      cases hstep
      have hopen : s.step K .countDown = .ok { s with latchOpen := true } := rfl
      exact ⟨_, .head hopen (.refl _), o, hfollows, { hlinked with latchOpen := rfl }⟩
  | producer p spuriously now => exact h.producer hstep
  | consumer c spuriously processedFirst now => exact h.consumer hstep

theorem start_simulates (q : ConcurrentQueue Order orderQueueCapacity) :
    Simulates (start q N K) (.start N K) :=
  ⟨.quiet .empty, reset_follows orderQueueCapacity_two_le q,
    { orderQueue := rfl
      orderBook := rfl
      ordersProcessed := rfl
      totalExpectedOrders := rfl
      processingSemaphore := rfl
      latchOpen := rfl
      latencyDataStore := rfl
      producers := fun _ => .looping 0
      consumers := fun _ => .idle .waiting }⟩

/-- What the threads come to over the ring they can come to over the atomic queue. -/
theorem run_simulates {q : ConcurrentQueue Order orderQueueCapacity} {turns : List (RingTurn N)}
    (hrun : Run.run (step K) turns (start q N K) = .ok t) :
    ∃ s, Run.Reaches (Processing.step K) (.start N K) s ∧ Simulates t s := by
  refine Run.run_invariant (I := fun t => ∃ s, Run.Reaches (Processing.step K) (.start N K) s ∧
    Simulates t s) ?_ ⟨_, .refl _, start_simulates q⟩ hrun
  rintro turn t t' ⟨s, hreach, hsimulates⟩ hstep
  obtain ⟨s', hreach', hsimulates'⟩ := hsimulates.step hstep
  exact ⟨s', hreach.trans hreach', hsimulates'⟩

theorem accounts_of_reaches (h : Run.Reaches (Processing.step K) (.start N K) s) :
    Accounts K s := by
  obtain ⟨turns, hturns⟩ := h
  exact Run.run_invariant (fun _ _ _ hs hstep => hs.step hstep) start_accounts hturns

/-- A consumer that is out of its loop is so over the atomic queue. -/
theorem Simulates.outside (h : Simulates t s) {c : Fin numConsumersForBarrier}
    (hleft : (t.globals.consumers c).outside = true) : (s.consumers c).outside = true := by
  obtain ⟨o, -, hlinked⟩ := h
  have hne : t.globals.consumers c ≠ .popping := by
    rintro hpopping
    rw [hpopping] at hleft
    cases hleft
  rw [(hlinked.consumer_idle hne).2]
  cases hloc : t.globals.consumers c <;> rw [hloc] at hleft <;> first | rfl | cases hleft

theorem Simulates.empty (h : Simulates t s) (hempty : s.orderQueue.items = []) :
    t.ring.queue.head = t.ring.queue.tail := by
  obtain ⟨o, hfollows, hlinked⟩ := h
  have hitems := hfollows.abstracts.items
  rw [← hlinked.orderQueue, hempty, System.contents] at hitems
  have hle := List.drop_eq_nil_iff.mp hitems.symm
  rw [hfollows.inv.items_length] at hle
  exact Nat.le_antisymm hfollows.inv.cells.le hle

/-- When the queue is empty and a producer is done over the atomic queue, its last `push` is
back. -/
theorem Simulates.producer_done (h : Simulates t s) {p : Fin N}
    (hdone : s.producers p = .looping K) (hempty : t.ring.queue.head = t.ring.queue.tail) :
    t.globals.producers p = .looping K := by
  obtain ⟨o, hfollows, hlinked⟩ := h
  have hlink := hlinked.producers p
  have hphase := hfollows.abstracts.phases (.inl p)
  have hplaced := hfollows.inv.placed (.inl p)
  rw [hdone, hphase] at hlink
  generalize t.globals.producers p = loc at hlink ⊢
  generalize t.ring.threads (.inl p) = call at hlink hplaced
  generalize hcall : phase t.ring.log call = called at hlink
  cases hlink with
  | looping => rfl
  | accepted i order =>
      -- the ticket of the push would be one that is not popped
      have hticket : ∃ item pos, Pushing t.ring.queue t.ring.log (.inl p) item pos := by
        cases call with
        | pushWrite item pos => exact ⟨item, pos, hplaced.1⟩
        | pushStore item pos => exact ⟨item, pos, hplaced.1⟩
        | _ => cases hcall
      obtain ⟨item, pos, hpushing⟩ := hticket
      have hunpopped := hpushing.unpopped
      have hclaimed := hpushing.claimed
      omega

/-- In every state of every run over the ring in which a consumer has left its loop: the producers
have finished, every ticket that was pushed has been popped, the book holds the sums of all
produced orders, one latency record is stored for each of them, and all are counted. -/
theorem ring_orders_processed (q : ConcurrentQueue Order orderQueueCapacity)
    (turns : List (RingTurn N)) (hrun : Run.run (step K) turns (start q N K) = .ok t)
    {c : Fin numConsumersForBarrier} (hleft : (t.globals.consumers c).outside = true) :
    (∀ p, t.globals.producers p = .looping K) ∧ t.ring.queue.head = t.ring.queue.tail ∧
      (∀ symbol, t.globals.orderBook symbol =
        ∑ p : Fin N, ∑ i ∈ Finset.range K, side symbol (producedOrder p i 0)) ∧
      (↑(t.globals.latencyDataStore.map (·.orderId)) : Multiset Nat) =
        ∑ p : Fin N, ∑ i ∈ Finset.range K, {(producedOrder p i 0).orderId} ∧
      t.globals.ordersProcessed = t.globals.totalExpectedOrders ∧
      t.globals.totalExpectedOrders = N * K := by
  obtain ⟨s, hreach, hsimulates⟩ := run_simulates hrun
  have haccounts := accounts_of_reaches hreach
  have houtside := hsimulates.outside hleft
  obtain ⟨hall, hproducers, hqueue, hhands⟩ := haccounts.finished houtside
  have hempty := hsimulates.empty hqueue
  obtain ⟨o, -, hlinked⟩ := id hsimulates
  refine ⟨fun p => hsimulates.producer_done (hproducers p) hempty, hempty, fun symbol => ?_, ?_,
    ?_, ?_⟩
  · obtain ⟨hproduced, hunderway⟩ :=
      produced_all (side symbol) .book (fun p => by rw [hproducers p]) hqueue (hhands .book)
    have hbook := haccounts.book symbol
    rw [hproduced, hunderway, zero_add, hlinked.orderBook] at hbook
    exact hbook.symm
  · rw [hlinked.latency_ids]
    exact haccounts.finished_latency houtside
  · rw [← hlinked.ordersProcessed, ← hlinked.totalExpectedOrders, hall, haccounts.expected]
  · rw [← hlinked.totalExpectedOrders, haccounts.expected]

/-- One producer with one order. The consumer's first `pop` finds the ticket claimed and not
filled; its second takes the order. -/
def oneOrderOverRing : List (RingTurn 1) :=
  let p : Fin 1 := ⟨0, Nat.zero_lt_one⟩
  let c : Fin numConsumersForBarrier := ⟨0, Nat.zero_lt_succ _⟩
  [.countDown, .producer p false 1] ++ List.replicate 4 (.producer p false 2) ++
    List.replicate 6 (.consumer c false true 3) ++ List.replicate 2 (.producer p false 2) ++
    List.replicate 16 (.consumer c false true 5)

/-- A queue that has been used before. -/
def usedQueue : ConcurrentQueue Order orderQueueCapacity :=
  ⟨fun _ => ⟨1027, producedOrder 5 5 5⟩, 3, 3⟩

theorem ring_orders_processed_sample :
    ∃ t : RingProcessing 1, Run.run (step 1) oneOrderOverRing (start usedQueue 1 1) = .ok t ∧
      t.globals.latencyDataStore = [⟨0, 4, 0⟩] ∧ t.ring.queue.head = t.ring.queue.tail :=
  let c : Fin numConsumersForBarrier := ⟨0, Nat.zero_lt_succ _⟩
  ⟨_, rfl, rfl, (ring_orders_processed (K := 1) usedQueue oneOrderOverRing rfl (c := c) rfl).2.1⟩

end RingProcessing

end HftProject.Week7
