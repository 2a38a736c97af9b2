import HftProject.Lib.BoundedFifo
import HftProject.Lib.Run
import HftProject.Week7.ConcurrentQueue

/-!
`OrderProcessing` of `week_7`: producers push their orders to the queue, four consumers pop
them, enter them in the book, record their latency and count them. A consumer whose pop
fails leaves once as many orders are counted as are expected.

The queue is an atomic bounded FIFO whose `push` and `pop` may also fail at any time. A
locked section and an operation on a counter are one step each. Quantities, sums, counters
and clock readings are unbounded integers.
-/

namespace HftProject.Week7

structure Order where
  orderId : Nat
  symbol : String
  quantity : Int
  isBuy : Bool
  enqueueTime : Int
  dequeueTime : Int
deriving DecidableEq, Repr

structure LatencyRecord where
  orderId : Nat
  queueDuration : Int
  processingDuration : Int
deriving DecidableEq, Repr

def orderQueueCapacity : Nat := 1024

abbrev numConsumersForBarrier : Nat := 4

/-- The `i`-th order of a producer, enqueued at `now`. -/
def producedOrder (producerId i : Nat) (now : Int) : Order where
  orderId := producerId * 10000 + i
  symbol := if i % 3 = 0 then "AAPL" else if i % 3 = 1 then "GOOGL" else "MSFT"
  quantity := 10 + i % 10
  isBuy := (producerId + i) % 2 = 0
  enqueueTime := now
  dequeueTime := 0

/-- Where `orderProducer` is: at the head of its loop, or at `push`. -/
inductive Producer where
  | looping (i : Nat)
  | pushing (i : Nat) (order : Order)
deriving DecidableEq, Repr

/-- Where `orderConsumer` is. -/
inductive Consumer where
  /-- At `startLatch.wait()`. -/
  | waiting
  | popping
  /-- The pop has failed and neither counter is loaded. -/
  | checking
  | loadedProcessed (processed : Nat)
  | loadedExpected (expected : Nat)
  /-- At `processingSemaphore.acquire()`. -/
  | acquiring (order : Order)
  | processing (order : Order) (procStart : Int)
  /-- At the section that updates the book. -/
  | applying (order : Order) (procStart procEnd : Int)
  /-- At the section that stores the latency. -/
  | recording (order : Order) (procStart procEnd : Int)
  /-- At `ordersProcessed.fetch_add(1)`. -/
  | counting (order : Order)
  /-- Out of the loop, at `consumerSyncBarrier.arrive_and_wait()`. -/
  | left
  | arrived
  | finished
deriving DecidableEq, Repr

/-- The consumer is out of its loop. -/
def Consumer.outside : Consumer → Bool
  | .left => true
  | .arrived => true
  | .finished => true
  | _ => false

/-- The globals, and where the threads are. -/
structure Processing (numProducers : Nat) where
  orderQueue : BoundedFifo Order orderQueueCapacity
  orderBook : String → Int × Int
  ordersProcessed : Nat
  totalExpectedOrders : Nat
  processingSemaphore : Nat
  latchOpen : Bool
  latencyDataStore : List LatencyRecord
  producers : Fin numProducers → Producer
  consumers : Fin numConsumersForBarrier → Consumer

/-- A step of a thread at the time `now`. The queue may refuse. The two counters are loaded
in either order. -/
inductive Turn (numProducers : Nat) where
  | countDown
  | producer (p : Fin numProducers) (refuses : Bool) (now : Int)
  | consumer (c : Fin numConsumersForBarrier) (refuses processedFirst : Bool) (now : Int)
deriving DecidableEq, Repr

namespace Processing

variable {N : Nat}

/-- `startOrderProcessing` has stored the number of expected orders and started the
threads. -/
def start (N ordersPerProducer : Nat) : Processing N where
  orderQueue := .empty
  orderBook _ := (0, 0)
  ordersProcessed := 0
  totalExpectedOrders := N * ordersPerProducer
  processingSemaphore := numConsumersForBarrier
  latchOpen := false
  latencyDataStore := []
  producers _ := .looping 0
  consumers _ := .waiting

def setProducer (s : Processing N) (p : Fin N) (loc : Producer) : Processing N :=
  { s with producers := Function.update s.producers p loc }

def setConsumer (s : Processing N) (c : Fin numConsumersForBarrier) (loc : Consumer) :
    Processing N :=
  { s with consumers := Function.update s.consumers c loc }

def orderProducer (numOrders : Nat) (p : Fin N) (refuses : Bool) (now : Int)
    (s : Processing N) : Except Fault (Processing N) :=
  match s.producers p with
  | .looping i =>
      if i < numOrders then .ok (s.setProducer p (.pushing i (producedOrder p i now)))
      else .error .notReady
  | .pushing i order =>
      let (success, queue) := s.orderQueue.push order
      if refuses = false ∧ success then
        .ok ({ s with orderQueue := queue }.setProducer p (.looping (i + 1)))
      else .ok s

/-- `orderBook[order.symbol]` with the quantity of the order added to its side. -/
def applyOrder (book : String → Int × Int) (order : Order) : String → Int × Int :=
  let e := book order.symbol
  Function.update book order.symbol
    (if order.isBuy then (e.1 + order.quantity, e.2) else (e.1, e.2 + order.quantity))

/-- The stopping test on the loaded counters. -/
def stopOrContinue (processed expected : Nat) : Consumer :=
  if processed ≥ expected then .left else .popping

def orderConsumer (c : Fin numConsumersForBarrier) (refuses processedFirst : Bool) (now : Int)
    (s : Processing N) : Except Fault (Processing N) :=
  match s.consumers c with
  | .waiting => if s.latchOpen then .ok (s.setConsumer c .popping) else .error .notReady
  | .popping =>
      match refuses, s.orderQueue.pop with
      | false, (some order, queue) =>
          .ok ({ s with orderQueue := queue }.setConsumer c
            (.acquiring { order with dequeueTime := now }))
      | _, _ => .ok (s.setConsumer c .checking)
  | .checking =>
      .ok (s.setConsumer c
        (if processedFirst then .loadedProcessed s.ordersProcessed
         else .loadedExpected s.totalExpectedOrders))
  | .loadedProcessed processed =>
      .ok (s.setConsumer c (stopOrContinue processed s.totalExpectedOrders))
  | .loadedExpected expected =>
      .ok (s.setConsumer c (stopOrContinue s.ordersProcessed expected))
  | .acquiring order =>
      if 0 < s.processingSemaphore then
        .ok ({ s with processingSemaphore := s.processingSemaphore - 1 }.setConsumer c
          (.processing order now))
      else .error .notReady
  | .processing order procStart =>
      .ok ({ s with processingSemaphore := s.processingSemaphore + 1 }.setConsumer c
        (.applying order procStart now))
  | .applying order procStart procEnd =>
      .ok ({ s with orderBook := applyOrder s.orderBook order }.setConsumer c
        (.recording order procStart procEnd))
  | .recording order procStart procEnd =>
      let record : LatencyRecord :=
        ⟨order.orderId, order.dequeueTime - order.enqueueTime, procEnd - procStart⟩
      .ok ({ s with latencyDataStore := s.latencyDataStore ++ [record] }.setConsumer c
        (.counting order))
  | .counting _ =>
      .ok ({ s with ordersProcessed := s.ordersProcessed + 1 }.setConsumer c .popping)
  | .left => .ok (s.setConsumer c .arrived)
  | .arrived =>
      if ∀ c', s.consumers c' = .arrived ∨ s.consumers c' = .finished then
        .ok (s.setConsumer c .finished)
      else .error .notReady
  | .finished => .error .notReady

def step (ordersPerProducer : Nat) (turn : Turn N) (s : Processing N) :
    Except Fault (Processing N) :=
  match turn with
  | .countDown => .ok { s with latchOpen := true }
  | .producer p refuses now => s.orderProducer ordersPerProducer p refuses now
  | .consumer c refuses processedFirst now => s.orderConsumer c refuses processedFirst now

end Processing

end HftProject.Week7
