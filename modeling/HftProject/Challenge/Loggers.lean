import HftProject.Lib.BoundedFifo
import HftProject.Lib.Run

/-!
The two logger threads of the client, which differ in their records only: each empties a queue
into a batch and the batch into a file. A step of a thread is one access to what it shares with
other threads, which push records and request the shutdown in between.

A record is lost in two ways: the second `pop` of an iteration overwrites it, or the
shutdown is requested too late for the iteration that holds it
(`loggers_lose_nothing_iff`).
-/

namespace HftProject.Challenge

open Run

/-- Durations are in nanoseconds. -/
structure ClientPacketLatencyRecord where
  udpArrivalToQueueNs : Int
  queueDurationNs : Int
  workerProcessingNs : Int
deriving DecidableEq, Repr

structure ClientTcpResponseLatencyRecord where
  challengeId : Int
  targetParsedToTcpSentNs : Int
deriving DecidableEq, Repr

/-- What one logger does not share with the other. -/
structure Logger (T : Type) where
  queueCapacity : Nat
  batchSize : Nat
  line : T → String

def logQueueCapacity : Nat := 16384

def logBatchSize : Nat := 1000

def packetLatencyLogger : Logger ClientPacketLatencyRecord where
  queueCapacity := logQueueCapacity
  batchSize := logBatchSize
  line rec := toString rec.udpArrivalToQueueNs ++ "," ++ toString rec.queueDurationNs ++ "," ++
    toString rec.workerProcessingNs ++ "\n"

def tcpResponseLogger : Logger ClientTcpResponseLatencyRecord where
  queueCapacity := logQueueCapacity
  batchSize := logBatchSize
  line rec := toString rec.challengeId ++ "," ++ toString rec.targetParsedToTcpSentNs ++ "\n"

namespace Logger

/-- Where the thread is: before an access, or back from the function. -/
inductive Pc where
  /-- Before `!shutdown_requested` at the head of the loop. -/
  | loop
  /-- Before `!queue.is_empty()` at the head of the loop. -/
  | loopEmpty
  | pop
  /-- Before the clock is read. -/
  | interval
  /-- Before `shutdown_requested` in `shutting_down_and_has_data`. -/
  | shuttingDown (flushIntervalElapsed : Bool)
  /-- Before `queue.is_empty()` in `shutting_down_and_has_data`. -/
  | shuttingDownEmpty (flushIntervalElapsed : Bool)
  | flush (flushIntervalElapsed shuttingDownAndHasData : Bool)
  /-- Before the `pop` in the condition after the flush. -/
  | secondPop
  /-- Before `!shutdown_requested`, which decides whether to sleep. -/
  | sleep
  /-- Before `shutdown_requested` in the last line of the loop. -/
  | breakShutdown
  /-- Before `queue.is_empty()` in the last line of the loop. -/
  | breakEmpty
  | returned
deriving DecidableEq, Repr

variable {T : Type}

/-- `stream` has the lines in the file, and `pushed` the records that the queue has taken. -/
structure State (logger : Logger T) where
  pc : Pc
  queue : BoundedFifo T logger.queueCapacity
  shutdownRequested : Bool
  batch : List T
  stream : List String
  pushed : List T

/-- Another thread pushes a record or requests the shutdown, or the logger goes on. The clock
may have passed `LOG_FLUSH_INTERVAL` at any time. -/
inductive Action (T : Type) where
  | push (record : T)
  | requestShutdown
  | advance (flushIntervalElapsed : Bool)
deriving DecidableEq, Repr

variable {logger : Logger T}

namespace State

def start : State logger where
  pc := .loop
  queue := .empty
  shutdownRequested := false
  batch := []
  stream := []
  pushed := []

def goto (pc : Pc) (s : State logger) : State logger := { s with pc }

/-- The condition of the flush. The stream is open. -/
def flushes (flushIntervalElapsed shuttingDownAndHasData : Bool) (s : State logger) : Bool :=
  decide (s.batch.length ≥ logger.batchSize) || (flushIntervalElapsed && !s.batch.isEmpty) ||
    shuttingDownAndHasData

def advance (elapsed : Bool) (s : State logger) : State logger :=
  match s.pc with
  | .loop => if s.shutdownRequested then s.goto .loopEmpty else s.goto .pop
  | .loopEmpty => if s.queue.items.isEmpty then s.goto .returned else s.goto .pop
  | .pop =>
      match s.queue.pop with
      | (some record, queue) => { s with pc := .interval, queue, batch := s.batch ++ [record] }
      | (none, _) => s.goto .interval
  | .interval => s.goto (.shuttingDown elapsed)
  | .shuttingDown elapsed =>
      if s.shutdownRequested && !s.batch.isEmpty then s.goto (.shuttingDownEmpty elapsed)
      else s.goto (.flush elapsed false)
  | .shuttingDownEmpty elapsed => s.goto (.flush elapsed s.queue.items.isEmpty)
  | .flush elapsed hasData =>
      if s.flushes elapsed hasData then
        { s with pc := .breakShutdown, batch := [], stream := s.stream ++ s.batch.map logger.line }
      else if s.batch.isEmpty then s.goto .sleep
      else s.goto .secondPop
  | .secondPop =>
      match s.queue.pop with
      | (some _, queue) => { s with pc := .breakShutdown, queue }
      | (none, _) => s.goto .sleep
  | .sleep => s.goto .breakShutdown
  | .breakShutdown => if s.shutdownRequested then s.goto .breakEmpty else s.goto .loop
  | .breakEmpty =>
      if s.queue.items.isEmpty && s.batch.isEmpty then s.goto .returned else s.goto .loop
  | .returned => s

/-- A full queue refuses the record. -/
def push (record : T) (s : State logger) : State logger :=
  match s.queue.push record with
  | (true, queue) => { s with queue, pushed := s.pushed ++ [record] }
  | (false, _) => s

end State

def step (action : Action T) (s : State logger) : Except Empty (State logger) :=
  match action with
  | .push record => .ok (s.push record)
  | .requestShutdown => .ok { s with shutdownRequested := true }
  | .advance elapsed => .ok (s.advance elapsed)

namespace State

variable {s t : State logger}

/-! ### What is to hold -/

/-- The lines in the file, the batch and the queue are what was pushed, in order. -/
def Ordered (s : State logger) : Prop :=
  ∃ written, s.stream = written.map logger.line ∧ written ++ s.batch ++ s.queue.items = s.pushed

def LosesNothing (s : State logger) : Prop :=
  (s.pc = .loop → s.Ordered) ∧ (s.pc = .returned → s.batch = [] ∧ s.queue.items = [])

/-- No record is pushed after the shutdown. -/
def Quiet (action : Action T) (s : State logger) : Prop :=
  ∀ record, action = .push record → s.shutdownRequested = false

/-- The second `pop` finds no record. -/
def SecondPopIdle (action : Action T) (s : State logger) : Prop :=
  ∀ elapsed, action = .advance elapsed → s.pc = .secondPop → s.queue.items = []

/-- The iteration does not flush any more, and the loop goes on to its next test. -/
def pastFlush (s : State logger) : Bool :=
  match s.pc with
  | .flush elapsed hasData => !s.flushes elapsed hasData
  | .secondPop => true
  | .sleep => true
  | .breakShutdown => true
  | .loop => true
  | _ => false

/-- The shutdown is not requested when the iteration does not flush any more, its batch is not
empty, and the queue is. -/
def ShutdownInTime (action : Action T) (s : State logger) : Prop :=
  action = .requestShutdown → s.pastFlush → s.batch = [] ∨ s.queue.items ≠ []

/-! ### What a step does -/

/-- Everything a step of the thread can do to the records. -/
inductive Effect (s t : State logger) : Prop where
  | moved : t.queue = s.queue → t.batch = s.batch → t.stream = s.stream → Effect s t
  | popped {record : T} : s.queue.items = record :: t.queue.items →
      t.batch = s.batch ++ [record] → t.stream = s.stream → Effect s t
  | flushed : t.queue = s.queue → t.batch = [] → t.stream = s.stream ++ s.batch.map logger.line →
      Effect s t
  | dropped {record : T} : s.pc = .secondPop → s.queue.items = record :: t.queue.items →
      t.batch = s.batch → t.stream = s.stream → Effect s t

theorem effect_advance (elapsed : Bool) (s : State logger) : Effect s (s.advance elapsed) := by
  rw [advance]
  split
  case h_3 =>
    split
    · rename_i hpop
      exact .popped (BoundedFifo.items_of_pop hpop) rfl rfl
    · exact .moved rfl rfl rfl
  case h_7 =>
    split
    · exact .flushed rfl rfl rfl
    · split
      · exact .moved rfl rfl rfl
      · exact .moved rfl rfl rfl
  case h_8 hpc =>
    split
    · rename_i hpop
      exact .dropped hpc (BoundedFifo.items_of_pop hpop) rfl rfl
    · exact .moved rfl rfl rfl
  all_goals (try split) <;> exact .moved rfl rfl rfl

@[simp] theorem advance_pushed (elapsed : Bool) (s : State logger) :
    (s.advance elapsed).pushed = s.pushed := by
  rw [advance]
  repeat' split
  all_goals rfl

theorem push_cases (record : T) (s : State logger) :
    s.push record = s ∨ ((s.push record).queue.items = s.queue.items ++ [record] ∧
      s.push record =
        { s with queue := (s.push record).queue, pushed := s.pushed ++ [record] }) := by
  rcases Nat.lt_or_eq_of_le s.queue.bounded with hroom | hfull
  · obtain ⟨hdone, hitems⟩ := BoundedFifo.push_room record hroom
    have hpush : s.queue.push record = (true, (s.queue.push record).2) := by
      rw [← hdone]
    rw [push, hpush]
    exact .inr ⟨hitems, rfl⟩
  · rw [push, BoundedFifo.push_full record hfull]
    exact .inl rfl

@[simp] theorem push_pc (record : T) (s : State logger) : (s.push record).pc = s.pc := by
  rw [push]
  split <;> rfl

@[simp] theorem push_batch (record : T) (s : State logger) :
    (s.push record).batch = s.batch := by
  rw [push]
  split <;> rfl

@[simp] theorem push_shutdownRequested (record : T) (s : State logger) :
    (s.push record).shutdownRequested = s.shutdownRequested := by
  rw [push]
  split <;> rfl

/-! ### The order of the records -/

theorem Ordered.step (h : s.Ordered) {action : Action T} (hidle : SecondPopIdle action s)
    (hstep : Logger.step action s = .ok t) : t.Ordered := by
  obtain ⟨written, hstream, hall⟩ := h
  cases action with
  | push record =>
      obtain rfl := Except.ok.inj hstep
      rcases push_cases record s with hsame | ⟨hitems, hpush⟩
      · rw [hsame]
        exact ⟨written, hstream, hall⟩
      · refine ⟨written, by rw [hpush]; exact hstream, ?_⟩
        rw [hitems, hpush, ← List.append_assoc, hall]
  | requestShutdown =>
      obtain rfl := Except.ok.inj hstep
      exact ⟨written, hstream, hall⟩
  | advance elapsed =>
      obtain rfl := Except.ok.inj hstep
      rw [Ordered, advance_pushed]
      cases effect_advance elapsed s with
      | moved hqueue hbatch hlines =>
          exact ⟨written, hlines.trans hstream, by rw [hqueue, hbatch, hall]⟩
      | @popped record hqueue hbatch hlines =>
          refine ⟨written, hlines.trans hstream, ?_⟩
          rw [hbatch, ← hall, hqueue]
          simp
      | flushed hqueue hbatch hlines =>
          refine ⟨written ++ s.batch, ?_, ?_⟩
          · rw [hlines, hstream, List.map_append]
          · rw [hbatch, hqueue, List.append_nil, hall]
      | dropped hpc hqueue _ _ =>
          rw [hidle elapsed rfl hpc] at hqueue
          cases hqueue

theorem always_ordered {actions : List (Action T)}
    (h : Steps Logger.step actions (start : State logger) SecondPopIdle) :
    Always Logger.step actions (start : State logger) Ordered :=
  always_of_steps (fun _ _ _ hs hidle hstep => hs.step hidle hstep) ⟨[], rfl, rfl⟩ h

/-! ### The shutdown -/

/-- The next test of the loop does not leave records in the batch. -/
def Clean (s : State logger) : Prop := s.batch = [] ∨ s.queue.items ≠ []

/-- After the shutdown, what is in the batch gets flushed before the loop ends. -/
structure Flushed (s : State logger) : Prop where
  pastFlush : s.shutdownRequested → s.pastFlush → s.Clean
  tests : s.pc = .loopEmpty ∨ s.pc = .breakEmpty → s.shutdownRequested ∧ s.Clean
  returned : s.pc = .returned → s.shutdownRequested ∧ s.batch = [] ∧ s.queue.items = []

theorem flushed_of_clean (hclean : s.shutdownRequested → s.Clean) (hpc : s.pc ≠ .returned)
    (htests : s.pc = .loopEmpty ∨ s.pc = .breakEmpty → s.shutdownRequested) : s.Flushed where
  pastFlush hdown _ := hclean hdown
  tests hpc' := ⟨htests hpc', hclean (htests hpc')⟩
  returned hpc' := absurd hpc' hpc

theorem flushed_goto {pc : Pc} (hclean : s.shutdownRequested → s.Clean)
    (hpc : pc ≠ .loopEmpty ∧ pc ≠ .breakEmpty ∧ pc ≠ .returned) : (s.goto pc).Flushed :=
  flushed_of_clean (s := s.goto pc) hclean hpc.2.2 (by simp [goto, hpc])

/-- The thread is at none of the places the invariant speaks about. -/
theorem flushed_of_ahead (hpast : s.pastFlush = false)
    (hpc : s.pc ≠ .loopEmpty ∧ s.pc ≠ .breakEmpty ∧ s.pc ≠ .returned) : s.Flushed where
  pastFlush _ hpast' := absurd hpast' (by simp [hpast])
  tests hpc' := absurd hpc' (by simp [hpc])
  returned hpc' := absurd hpc' hpc.2.2

theorem flushed_returned (hdown : s.shutdownRequested) (hbatch : s.batch = [])
    (hqueue : s.queue.items = []) : (s.goto .returned).Flushed where
  pastFlush _ hpast := by cases hpast
  tests hpc := by simp [goto] at hpc
  returned _ := ⟨hdown, hbatch, hqueue⟩

theorem Flushed.advance (h : s.Flushed) (elapsed : Bool)
    (hidle : SecondPopIdle (.advance elapsed) s) : (s.advance elapsed).Flushed := by
  have hwindow : s.pastFlush → s.shutdownRequested → s.Clean := fun hpast hdown =>
    h.pastFlush hdown hpast
  rw [State.advance]
  cases hpc : s.pc with
  | loop =>
      have hclean := hwindow (by simp [State.pastFlush, hpc])
      cases hdown : s.shutdownRequested with
      | false => exact flushed_of_ahead rfl (by simp [goto])
      | true =>
          exact flushed_of_clean (s := s.goto .loopEmpty) hclean (by simp [goto]) fun _ => hdown
  | loopEmpty =>
      obtain ⟨hdown, hclean⟩ := h.tests (.inl hpc)
      cases hqueue : s.queue.items with
      | nil =>
          exact flushed_returned hdown (hclean.resolve_right (not_not_intro hqueue)) hqueue
      | cons record rest => exact flushed_of_ahead rfl (by simp [goto])
  | pop =>
      dsimp only
      split
      · exact flushed_of_ahead rfl (by simp)
      · exact flushed_of_ahead rfl (by simp [goto])
  | interval => exact flushed_of_ahead rfl (by simp [goto])
  | shuttingDown elapsed' =>
      dsimp only
      split
      · exact flushed_of_ahead rfl (by simp [goto])
      · rename_i hnot
        refine flushed_of_clean (fun hdown => .inl ?_) (by simp [goto]) (by simp [goto])
        simpa [goto, show s.shutdownRequested = true from hdown] using hnot
  | shuttingDownEmpty elapsed' =>
      cases hqueue : s.queue.items with
      | nil => exact flushed_of_ahead (by simp [State.pastFlush, goto, flushes]) (by simp [goto])
      | cons record rest =>
          refine flushed_of_clean (fun _ => .inr ?_) (by simp [goto]) (by simp [goto])
          simp [goto, hqueue]
  | flush elapsed' hasData =>
      dsimp only
      split
      · exact flushed_of_clean (fun _ => .inl rfl) (by simp) (by simp)
      · rename_i hnot
        have hclean := hwindow (by simpa [State.pastFlush, hpc] using hnot)
        split
        · exact flushed_goto hclean (by simp)
        · exact flushed_goto hclean (by simp)
  | secondPop =>
      have hclean := hwindow (by simp [State.pastFlush, hpc])
      rw [BoundedFifo.pop_nil (hidle elapsed rfl hpc)]
      exact flushed_goto hclean (by simp)
  | sleep =>
      have hclean := hwindow (by simp [State.pastFlush, hpc])
      exact flushed_goto hclean (by simp)
  | breakShutdown =>
      have hclean := hwindow (by simp [State.pastFlush, hpc])
      cases hdown : s.shutdownRequested with
      | false =>
          exact flushed_goto hclean (by simp)
      | true =>
          exact flushed_of_clean (s := s.goto .breakEmpty) hclean (by simp [goto]) fun _ => hdown
  | breakEmpty =>
      obtain ⟨hdown, hclean⟩ := h.tests (.inr hpc)
      dsimp only
      split
      · rename_i hempty
        obtain ⟨hqueue, hbatch⟩ : s.queue.items = [] ∧ s.batch = [] := by simpa using hempty
        exact flushed_returned hdown hbatch hqueue
      · exact flushed_goto (fun _ => hclean) (by simp)
  | returned => exact h

theorem Flushed.step (h : s.Flushed) {action : Action T} (hquiet : Quiet action s)
    (hidle : SecondPopIdle action s) (htime : ShutdownInTime action s)
    (hstep : Logger.step action s = .ok t) : t.Flushed := by
  cases action with
  | push record =>
      obtain rfl := Except.ok.inj hstep
      -- A record is pushed before the shutdown, where the invariant says little.
      have hrunning := hquiet record rfl
      refine flushed_of_clean (fun hdown => ?_) (fun hret => ?_) fun htests => ?_
      · simp [hrunning] at hdown
      · rw [push_pc] at hret
        simpa [hrunning] using (h.returned hret).1
      · rw [push_pc] at htests
        simpa [hrunning] using (h.tests htests).1
  | requestShutdown =>
      obtain rfl := Except.ok.inj hstep
      exact
        { pastFlush := fun _ hpast => htime rfl hpast
          tests := fun hpc => ⟨rfl, (h.tests hpc).2⟩
          returned := fun hpc => ⟨rfl, (h.returned hpc).2⟩ }
  | advance elapsed =>
      obtain rfl := Except.ok.inj hstep
      exact h.advance elapsed hidle

theorem always_flushed {actions : List (Action T)}
    (hquiet : Steps Logger.step actions (start : State logger) Quiet)
    (h : Steps Logger.step actions (start : State logger) fun action s =>
      SecondPopIdle action s ∧ ShutdownInTime action s) :
    Always Logger.step actions (start : State logger) Flushed := by
  have hstart : (start : State logger).Flushed :=
    flushed_of_clean (fun _ => .inl rfl) (by simp [start]) (by simp [start])
  refine always_of_steps ?_ hstart (steps_and.mpr ⟨hquiet, h⟩)
  rintro action s s' hs ⟨hquiet, hidle, htime⟩ hstep
  exact hs.step hquiet hidle htime hstep

/-! ### Records that are lost -/

/-- Fewer records are in the file, the batch and the queue than were pushed. -/
def Short (s : State logger) : Prop :=
  s.stream.length + s.batch.length + s.queue.items.length < s.pushed.length

theorem Short.not_ordered (h : s.Short) : ¬ s.Ordered := by
  rintro ⟨written, hstream, hall⟩
  have hlen := congrArg List.length hall
  rw [Short, hstream] at h
  simp only [List.length_append, List.length_map] at hlen h
  omega

theorem Short.push (h : s.Short) (record : T) : (s.push record).Short := by
  rcases push_cases record s with hsame | ⟨hitems, hpush⟩
  · rw [hsame]
    exact h
  · rw [Short, hitems, hpush]
    rw [Short] at h
    simp only [List.length_append, List.length_cons, List.length_nil]
    omega

/-- The second `pop` has overwritten a record, and the loop has not come to its head yet. -/
structure Overwritten (s : State logger) : Prop where
  pc : s.pc = .breakShutdown ∨ s.pc = .breakEmpty
  batch : s.batch ≠ []
  short : s.Short

theorem Overwritten.step (h : s.Overwritten) {action : Action T} (hgood : t.pc = .loop → t.Ordered)
    (hstep : Logger.step action s = .ok t) : t.Overwritten := by
  cases action with
  | push record =>
      obtain rfl := Except.ok.inj hstep
      refine ⟨?_, ?_, h.short.push record⟩
      · rw [push_pc]
        exact h.pc
      · rw [push_batch]
        exact h.batch
  | requestShutdown =>
      obtain rfl := Except.ok.inj hstep
      exact ⟨h.pc, h.batch, h.short⟩
  | advance elapsed =>
      obtain rfl := Except.ok.inj hstep
      have hshort : ∀ pc, (s.goto pc).Short := fun pc => h.short
      rcases h.pc with hpc | hpc
      · rw [State.advance, hpc] at hgood ⊢
        dsimp only at hgood ⊢
        split at hgood
        · rw [if_pos ‹_›]
          exact ⟨.inr rfl, h.batch, h.short⟩
        · exact absurd (hgood rfl) (hshort .loop).not_ordered
      · rw [State.advance, hpc] at hgood
        simp only [List.isEmpty_eq_false_iff.mpr h.batch, Bool.and_false, Bool.false_eq_true,
          if_false] at hgood
        exact absurd (hgood rfl) (hshort .loop).not_ordered

/-- The condition comes to the second `pop` with a batch only. -/
theorem secondPop_batch {action : Action T} (h : s.pc = .secondPop → s.batch ≠ [])
    (hstep : Logger.step action s = .ok t) : t.pc = .secondPop → t.batch ≠ [] := by
  cases action with
  | push record =>
      obtain rfl := Except.ok.inj hstep
      rw [push_pc, push_batch]
      exact h
  | requestShutdown =>
      obtain rfl := Except.ok.inj hstep
      exact h
  | advance elapsed =>
      obtain rfl := Except.ok.inj hstep
      rw [State.advance]
      intro hpc
      split at hpc
      case h_7 =>
        split at hpc
        · cases hpc
        · split at hpc
          · cases hpc
          · rename_i hflushes hbatch
            rw [if_neg hflushes, if_neg hbatch]
            simpa [goto] using hbatch
      case h_12 hret =>
        rw [hret] at hpc
        cases hpc
      all_goals (try split at hpc) <;> cases hpc

theorem overwritten_of_secondPop (elapsed : Bool) (h : s.Ordered) (hpc : s.pc = .secondPop)
    (hbatch : s.batch ≠ []) (hqueue : s.queue.items ≠ []) : (s.advance elapsed).Overwritten := by
  obtain ⟨written, hstream, hall⟩ := h
  obtain ⟨record, rest, hitems⟩ := List.exists_cons_of_ne_nil hqueue
  obtain ⟨hsome, hrest⟩ := BoundedFifo.pop_cons hitems
  have hpop : s.queue.pop = (some record, s.queue.pop.2) := by rw [← hsome]
  rw [State.advance, hpc, hpop]
  refine ⟨.inl rfl, hbatch, ?_⟩
  have hlen := congrArg List.length hall
  rw [Short, hrest, hstream, List.length_map]
  rw [hitems] at hlen
  simp only [List.length_append, List.length_cons] at hlen
  change written.length + s.batch.length + rest.length < s.pushed.length
  omega

/-- The shutdown is requested, and the loop ends without another flush. -/
structure Late (s : State logger) : Prop where
  shutdownRequested : s.shutdownRequested = true
  queue : s.queue.items = []
  batch : s.batch ≠ []
  pc : s.pastFlush = true ∨ s.pc = .loopEmpty ∨ s.pc = .breakEmpty

theorem Late.step (h : s.Late) {action : Action T} (hquiet : Quiet action s)
    (hgood : t.pc = .returned → t.batch = []) (hstep : Logger.step action s = .ok t) : t.Late := by
  have hbatch := List.isEmpty_eq_false_iff.mpr h.batch
  cases action with
  | push record =>
      have hrunning := hquiet record rfl
      rw [h.shutdownRequested] at hrunning
      cases hrunning
  | requestShutdown =>
      obtain rfl := Except.ok.inj hstep
      exact ⟨rfl, h.queue, h.batch, h.pc⟩
  | advance elapsed =>
      obtain rfl := Except.ok.inj hstep
      have hgoto : ∀ pc, (s.goto pc).pastFlush = true ∨ pc = .loopEmpty ∨ pc = .breakEmpty →
          (s.goto pc).Late := fun pc hpc => ⟨h.shutdownRequested, h.queue, h.batch, hpc⟩
      rcases h.pc with hpast | hpc | hpc
      · rw [State.advance]
        rw [State.pastFlush] at hpast
        split at hpast
        · rename_i hpc
          rw [hpc]
          simp only [Bool.not_eq_true'] at hpast
          simp only [hpast, Bool.false_eq_true, if_false, hbatch]
          exact hgoto _ (.inl rfl)
        · rename_i hpc
          rw [hpc, BoundedFifo.pop_nil h.queue]
          exact hgoto _ (.inl rfl)
        · rename_i hpc
          rw [hpc]
          exact hgoto _ (.inl rfl)
        · rename_i hpc
          rw [hpc]
          simp only [h.shutdownRequested, if_true]
          exact hgoto _ (.inr (.inr rfl))
        · rename_i hpc
          rw [hpc]
          simp only [h.shutdownRequested, if_true]
          exact hgoto _ (.inr (.inl rfl))
        · cases hpast
      · rw [State.advance, hpc] at hgood
        simp only [h.queue, List.isEmpty_nil, if_true] at hgood
        exact absurd (hgood rfl) h.batch
      · rw [State.advance, hpc]
        simp only [hbatch, Bool.and_false, Bool.false_eq_true, if_false]
        exact hgoto _ (.inl rfl)

/-- A run that loses nothing and comes to its end takes none of the two ways. -/
theorem steps_of_losesNothing {actions : List (Action T)} (hordered : s.Ordered)
    (hbatch : s.pc = .secondPop → s.batch ≠ [])
    (hquiet : Steps Logger.step actions s Quiet)
    (halways : Always Logger.step actions s LosesNothing) (hrun : run Logger.step actions s = .ok t)
    (hret : t.pc = .returned) :
    Steps Logger.step actions s fun action s =>
      SecondPopIdle action s ∧ ShutdownInTime action s := by
  induction actions generalizing s with
  | nil => exact steps_nil
  | cons action actions ih =>
      obtain ⟨s', hstep, hrun'⟩ := run_cons_inv hrun
      have halways' := (always_cons.mp halways).2 s' hstep
      obtain ⟨-, hquiet'⟩ := steps_cons.mp hquiet
      have hidle : SecondPopIdle action s := by
        rintro elapsed rfl hpc
        by_contra hqueue
        have hover := overwritten_of_secondPop elapsed hordered hpc (hbatch hpc) hqueue
        obtain rfl := Except.ok.inj hstep
        have hend := run_invariant_along (I := Overwritten)
          (fun _ _ _ hu _ hgood hstep => hu.step hgood.1 hstep) hover (hquiet' _ rfl) halways' hrun'
        rcases hend.pc with hpc' | hpc'
        · rw [hret] at hpc'
          cases hpc'
        · rw [hret] at hpc'
          cases hpc'
      have htime : ShutdownInTime action s := by
        rintro rfl hpast
        by_contra hnot
        obtain ⟨hbatch, hqueue⟩ := not_or.mp hnot
        obtain rfl := Except.ok.inj hstep
        have hlate : Late { s with shutdownRequested := true } :=
          ⟨rfl, not_not.mp hqueue, hbatch, .inl hpast⟩
        have hend := run_invariant_along
          (fun _ _ _ hu hquiet hgood hstep => hu.step hquiet (fun hpc => (hgood.2 hpc).1) hstep)
          hlate (hquiet' _ rfl) halways' hrun'
        rcases hend.pc with hpast' | hpc' | hpc'
        · rw [State.pastFlush, hret] at hpast'
          cases hpast'
        · rw [hret] at hpc'
          cases hpc'
        · rw [hret] at hpc'
          cases hpc'
      refine steps_cons.mpr ⟨⟨hidle, htime⟩, fun s'' hstep' => ?_⟩
      obtain rfl := Except.ok.inj (hstep.symm.trans hstep')
      exact ih (hordered.step hidle hstep) (secondPop_batch hbatch hstep) (hquiet' s' hstep)
        halways' hrun'

end State

open State in
/-- **When the loggers lose nothing.** The head of the loop finds all records that were pushed, in
order, as long as no second `pop` finds one. If moreover no record is pushed after the shutdown,
a run that returns loses nothing exactly if no second `pop` finds a record and the shutdown
comes in time. -/
theorem loggers_lose_nothing_iff (logger : Logger T) (actions : List (Action T)) :
    (Steps step actions (start : State logger) SecondPopIdle →
      Always step actions (start : State logger) fun s => s.pc = .loop → s.Ordered) ∧
    (Steps step actions (start : State logger) Quiet →
      ((Steps step actions (start : State logger) fun action s =>
          SecondPopIdle action s ∧ ShutdownInTime action s) →
        Always step actions (start : State logger) LosesNothing) ∧
      ∀ t, run step actions (start : State logger) = .ok t → t.pc = .returned →
        Always step actions (start : State logger) LosesNothing →
          Steps step actions (start : State logger) fun action s =>
            SecondPopIdle action s ∧ ShutdownInTime action s) := by
  refine ⟨fun hidle => (always_ordered hidle).mono fun _ h _ => h, fun hquiet => ⟨?_, ?_⟩⟩
  · intro hcond
    have hordered := always_ordered (steps_and.mp hcond).1
    have hflushed := always_flushed hquiet hcond
    intro pre hpre t ht
    exact ⟨fun _ => hordered pre hpre t ht, fun hpc => ((hflushed pre hpre t ht).returned hpc).2⟩
  · intro t hrun hret halways
    exact steps_of_losesNothing ⟨[], rfl, rfl⟩ (by simp [start]) hquiet halways hrun hret

/-- A record that arrives between the two `pop`s of an iteration is gone at the next head of the
loop; a shutdown at the end of the iteration leaves its record in the batch. -/
theorem record_lost :
    (∃ t : State packetLatencyLogger,
      run step ([.push ⟨1, 2, 3⟩] ++ List.replicate 5 (.advance false) ++ [.push ⟨4, 5, 6⟩] ++
        List.replicate 2 (.advance false)) State.start = .ok t ∧ t.pc = .loop ∧ ¬ t.Ordered) ∧
    ∃ t : State tcpResponseLogger,
      run step ([.push ⟨7, 8⟩] ++ List.replicate 7 (.advance false) ++ [.requestShutdown] ++
        List.replicate 4 (.advance false)) State.start = .ok t ∧
        t.pc = .returned ∧ t.batch = [⟨7, 8⟩] := by
  refine ⟨⟨_, rfl, rfl, State.Short.not_ordered ?_⟩, ⟨_, rfl, ?_, ?_⟩⟩
  · rw [State.Short]
    decide
  · rfl
  · rfl

end Logger

end HftProject.Challenge
