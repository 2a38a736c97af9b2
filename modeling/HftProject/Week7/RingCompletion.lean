import HftProject.Week7.Completion
import HftProject.Week7.LockFreedom
import HftProject.Week7.RingProcessing
import Mathlib.Data.Fintype.Sum

/-!
No run over the ring gets stuck either, wherever in `push` and `pop` the threads are. A thread that
is left alone in a call comes back from it; when all are back, a `pop` from a ring that is not empty
and a `push` to one that is not full succeed; so the rest of the run over the atomic queue can be
had over the ring (`every_ring_run_can_finish`).
-/

namespace HftProject.Week7

open Conservation Processing

/-! ### A thread alone in a call -/

section Alone

variable {Thread T : Type} {C : Nat} [NeZero C]

theorem advance_pushSeq (q : ConcurrentQueue T C) (spuriously : Bool) (item : T) (pos : Nat) :
    q.advance .unbounded spuriously (.pushSeq item pos) =
      if ((q.cell pos).seq : Int) - pos = 0 then .ok (q, .pushExchange item pos, none)
      else if ((q.cell pos).seq : Int) - pos < 0 then .ok (q, .pushed false, none)
      else .ok (q, .pushLoad item, none) := rfl

theorem advance_popSeq (q : ConcurrentQueue T C) (spuriously : Bool) (pos : Nat) :
    q.advance .unbounded spuriously (.popSeq pos) =
      if ((q.cell pos).seq : Int) - (pos + 1 : Nat) = 0 then .ok (q, .popExchange pos, none)
      else if ((q.cell pos).seq : Int) - (pos + 1 : Nat) < 0 then .ok (q, .popped none, none)
      else .ok (q, .popLoad, none) := rfl

/-- With unbounded counters no access fails. -/
theorem advance_defined (q : ConcurrentQueue T C) (spuriously : Bool) {loc : Local T}
    (h : loc.ready = false) :
    ∃ q' loc' event, q.advance .unbounded spuriously loc = .ok (q', loc', event) := by
  cases loc with
  | idle => cases h
  | pushed success => cases h
  | popped item => cases h
  | pushLoad item => exact ⟨_, _, _, rfl⟩
  | pushSeq item pos =>
      rw [advance_pushSeq]
      split
      · exact ⟨_, _, _, rfl⟩
      · split <;> exact ⟨_, _, _, rfl⟩
  | pushExchange item pos =>
      rw [ConcurrentQueue.advance]
      split <;> exact ⟨_, _, _, rfl⟩
  | pushWrite item pos => exact ⟨_, _, _, rfl⟩
  | pushStore item pos => exact ⟨_, _, _, rfl⟩
  | popLoad => exact ⟨_, _, _, rfl⟩
  | popSeq pos =>
      rw [advance_popSeq]
      split
      · exact ⟨_, _, _, rfl⟩
      · split <;> exact ⟨_, _, _, rfl⟩
  | popExchange pos =>
      rw [ConcurrentQueue.advance]
      split <;> exact ⟨_, _, _, rfl⟩
  | popCopy pos => exact ⟨_, _, _, rfl⟩
  | popStore pos item => exact ⟨_, _, _, rfl⟩

/-- A thread that is back has an answer or has never called. -/
theorem ready_of_answer {loc : Local T} {answer : QueueAnswer T} (h : loc.answer = some answer) :
    loc.ready = true := by
  cases loc <;> first | rfl | cases h

/-- The cell of the next ticket to pop, when nobody is in a call. -/
theorem Busy.seq_head {q : ConcurrentQueue T C} {threads : Thread → Local T}
    {log : List (Thread × Event T)} (h : Busy q threads) (hcells : Cells q log)
    (hready : ∀ w, (threads w).ready = true) :
    (q.cell q.head).seq = if q.head < q.tail then q.head + 1 else q.head := by
  split
  · rename_i hless
    rcases hcells.claimed q.head (Nat.le_refl _) hless with hseq | ⟨hseq, -⟩
    · obtain ⟨w, hw⟩ := h.filling q.head (Nat.le_refl _) hless hseq
      exact absurd hw (not_busy_of_ready (C := C) (hready w) _).1
    · exact hseq
  · rename_i hless
    have hle := hcells.le
    have hC := Nat.pos_of_ne_zero (NeZero.ne C)
    rcases hcells.free q.head (by omega) (by omega) with ⟨hseq, -⟩ | hseq
    · exact hseq
    · obtain ⟨w, hw⟩ := h.freeing q.head (by omega) (by omega) hseq
      exact absurd hw (not_busy_of_ready (hready w) _).2

/-- The cell of the next ticket to push, when nobody is in a call and there is room. -/
theorem Busy.seq_tail {q : ConcurrentQueue T C} {threads : Thread → Local T}
    {log : List (Thread × Event T)} (h : Busy q threads) (hcells : Cells q log)
    (hready : ∀ w, (threads w).ready = true) (hroom : q.tail < q.head + C) :
    (q.cell q.tail).seq = q.tail := by
  rcases hcells.free q.tail (Nat.le_refl _) hroom with ⟨hseq, -⟩ | hseq
  · exact hseq
  · obtain ⟨w, hw⟩ := h.freeing q.tail (Nat.le_refl _) hroom hseq
    exact absurd hw (not_busy_of_ready (hready w) _).2

end Alone

namespace RingProcessing

variable {N K : Nat} {t t' : RingProcessing N} {s : Processing N} {p : Fin N}
  {c : Fin numConsumersForBarrier}

/-- The turn of a thread that is in a call. -/
def turnOf : Worker N → RingTurn N
  | .inl p => .producer p false 0
  | .inr c => .consumer c false true 0

theorem push_advance {i : Nat} {order : Order} (hloc : t.globals.producers p = .pushing i order)
    (hin : (t.ring.threads (.inl p)).ready = false)
    {q' : ConcurrentQueue Order orderQueueCapacity} {loc' : Local Order}
    {event : Option (Event Order)}
    (hadvance : t.ring.queue.advance .unbounded false (t.ring.threads (.inl p)) =
      .ok (q', loc', event)) :
    t.step K (.producer p false 0) =
      .ok ⟨⟨q', Function.update t.ring.threads (.inl p) loc',
        t.ring.log ++ (event.map (.inl p, ·)).toList⟩, pushBack p i loc' t.globals⟩ := by
  have haccess : t.access (.advance (.inl p) false) =
      .ok ⟨⟨q', Function.update t.ring.threads (.inl p) loc',
        t.ring.log ++ (event.map (.inl p, ·)).toList⟩, t.globals⟩ := by
    rw [access, System.step, hadvance]
    rfl
  have hself : Function.update t.ring.threads (.inl p) loc' (.inl p) = loc' :=
    Function.update_self ..
  simp only [step, orderProducer, hloc, hin]
  change (t.access (.advance (.inl p) false) >>= _) = _
  rw [haccess]
  exact congrArg (fun loc => Except.ok (RingProcessing.mk _ (pushBack p i loc t.globals))) hself

theorem pop_advance (hloc : t.globals.consumers c = .popping)
    (hin : (t.ring.threads (.inr c)).ready = false)
    {q' : ConcurrentQueue Order orderQueueCapacity} {loc' : Local Order}
    {event : Option (Event Order)}
    (hadvance : t.ring.queue.advance .unbounded false (t.ring.threads (.inr c)) =
      .ok (q', loc', event)) :
    t.step K (.consumer c false true 0) =
      .ok ⟨⟨q', Function.update t.ring.threads (.inr c) loc',
        t.ring.log ++ (event.map (.inr c, ·)).toList⟩, popBack c 0 loc' t.globals⟩ := by
  have haccess : t.access (.advance (.inr c) false) =
      .ok ⟨⟨q', Function.update t.ring.threads (.inr c) loc',
        t.ring.log ++ (event.map (.inr c, ·)).toList⟩, t.globals⟩ := by
    rw [access, System.step, hadvance]
    rfl
  have hself : Function.update t.ring.threads (.inr c) loc' (.inr c) = loc' :=
    Function.update_self ..
  simp only [step, orderConsumer, hloc, hin]
  change (t.access (.advance (.inr c) false) >>= _) = _
  rw [haccess]
  exact congrArg (fun loc => Except.ok (RingProcessing.mk _ (popBack c 0 loc t.globals))) hself

/-- The state follows one of the atomic queue in which no step is lost. -/
def Tracked (K : Nat) (t : RingProcessing N) : Prop := ∃ s, Live K s ∧ Simulates t s

theorem Tracked.step {turn : RingTurn N} (h : Tracked K t) (hstep : t.step K turn = .ok t') :
    Tracked K t' := by
  obtain ⟨s, hlive, hsimulates⟩ := h
  obtain ⟨s', hreach, hsimulates'⟩ := hsimulates.step hstep
  exact ⟨s', hlive.reaches hreach, hsimulates'⟩

theorem Tracked.reaches (h : Tracked K t) (hreach : Run.Reaches (RingProcessing.step K) t t') :
    Tracked K t' := by
  obtain ⟨turns, hrun⟩ := hreach
  exact Run.run_invariant (fun _ _ _ h hstep => h.step hstep) h hrun

theorem Tracked.inv (h : Tracked K t) : Inv t.ring := by
  obtain ⟨s, -, o, hfollows, -⟩ := h
  exact hfollows.inv

theorem phase_of_call {T : Type} {Thread : Type} (log : List (Thread × Event T)) {loc : Local T}
    (h : loc.ready = false) : phase log loc ≠ .idle := by
  intro hphase
  cases loc <;> first | (cases hphase; done) | cases h

/-- A producer in a call is at its `push`. -/
theorem Tracked.pushing (h : Tracked K t) (hin : (t.ring.threads (.inl p)).ready = false) :
    ∃ i order, t.globals.producers p = .pushing i order := by
  obtain ⟨s, -, o, hfollows, hlinked⟩ := h
  have hlink := hlinked.producers p
  have hphase := phase_of_call t.ring.log hin
  rw [← hfollows.abstracts.phases] at hphase
  generalize t.globals.producers p = loc at hlink ⊢
  generalize s.producers p = loc' at hlink
  generalize o.phases (.inl p) = phase at hlink hphase
  cases hlink with
  | looping i => exact absurd rfl hphase
  | ready i order => exact ⟨i, order, rfl⟩
  | called i order => exact ⟨i, order, rfl⟩
  | refused i order => exact ⟨i, order, rfl⟩
  | accepted i order => exact ⟨i, order, rfl⟩

/-- A consumer in a call is at its `pop`. -/
theorem Tracked.popping (h : Tracked K t) (hin : (t.ring.threads (.inr c)).ready = false) :
    t.globals.consumers c = .popping := by
  obtain ⟨s, -, o, hfollows, hlinked⟩ := h
  by_contra hne
  have hphase := phase_of_call t.ring.log hin
  rw [← hfollows.abstracts.phases] at hphase
  exact hphase (hlinked.consumer_idle hne).1

/-- A thread in a call takes its next step. -/
theorem Tracked.advances (h : Tracked K t) {w : Worker N}
    (hin : (t.ring.threads w).ready = false) :
    ∃ t', t.step K (turnOf w) = .ok t' ∧
      t.ring.step .unbounded (.advance w false) = .ok t'.ring ∧
      ∀ w', w' ≠ w → t'.ring.threads w' = t.ring.threads w' := by
  obtain ⟨q', loc', event, hadvance⟩ := advance_defined t.ring.queue false hin
  have hring : t.ring.step .unbounded (.advance w false) =
      .ok ⟨q', Function.update t.ring.threads w loc',
        t.ring.log ++ (event.map (w, ·)).toList⟩ := by
    rw [System.step, hadvance]
    rfl
  cases w with
  | inl p =>
      obtain ⟨i, order, hloc⟩ := h.pushing hin
      exact ⟨_, push_advance hloc hin hadvance, hring, fun w' hw' => Function.update_of_ne hw' _ _⟩
  | inr c =>
      exact ⟨_, pop_advance (h.popping hin) hin hadvance, hring,
        fun w' hw' => Function.update_of_ne hw' _ _⟩

/-- A thread that is left alone comes back from its call: every step leaves it less to do. -/
theorem Tracked.comes_back (h : Tracked K t) (w : Worker N) :
    ∃ n t', Run.run (RingProcessing.step K) (List.replicate n (turnOf w)) t = .ok t' ∧
      (t'.ring.threads w).ready = true ∧
        ∀ w', w' ≠ w → t'.ring.threads w' = t.ring.threads w' := by
  induction hn : t.ring.toil using Nat.strong_induction_on generalizing t with
  | _ n ih =>
    cases hready : (t.ring.threads w).ready with
    | true => exact ⟨0, t, rfl, hready, fun _ _ => rfl⟩
    | false =>
        obtain ⟨m, hm, hring, hothers⟩ := h.advances hready
        cases hback : (m.ring.threads w).ready with
        | true => exact ⟨1, m, Run.run_cons_ok hm, hback, hothers⟩
        | false =>
            have htoil := toil_step h.inv hring
            have hanswer : (m.ring.threads w).answer = none := by
              cases hanswer : (m.ring.threads w).answer with
              | none => rfl
              | some answer => rw [ready_of_answer hanswer] at hback; cases hback
            rw [System.visible_advance hring, hanswer] at htoil
            have hless : m.ring.toil < n := by
              rw [← hn]
              exact htoil
            obtain ⟨k, t', hrun, hthere, hothers'⟩ := ih _ hless (h.step hm) rfl
            exact ⟨k + 1, t', (Run.run_cons_ok hm).trans hrun, hthere, fun w' hw' =>
              (hothers' w' hw').trans (hothers w' hw')⟩

/-- All threads are back from their calls. -/
structure Calm (K : Nat) (t : RingProcessing N) : Prop where
  tracked : Tracked K t
  ready : ∀ w, (t.ring.threads w).ready = true

theorem Tracked.calms_down (h : Tracked K t) :
    ∃ t', Run.Reaches (RingProcessing.step K) t t' ∧ Calm K t' := by
  have hbring : ∀ t : RingProcessing N, Tracked K t → ∀ w, ∃ t',
      Run.Reaches (RingProcessing.step K) t t' ∧ Tracked K t' ∧
        (t'.ring.threads w).ready = true ∧
          ∀ w', (t.ring.threads w').ready = true → (t'.ring.threads w').ready = true := by
    intro t ht w
    obtain ⟨n, t', hrun, hback, hothers⟩ := ht.comes_back w
    refine ⟨t', ⟨_, hrun⟩, ht.reaches ⟨_, hrun⟩, hback, fun w' hw' => ?_⟩
    by_cases hw : w' = w
    · rw [hw, hback]
    · rw [hothers w' hw, hw']
  obtain ⟨t', hreach, htracked, hall⟩ := reaches_forall hbring h
  exact ⟨t', hreach, htracked, hall⟩

/-! ### Calls of one thread while the others are back -/

/-- The thread is somewhere in its call. -/
def within (w : Worker N) (q : ConcurrentQueue Order orderQueueCapacity) (loc : Local Order)
    (log : List (Worker N × Event Order)) (t : RingProcessing N) : RingProcessing N :=
  ⟨⟨q, Function.update t.ring.threads w loc, log⟩, t.globals⟩

/-- The thread is where it calls. -/
def AtCall (t : RingProcessing N) : Worker N → Prop
  | .inl p => ∃ i order, t.globals.producers p = .pushing i order
  | .inr c => t.globals.consumers c = .popping

section Within

variable {w : Worker N} {q q' : ConcurrentQueue Order orderQueueCapacity} {loc loc' : Local Order}
  {event : Option (Event Order)} (log : List (Worker N × Event Order))

theorem enter_push {i : Nat} {order : Order} (hloc : t.globals.producers p = .pushing i order)
    (hready : (t.ring.threads (.inl p)).ready = true) :
    t.step K (.producer p false 0) =
      .ok (t.within (.inl p) t.ring.queue (.pushLoad order) t.ring.log) := by
  simp [step, orderProducer, hloc, hready, access, System.step, System.enter, within, bind,
    Except.bind, pure, Except.pure]

theorem enter_pop (hloc : t.globals.consumers c = .popping)
    (hready : (t.ring.threads (.inr c)).ready = true) :
    t.step K (.consumer c false true 0) =
      .ok (t.within (.inr c) t.ring.queue .popLoad t.ring.log) := by
  simp [step, orderConsumer, hloc, hready, access, System.step, System.enter, within, bind,
    Except.bind, pure, Except.pure]

/-- The call goes on. -/
theorem goes (hat : t.AtCall w) (hin : loc.ready = false) (hanswer : loc'.answer = none)
    (hadvance : q.advance .unbounded false loc = .ok (q', loc', event)) :
    ∃ log', (t.within w q loc log).step K (turnOf w) = .ok (t.within w q' loc' log') := by
  have hself : (t.within w q loc log).ring.threads w = loc := Function.update_self ..
  have hthreads : Function.update (t.within w q loc log).ring.threads w loc' =
      Function.update t.ring.threads w loc' := Function.update_idem ..
  cases w with
  | inl p =>
      obtain ⟨i, order, hloc⟩ := hat
      have hstep := push_advance (K := K) (t := t.within (.inl p) q loc log) hloc
        (by rw [hself, hin]) (by rw [hself]; exact hadvance)
      rw [hthreads, pushBack_none hanswer] at hstep
      exact ⟨_, hstep⟩
  | inr c =>
      have hstep := pop_advance (K := K) (t := t.within (.inr c) q loc log) hat
        (by rw [hself, hin]) (by rw [hself]; exact hadvance)
      rw [hthreads, popBack_none hanswer] at hstep
      exact ⟨_, hstep⟩

/-- The `push` is back. -/
theorem back_push {i : Nat} {order : Order} (hloc : t.globals.producers p = .pushing i order)
    (hin : loc.ready = false)
    (hadvance : q.advance .unbounded false loc = .ok (q', loc', event)) :
    ∃ log', (t.within (.inl p) q loc log).step K (.producer p false 0) =
      .ok ⟨⟨q', Function.update t.ring.threads (.inl p) loc', log'⟩,
        pushBack p i loc' t.globals⟩ := by
  have hself : (t.within (.inl p) q loc log).ring.threads (.inl p) = loc :=
    Function.update_self ..
  have hstep := push_advance (K := K) (t := t.within (.inl p) q loc log) hloc
    (by rw [hself, hin]) (by rw [hself]; exact hadvance)
  rw [within, Function.update_idem] at hstep
  exact ⟨_, hstep⟩

/-- The `pop` is back. -/
theorem back_pop (hloc : t.globals.consumers c = .popping) (hin : loc.ready = false)
    (hadvance : q.advance .unbounded false loc = .ok (q', loc', event)) :
    ∃ log', (t.within (.inr c) q loc log).step K (.consumer c false true 0) =
      .ok ⟨⟨q', Function.update t.ring.threads (.inr c) loc', log'⟩,
        popBack c 0 loc' t.globals⟩ := by
  have hself : (t.within (.inr c) q loc log).ring.threads (.inr c) = loc :=
    Function.update_self ..
  have hstep := pop_advance (K := K) (t := t.within (.inr c) q loc log) hloc
    (by rw [hself, hin]) (by rw [hself]; exact hadvance)
  rw [within, Function.update_idem] at hstep
  exact ⟨_, hstep⟩

end Within

theorem Calm.seq_head (h : Calm K t) : (t.ring.queue.cell t.ring.queue.head).seq =
    if t.ring.queue.head < t.ring.queue.tail then t.ring.queue.head + 1
    else t.ring.queue.head := by
  obtain ⟨s, -, o, hfollows, -⟩ := h.tracked
  exact hfollows.busy.seq_head hfollows.inv.cells h.ready

theorem Calm.seq_tail (h : Calm K t)
    (hroom : t.ring.queue.tail < t.ring.queue.head + orderQueueCapacity) :
    (t.ring.queue.cell t.ring.queue.tail).seq = t.ring.queue.tail := by
  obtain ⟨s, -, o, hfollows, -⟩ := h.tracked
  exact hfollows.busy.seq_tail hfollows.inv.cells h.ready hroom

/-- The thread is back, as the others are. -/
theorem Calm.back (h : Calm K t) (hreach : Run.Reaches (RingProcessing.step K) t t')
    {w : Worker N} {loc : Local Order} (hloc : loc.ready = true)
    (hthreads : t'.ring.threads = Function.update t.ring.threads w loc) : Calm K t' := by
  refine ⟨h.tracked.reaches hreach, fun w' => ?_⟩
  rw [hthreads]
  by_cases hw : w' = w
  · rw [hw, Function.update_self, hloc]
  · rw [Function.update_of_ne hw, h.ready w']

/-- A `pop` from a ring that is not empty takes an order. -/
theorem Calm.pops (h : Calm K t) (hloc : t.globals.consumers c = .popping)
    (hless : t.ring.queue.head < t.ring.queue.tail) :
    ∃ t' order, Run.Reaches (RingProcessing.step K) t t' ∧ Calm K t' ∧
      t'.globals = t.globals.setConsumer c (.acquiring order) ∧
      t'.ring.queue.head = t.ring.queue.head + 1 ∧ t'.ring.queue.tail = t.ring.queue.tail := by
  have hseq := h.seq_head
  rw [if_pos hless] at hseq
  have hat : t.AtCall (.inr c) := hloc
  have hready : t.ring.queue.advance .unbounded false (.popSeq t.ring.queue.head) =
      .ok (t.ring.queue, .popExchange t.ring.queue.head, none) := by
    rw [advance_popSeq, hseq, if_pos (by omega)]
  have hclaim : t.ring.queue.advance .unbounded false (.popExchange t.ring.queue.head) =
      .ok ({ t.ring.queue with head := t.ring.queue.head + 1 }, .popCopy t.ring.queue.head,
        some (.claimPop t.ring.queue.head)) := if_pos ⟨rfl, rfl⟩
  obtain ⟨log₂, h₂⟩ := goes (K := K) t.ring.log hat rfl rfl
    (rfl : t.ring.queue.advance .unbounded false .popLoad = _)
  obtain ⟨log₃, h₃⟩ := goes (K := K) log₂ hat rfl rfl hready
  obtain ⟨log₄, h₄⟩ := goes (K := K) log₃ hat rfl rfl hclaim
  obtain ⟨log₅, h₅⟩ := goes (K := K) log₄ hat rfl rfl
    (rfl : ({ t.ring.queue with head := t.ring.queue.head + 1 } : ConcurrentQueue Order
      orderQueueCapacity).advance .unbounded false (.popCopy t.ring.queue.head) = _)
  obtain ⟨log₆, h₆⟩ := back_pop (K := K) log₅ hloc rfl
    (rfl : ConcurrentQueue.advance .unbounded false _ (.popStore _ _) = _)
  have hreach := Run.Reaches.head (enter_pop (K := K) hloc (h.ready _))
    (.head h₂ (.head h₃ (.head h₄ (.head h₅ (.head h₆ (.refl _))))))
  exact ⟨_, _, hreach, h.back hreach rfl rfl, rfl, rfl, rfl⟩

/-- A `pop` from an empty ring fails. -/
theorem Calm.pops_nothing (h : Calm K t) (hloc : t.globals.consumers c = .popping)
    (hempty : t.ring.queue.head = t.ring.queue.tail) :
    ∃ t', Run.Reaches (RingProcessing.step K) t t' ∧ Calm K t' ∧
      t'.globals = t.globals.setConsumer c .checking ∧ t'.ring.queue = t.ring.queue := by
  have hseq := h.seq_head
  rw [if_neg (by omega)] at hseq
  have hat : t.AtCall (.inr c) := hloc
  have hfails : t.ring.queue.advance .unbounded false (.popSeq t.ring.queue.head) =
      .ok (t.ring.queue, .popped none, none) := by
    rw [advance_popSeq, hseq, if_neg (by omega), if_pos (by omega)]
  obtain ⟨log₂, h₂⟩ := goes (K := K) t.ring.log hat rfl rfl
    (rfl : t.ring.queue.advance .unbounded false .popLoad = _)
  obtain ⟨log₃, h₃⟩ := back_pop (K := K) log₂ hloc rfl hfails
  have hreach := Run.Reaches.head (enter_pop (K := K) hloc (h.ready _))
    (.head h₂ (.head h₃ (.refl _)))
  exact ⟨_, hreach, h.back hreach rfl rfl, rfl, rfl⟩

/-- A `push` to a ring that is not full leaves the order there. -/
theorem Calm.pushes (h : Calm K t) {i : Nat} {order : Order}
    (hloc : t.globals.producers p = .pushing i order)
    (hroom : t.ring.queue.tail < t.ring.queue.head + orderQueueCapacity) :
    ∃ t', Run.Reaches (RingProcessing.step K) t t' ∧ Calm K t' ∧
      t'.globals = t.globals.setProducer p (.looping (i + 1)) ∧
      t'.ring.queue.head = t.ring.queue.head ∧ t'.ring.queue.tail = t.ring.queue.tail + 1 := by
  have hseq := h.seq_tail hroom
  have hat : t.AtCall (.inl p) := ⟨i, order, hloc⟩
  have hready : t.ring.queue.advance .unbounded false (.pushSeq order t.ring.queue.tail) =
      .ok (t.ring.queue, .pushExchange order t.ring.queue.tail, none) := by
    rw [advance_pushSeq, hseq, if_pos (by omega)]
  have hclaim : t.ring.queue.advance .unbounded false (.pushExchange order t.ring.queue.tail) =
      .ok ({ t.ring.queue with tail := t.ring.queue.tail + 1 }, .pushWrite order t.ring.queue.tail,
        some (.claimPush t.ring.queue.tail order)) := if_pos ⟨rfl, rfl⟩
  obtain ⟨log₂, h₂⟩ := goes (K := K) t.ring.log hat rfl rfl
    (rfl : t.ring.queue.advance .unbounded false (.pushLoad order) = _)
  obtain ⟨log₃, h₃⟩ := goes (K := K) log₂ hat rfl rfl hready
  obtain ⟨log₄, h₄⟩ := goes (K := K) log₃ hat rfl rfl hclaim
  obtain ⟨log₅, h₅⟩ := goes (K := K) log₄ hat rfl rfl
    (rfl : ({ t.ring.queue with tail := t.ring.queue.tail + 1 } : ConcurrentQueue Order
      orderQueueCapacity).advance .unbounded false (.pushWrite order t.ring.queue.tail) = _)
  obtain ⟨log₆, h₆⟩ := back_push (K := K) log₅ hloc rfl
    (rfl : ConcurrentQueue.advance .unbounded false _ (.pushStore _ _) = _)
  have hreach := Run.Reaches.head (enter_push (K := K) hloc (h.ready _))
    (.head h₂ (.head h₃ (.head h₄ (.head h₅ (.head h₆ (.refl _))))))
  exact ⟨_, hreach, h.back hreach rfl rfl, rfl, rfl, rfl⟩

/-! ### The rest of the run -/

theorem untimed_same (loc : Consumer) : loc.untimed.slots = loc.slots ∧
    loc.untimed.outside = loc.outside := by
  cases loc <;> exact ⟨rfl, rfl⟩

/-- What the threads have come to here is what they have come to over the atomic queue. -/
structure Agrees (t : RingProcessing N) (s : Processing N) : Prop where
  producers : s.producers = t.globals.producers
  consumers : ∀ c, s.consumers c = (t.globals.consumers c).untimed
  queue : t.ring.queue.head = t.ring.queue.tail ↔ s.orderQueue.items = []
  ordersProcessed : s.ordersProcessed = t.globals.ordersProcessed
  totalExpectedOrders : s.totalExpectedOrders = t.globals.totalExpectedOrders
  processingSemaphore : s.processingSemaphore = t.globals.processingSemaphore

theorem Calm.agrees (h : Calm K t) : ∃ s, Live K s ∧ Agrees t s := by
  obtain ⟨s, hlive, o, hfollows, hlinked⟩ := h.tracked
  have hidle : ∀ w, o.phases w = .idle := fun w => by
    rw [hfollows.abstracts.phases, phase_of_ready (h.ready w)]
  refine ⟨s, hlive, ?_, fun c => ?_, ⟨fun heq => ?_, fun hempty => ?_⟩,
    hlinked.ordersProcessed, hlinked.totalExpectedOrders, hlinked.processingSemaphore⟩
  · funext p
    have hlink := hlinked.producers p
    rw [hidle] at hlink
    generalize t.globals.producers p = loc at hlink ⊢
    generalize s.producers p = loc' at hlink ⊢
    cases hlink <;> rfl
  · have hlink := hlinked.consumers c
    rw [hidle] at hlink
    generalize t.globals.consumers c = loc at hlink ⊢
    generalize s.consumers c = loc' at hlink ⊢
    cases hlink
    rfl
  · rw [hlinked.orderQueue, hfollows.abstracts.items, System.contents, List.drop_eq_nil_iff,
      hfollows.inv.items_length, heq]
  · exact Simulates.empty ⟨o, hfollows, hlinked⟩ hempty

theorem Calm.slot_left (h : Calm K t) (hc : (t.globals.consumers c).slots = 0) :
    0 < t.globals.processingSemaphore := by
  obtain ⟨s, hlive, hagrees⟩ := h.agrees
  rw [← hagrees.processingSemaphore]
  refine hlive.slot_left (c := c) ?_
  rw [hagrees.consumers, (untimed_same _).1, hc]

/-- A producer makes no more orders than it should. -/
theorem Calm.made (h : Calm K t) (p : Fin N) :
    (∀ i, t.globals.producers p = .looping i → i ≤ K) ∧
      ∀ i order, t.globals.producers p = .pushing i order → i < K := by
  obtain ⟨s, hlive, hagrees⟩ := h.agrees
  have hnext := hlive.accounts.next p
  have hmade := hlive.accounts.made p
  rw [hagrees.producers] at hnext hmade
  exact ⟨fun i hi => by rwa [hi] at hnext, fun i order hi => (hmade i order hi).1⟩

/-- All orders are made, popped and counted. -/
structure Done (K : Nat) (t : RingProcessing N) : Prop where
  empty : t.ring.queue.head = t.ring.queue.tail
  counted : t.globals.totalExpectedOrders ≤ t.globals.ordersProcessed
  produced : ∀ p, t.globals.producers p = .looping K

theorem Calm.done_of_outside (h : Calm K t) (hleft : (t.globals.consumers c).outside = true) :
    Done K t := by
  obtain ⟨s, hlive, hagrees⟩ := h.agrees
  obtain ⟨hall, hproducers, hempty, -⟩ := hlive.accounts.finished (c := c)
    (by rw [hagrees.consumers, (untimed_same _).2, hleft])
  refine ⟨hagrees.queue.mpr hempty, ?_, by rw [← hagrees.producers]; exact hproducers⟩
  rw [← hagrees.totalExpectedOrders, ← hagrees.ordersProcessed, hall, hlive.accounts.expected]

theorem Calm.done_of_popping (h : Calm K t) (hempty : t.ring.queue.head = t.ring.queue.tail)
    (hpopping : ∀ c, t.globals.consumers c = .popping)
    (hproduced : ∀ p, t.globals.producers p = .looping K) : Done K t := by
  obtain ⟨s, hlive, hagrees⟩ := h.agrees
  have hbetween : Between s fun _ => K :=
    ⟨hagrees.queue.mp hempty,
      by rw [hagrees.processingSemaphore]; exact h.slot_left (c := 0) (by rw [hpopping]; rfl),
      by rw [hagrees.producers]; exact hproduced,
      fun c => by rw [hagrees.consumers, hpopping]; rfl⟩
  refine ⟨hempty, ?_, hproduced⟩
  rw [← hagrees.totalExpectedOrders, ← hagrees.ordersProcessed]
  exact hbetween.counted hlive.accounts

/-- A step of a consumer away from the ring. -/
theorem apart_consumer (hne : t.globals.consumers c ≠ .popping) {g : Processing N}
    (hstep : t.globals.step K (.consumer c false true 0) = .ok g) :
    t.step K (.consumer c false true 0) = .ok { t with globals := g } := by
  have happart : t.step K (.consumer c false true 0) =
      t.apart K (.consumer c false true 0) := by
    rw [step, orderConsumer]
    cases hc : t.globals.consumers c <;> first | rfl | exact absurd hc hne
  rw [happart, apart, hstep]
  rfl

theorem Calm.apart {turn : RingTurn N} {g : Processing N} (h : Calm K t)
    (hstep : t.step K turn = .ok { t with globals := g }) : Calm K { t with globals := g } :=
  ⟨h.tracked.step hstep, h.ready⟩

/-- A consumer comes to the head of its loop or to the barrier. -/
theorem Calm.comes_home (h : Calm K t) (hopen : t.globals.latchOpen = true)
    (c : Fin numConsumersForBarrier) : ∃ g,
      Run.Reaches (RingProcessing.step K) t { t with globals := g } ∧
        Calm K { t with globals := g } ∧ g.latchOpen = true ∧ (g.consumers c).way = 0 ∧
        (∀ c', c' ≠ c → g.consumers c' = t.globals.consumers c') ∧
          g.producers = t.globals.producers := by
  induction hn : (t.globals.consumers c).way using Nat.strong_induction_on generalizing t with
  | _ n ih =>
    by_cases hway : (t.globals.consumers c).way = 0
    · exact ⟨t.globals, .refl t, h, hopen, hway, fun _ _ => rfl, rfl⟩
    · obtain ⟨m, hm⟩ := next_step (K := K) hopen h.slot_left hway
      obtain ⟨loc, hadvances⟩ := orderConsumer_advances hm
      have hne : t.globals.consumers c ≠ .popping := fun hloc => hway (by rw [hloc]; rfl)
      have hstep := apart_consumer hne hm
      have hnearer : (m.consumers c).way < n := by
        rw [← hn, hadvances.consumers, Function.update_self]
        exact hadvances.nearer hway
      obtain ⟨g, hg, hcalm, hopen', hhome, hothers, hproducers⟩ :=
        ih _ hnearer (h.apart hstep) (hadvances.latchOpen.trans hopen) rfl
      refine ⟨g, .head hstep hg, hcalm, hopen', hhome, fun c' hc' => ?_,
        hproducers.trans (orderConsumer_consumes hm).producers⟩
      rw [hothers c' hc']
      change m.consumers c' = _
      rw [hadvances.consumers, Function.update_of_ne hc']

/-- The consumers are at the heads of their loops or at the barrier. -/
structure Home (K : Nat) (t : RingProcessing N) : Prop where
  calm : Calm K t
  latchOpen : t.globals.latchOpen = true
  home : ∀ c, (t.globals.consumers c).way = 0

theorem Calm.all_home (h : Calm K t) :
    ∃ t', Run.Reaches (RingProcessing.step K) t t' ∧ Home K t' := by
  have hopen : t.step K .countDown =
      .ok { t with globals := { t.globals with latchOpen := true } } := rfl
  have hbring : ∀ t : RingProcessing N, Calm K t ∧ t.globals.latchOpen = true →
      ∀ c, ∃ t', Run.Reaches (RingProcessing.step K) t t' ∧
        (Calm K t' ∧ t'.globals.latchOpen = true) ∧ (t'.globals.consumers c).way = 0 ∧
          ∀ c', (t.globals.consumers c').way = 0 → (t'.globals.consumers c').way = 0 := by
    rintro t ⟨hcalm, hlatch⟩ c
    obtain ⟨g, hg, hcalm', hlatch', hhome, hothers, -⟩ := hcalm.comes_home hlatch c
    refine ⟨_, hg, ⟨hcalm', hlatch'⟩, hhome, fun c' hc' => ?_⟩
    by_cases hc : c' = c
    · rw [hc]
      exact hhome
    · change (g.consumers c').way = 0
      rw [hothers c' hc, hc']
  obtain ⟨t', ht', ⟨hcalm, hlatch⟩, hall⟩ := reaches_forall hbring ⟨h.apart hopen, rfl⟩
  exact ⟨t', .head hopen ht', hcalm, hlatch, hall⟩

/-- What is left to do for a producer: three steps of work for every order, one of which is
left for the consumers. -/
def producerLeft (K : Nat) : Producer → Nat
  | .looping i => 3 * (K - i)
  | .pushing i _ => 3 * (K - i) - 1

/-- What is left to do until all orders are processed. -/
def left (K : Nat) (t : RingProcessing N) : Nat :=
  total (fun _ => producerLeft K) t.globals.producers + (t.ring.queue.tail - t.ring.queue.head)

theorem left_producer (loc : Producer) (less : Nat)
    (h : producerLeft K loc + less = producerLeft K (t.globals.producers p)) :
    total (fun _ => producerLeft K) (t.globals.setProducer p loc).producers + less =
      total (fun _ => producerLeft K) t.globals.producers := by
  have hupdate := total_update (fun _ => producerLeft K) t.globals.producers p loc
  change total _ (Function.update t.globals.producers p loc) + less = _
  omega

/-- A consumer at the head of its loop takes the order at the head of the ring. -/
theorem Home.takes (h : Home K t) (hloc : t.globals.consumers c = .popping)
    (hless : t.ring.queue.head < t.ring.queue.tail) :
    ∃ t', Run.Reaches (RingProcessing.step K) t t' ∧ Home K t' ∧ left K t' < left K t := by
  obtain ⟨m, order, hm, hcalm, hglobals, hhead, htail⟩ := h.calm.pops hloc hless
  have hopen : m.globals.latchOpen = true := by
    rw [hglobals]
    exact h.latchOpen
  obtain ⟨g, hg, hcalm', hopen', hhome, hothers, hproducers⟩ := hcalm.comes_home hopen c
  refine ⟨_, hm.trans hg, ⟨hcalm', hopen', fun c' => ?_⟩, ?_⟩
  · by_cases hc : c' = c
    · rw [hc]
      exact hhome
    · change (g.consumers c').way = 0
      rw [hothers c' hc, hglobals]
      change (Function.update t.globals.consumers c _ c').way = 0
      rw [Function.update_of_ne hc, h.home c']
  · have hsame : g.producers = t.globals.producers := by rw [hproducers, hglobals]; rfl
    rw [left, left]
    change total _ g.producers + (m.ring.queue.tail - m.ring.queue.head) < _
    rw [hsame, hhead, htail]
    omega

/-- A producer makes or pushes its next order. -/
theorem Home.produces (h : Home K t) (hempty : t.ring.queue.head = t.ring.queue.tail)
    (hp : t.globals.producers p ≠ .looping K) :
    ∃ t', Run.Reaches (RingProcessing.step K) t t' ∧ Home K t' ∧ left K t' < left K t := by
  obtain ⟨hlooping, hpushing⟩ := h.calm.made p
  cases hloc : t.globals.producers p with
  | looping i =>
      have hi : i < K := by
        refine Nat.lt_of_le_of_ne (hlooping i hloc) fun heq => hp ?_
        rw [hloc, heq]
      have hstep : t.step K (.producer p false 0) = .ok { t with
          globals := t.globals.setProducer p (.pushing i (producedOrder p i 0)) } := by
        simp [step, orderProducer, hloc, RingProcessing.apart, Processing.step,
          Processing.orderProducer, hi, bind, Except.bind, pure, Except.pure]
      have hless := left_producer (K := K) (.pushing i (producedOrder p i 0)) 1
        (by rw [hloc, producerLeft, producerLeft]; omega)
      refine ⟨_, .head hstep (.refl _), ⟨h.calm.apart hstep, h.latchOpen, h.home⟩, ?_⟩
      rw [left, left]
      change total _ (t.globals.setProducer p _).producers +
        (t.ring.queue.tail - t.ring.queue.head) < _
      omega
  | pushing i order =>
      have hi := hpushing i order hloc
      have hroom : t.ring.queue.tail < t.ring.queue.head + orderQueueCapacity := by
        rw [hempty]
        exact Nat.lt_add_of_pos_right (by decide)
      obtain ⟨t', ht', hcalm, hglobals, hhead, htail⟩ := h.calm.pushes hloc hroom
      have hless := left_producer (K := K) (.looping (i + 1)) 2
        (by rw [hloc, producerLeft, producerLeft]; omega)
      refine ⟨t', ht', ⟨hcalm, by rw [hglobals]; exact h.latchOpen, fun c => ?_⟩, ?_⟩
      · rw [hglobals]
        exact h.home c
      · rw [left, left, hglobals, hhead, htail]
        omega

/-- All orders are processed. -/
theorem Home.all_done (h : Home K t) :
    ∃ t', Run.Reaches (RingProcessing.step K) t t' ∧ Home K t' ∧ Done K t' := by
  induction hn : left K t using Nat.strong_induction_on generalizing t with
  | _ n ih =>
    have hgo : ∀ m, Run.Reaches (RingProcessing.step K) t m → Home K m → left K m < left K t →
        ∃ t', Run.Reaches (RingProcessing.step K) t t' ∧ Home K t' ∧ Done K t' := by
      intro m hm hhome hless
      obtain ⟨t', ht', hhome', hdone⟩ := ih _ (hn ▸ hless) hhome rfl
      exact ⟨t', hm.trans ht', hhome', hdone⟩
    by_cases hpopping : ∀ c, t.globals.consumers c = .popping
    · rcases Nat.lt_or_ge t.ring.queue.head t.ring.queue.tail with hless | hge
      · obtain ⟨m, hm, hhome, hless'⟩ := h.takes (hpopping 0) hless
        exact hgo m hm hhome hless'
      · have hempty := Nat.le_antisymm h.calm.tracked.inv.cells.le hge
        by_cases hproduced : ∀ p, t.globals.producers p = .looping K
        · exact ⟨t, .refl t, h, h.calm.done_of_popping hempty hpopping hproduced⟩
        · obtain ⟨p, hp⟩ := not_forall.mp hproduced
          obtain ⟨m, hm, hhome, hless⟩ := h.produces hempty hp
          exact hgo m hm hhome hless
    · -- somebody has left the loop, so everything is counted
      obtain ⟨c, hc⟩ := not_forall.mp hpopping
      have hat := (Consumer.way_zero (h.home c)).resolve_left hc
      have hleft : (t.globals.consumers c).outside = true := by
        rcases Consumer.atBarrier_iff.mp hat with hplace | hplace
        · rw [hplace]
          rfl
        · rw [hplace]
          rfl
      exact ⟨t, .refl t, h, h.calm.done_of_outside hleft⟩

/-- A consumer that finds the ring empty and everything counted arrives at the barrier. -/
theorem Home.arrives (h : Home K t) (hdone : Done K t)
    (hloc : t.globals.consumers c = .popping) :
    ∃ t', Run.Reaches (RingProcessing.step K) t t' ∧ Home K t' ∧ Done K t' ∧
      t'.globals.consumers = Function.update t.globals.consumers c .arrived := by
  obtain ⟨m, hm, hcalm, hglobals, hqueue⟩ := h.calm.pops_nothing hloc hdone.empty
  have hat : ∀ loc, (t.globals.setConsumer c loc).consumers c = loc :=
    fun loc => Function.update_self ..
  have hagain : ∀ loc loc', (t.globals.setConsumer c loc).setConsumer c loc' =
      t.globals.setConsumer c loc' := fun loc loc' => by
    simp only [setConsumer, Function.update_idem]
  have hthere : ∀ loc, loc ≠ .popping → ∀ loc',
      (t.globals.setConsumer c loc).step K (.consumer c false true 0) =
        .ok ((t.globals.setConsumer c loc).setConsumer c loc') →
      Calm K { m with globals := t.globals.setConsumer c loc } →
      ({ m with globals := t.globals.setConsumer c loc } : RingProcessing N).step K
          (.consumer c false true 0) = .ok { m with globals := t.globals.setConsumer c loc' } ∧
        Calm K { m with globals := t.globals.setConsumer c loc' } := by
    intro loc hne loc' hstep hcalm
    rw [hagain] at hstep
    have hring := apart_consumer (t := { m with globals := t.globals.setConsumer c loc })
      (by rw [hat]; exact hne) hstep
    exact ⟨hring, hcalm.apart hring⟩
  have hm' : m = { m with globals := t.globals.setConsumer c .checking } := by rw [← hglobals]
  obtain ⟨h₁, hcalm₁⟩ := hthere .checking (by rintro ⟨⟩)
    (.loadedProcessed t.globals.ordersProcessed)
    (by simp only [Processing.step, Processing.orderConsumer, hat]; rfl) (hm' ▸ hcalm)
  obtain ⟨h₂, hcalm₂⟩ := hthere (.loadedProcessed t.globals.ordersProcessed) (by rintro ⟨⟩)
    .left
    (by
      have hstop : stopOrContinue t.globals.ordersProcessed t.globals.totalExpectedOrders = .left :=
        if_pos hdone.counted
      simp only [Processing.step, Processing.orderConsumer, hat]
      exact congrArg (fun loc => Except.ok (setConsumer _ c loc)) hstop) hcalm₁
  obtain ⟨h₃, hcalm₃⟩ := hthere .left (by rintro ⟨⟩) .arrived
    (by simp only [Processing.step, Processing.orderConsumer, hat]) hcalm₂
  refine ⟨_, (hm' ▸ hm).trans (.head h₁ (.head h₂ (.head h₃ (.refl _)))),
    ⟨hcalm₃, h.latchOpen, fun c' => ?_⟩, ⟨?_, hdone.counted, hdone.produced⟩, rfl⟩
  · change (Function.update t.globals.consumers c .arrived c').way = 0
    by_cases hc : c' = c
    · rw [hc, Function.update_self]
      rfl
    · rw [Function.update_of_ne hc, h.home c']
  · change m.ring.queue.head = m.ring.queue.tail
    rw [hqueue, hdone.empty]

theorem Home.all_arrive (h : Home K t) (hdone : Done K t) :
    ∃ t', Run.Reaches (RingProcessing.step K) t t' ∧ (Home K t' ∧ Done K t') ∧
      ∀ c, (t'.globals.consumers c).atBarrier = true := by
  have hbring : ∀ t : RingProcessing N, Home K t ∧ Done K t → ∀ c, ∃ t',
      Run.Reaches (RingProcessing.step K) t t' ∧ (Home K t' ∧ Done K t') ∧
        (t'.globals.consumers c).atBarrier = true ∧
          ∀ c', (t.globals.consumers c').atBarrier = true →
            (t'.globals.consumers c').atBarrier = true := by
    rintro t ⟨hhome, hdone⟩ c
    rcases Consumer.way_zero (hhome.home c) with hloc | hat
    · obtain ⟨t', ht', hhome', hdone', hconsumers⟩ := hhome.arrives hdone hloc
      refine ⟨t', ht', ⟨hhome', hdone'⟩, ?_, fun c' hc' => ?_⟩
      · rw [hconsumers, Function.update_self]
        rfl
      · rw [hconsumers]
        by_cases hc : c' = c
        · rw [hc, Function.update_self]
          rfl
        · rw [Function.update_of_ne hc, hc']
    · exact ⟨t, .refl t, ⟨hhome, hdone⟩, hat, fun _ h => h⟩
  exact reaches_forall hbring ⟨h, hdone⟩

/-- The barrier lets everybody through. -/
theorem Done.all_finish (h : Done K t)
    (hbarrier : ∀ c, (t.globals.consumers c).atBarrier = true) :
    ∃ t', Run.Reaches (RingProcessing.step K) t t' ∧ Done K t' ∧
      ∀ c, t'.globals.consumers c = .finished := by
  have hbring : ∀ t : RingProcessing N, Done K t ∧
      (∀ c, t.globals.consumers c = .arrived ∨ t.globals.consumers c = .finished) → ∀ c, ∃ t',
      Run.Reaches (RingProcessing.step K) t t' ∧ (Done K t' ∧
        ∀ c, t'.globals.consumers c = .arrived ∨ t'.globals.consumers c = .finished) ∧
        t'.globals.consumers c = .finished ∧
          ∀ c', t.globals.consumers c' = .finished → t'.globals.consumers c' = .finished := by
    rintro t ⟨hdone, hplaces⟩ c
    rcases hplaces c with hloc | hloc
    · have hstep := apart_consumer (by rw [hloc]; exact nofun)
        (arrived_step (K := K) hplaces hloc)
      refine ⟨_, .head hstep (.refl _), ⟨⟨hdone.empty, hdone.counted, hdone.produced⟩,
        fun c' => ?_⟩, Function.update_self .., fun c' hc' => ?_⟩
      · change Function.update t.globals.consumers c .finished c' = _ ∨ _
        by_cases hc : c' = c
        · exact .inr (by rw [hc]; exact Function.update_self ..)
        · rw [Function.update_of_ne hc]
          exact (hplaces c').imp_right fun hfinished =>
            (Function.update_of_ne hc _ _).trans hfinished
      · change Function.update t.globals.consumers c .finished c' = .finished
        by_cases hc : c' = c
        · rw [hc, Function.update_self]
        · rw [Function.update_of_ne hc, hc']
    · exact ⟨t, .refl t, ⟨hdone, hplaces⟩, hloc, fun _ h => h⟩
  obtain ⟨t', ht', ⟨hdone', -⟩, hall⟩ := reaches_forall hbring
    ⟨h, fun c => Consumer.atBarrier_iff.mp (hbarrier c)⟩
  exact ⟨t', ht', hdone', hall⟩

theorem start_tracked (q : ConcurrentQueue Order orderQueueCapacity) :
    Tracked K (start q N K) := ⟨_, start_live, start_simulates q⟩

/-- In every state of every run over the ring a thread that is left alone comes back from its call,
a consumer at the semaphore finds a slot, and the run can go on until all threads have finished and
the ring is empty. -/
theorem every_ring_run_can_finish (q : ConcurrentQueue Order orderQueueCapacity)
    (turns : List (RingTurn N)) (hrun : Run.run (step K) turns (start q N K) = .ok t) :
    (∀ w, ∃ n t', Run.run (step K) (List.replicate n (turnOf w)) t = .ok t' ∧
      (t'.ring.threads w).ready = true) ∧
    (∀ c order, t.globals.consumers c = .acquiring order → 0 < t.globals.processingSemaphore) ∧
    ∃ rest t', Run.run (step K) rest t = .ok t' ∧ (∀ c, t'.globals.consumers c = .finished) ∧
      (∀ p, t'.globals.producers p = .looping K) ∧ t'.ring.queue.head = t'.ring.queue.tail := by
  have htracked : Tracked K t := (start_tracked q).reaches ⟨turns, hrun⟩
  refine ⟨fun w => ?_, fun c order hloc => ?_, ?_⟩
  · obtain ⟨n, t', hback, hready, -⟩ := htracked.comes_back w
    exact ⟨n, t', hback, hready⟩
  · obtain ⟨s, hlive, o, -, hlinked⟩ := htracked
    rw [← hlinked.processingSemaphore]
    refine hlive.slot_left (c := c) ?_
    rw [(hlinked.consumer_idle (by rw [hloc]; exact nofun)).2, (untimed_same _).1, hloc]
    rfl
  · obtain ⟨t₁, h₁, hcalm⟩ := htracked.calms_down
    obtain ⟨t₂, h₂, hhome⟩ := hcalm.all_home
    obtain ⟨t₃, h₃, hhome', hdone⟩ := hhome.all_done
    obtain ⟨t₄, h₄, ⟨-, hdone'⟩, hbarrier⟩ := hhome'.all_arrive hdone
    obtain ⟨t₅, h₅, hdone'', hfinished⟩ := hdone'.all_finish hbarrier
    obtain ⟨rest, hrest⟩ := h₁.trans (h₂.trans (h₃.trans (h₄.trans h₅)))
    exact ⟨rest, t₅, hrest, hfinished, hdone''.produced, hdone''.empty⟩

/-- The producer has claimed a ticket and written nothing; a consumer waits behind it. -/
def claimedTicket : List (RingTurn 1) := oneOrderOverRing.take 9

theorem every_ring_run_can_finish_sample :
    ∃ t : RingProcessing 1, Run.run (step 1) claimedTicket (start usedQueue 1 1) = .ok t ∧
      (t.ring.threads (.inl ⟨0, Nat.zero_lt_one⟩)).ready = false ∧
      ∃ rest t', Run.run (step 1) rest t = .ok t' ∧ (∀ c, t'.globals.consumers c = .finished) ∧
        (∀ p, t'.globals.producers p = .looping 1) ∧ t'.ring.queue.head = t'.ring.queue.tail :=
  ⟨_, rfl, rfl, (every_ring_run_can_finish (K := 1) usedQueue claimedTicket rfl).2.2⟩

end RingProcessing

end HftProject.Week7
