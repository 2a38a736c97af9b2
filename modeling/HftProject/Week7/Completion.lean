import HftProject.Week7.OrderIds

/-!
No run of the processing gets stuck. There is a slot for every consumer, so none of them waits at
the semaphore, and a consumer that has passed the barrier has seen all of them there. From every
state of every run the consumers can be brought back to the head of their loops, the queue can be
emptied and the producers served, and then all threads come to their ends
(`every_run_can_finish`).
-/

namespace HftProject.Week7

open Conservation Processing

variable {N K : Nat}

/-- The slots of the semaphore that the consumer has taken. -/
def Consumer.slots : Consumer → Nat
  | .processing _ _ => 1
  | _ => 0

/-- The steps to the head of the loop, or to the barrier. -/
def Consumer.way : Consumer → Nat
  | .waiting => 1
  | .popping => 0
  | .checking => 3
  | .loadedProcessed _ => 2
  | .loadedExpected _ => 2
  | .acquiring _ => 5
  | .processing _ _ => 4
  | .applying _ _ _ => 3
  | .recording _ _ _ => 2
  | .counting _ => 1
  | .left => 1
  | .arrived => 0
  | .finished => 0

/-- The consumer is at the barrier or has passed it. -/
def Consumer.atBarrier : Consumer → Bool
  | .arrived => true
  | .finished => true
  | _ => false

theorem Consumer.slots_le (loc : Consumer) : loc.slots ≤ 1 := by
  cases loc <;> first | exact Nat.le_refl 1 | exact Nat.zero_le 1

theorem Consumer.atBarrier_iff {loc : Consumer} :
    loc.atBarrier = true ↔ loc = .arrived ∨ loc = .finished := by
  constructor
  · intro h
    cases loc <;> first | exact .inl rfl | exact .inr rfl | cases h
  · rintro (rfl | rfl) <;> rfl

theorem Consumer.way_zero {loc : Consumer} (h : loc.way = 0) :
    loc = .popping ∨ loc.atBarrier = true := by
  cases loc <;> first | exact .inl rfl | exact .inr rfl | cases h

theorem stopOrContinue_inside (processed expected : Nat) :
    (stopOrContinue processed expected).way < 2 ∧ (stopOrContinue processed expected).slots = 0 ∧
      stopOrContinue processed expected ≠ .finished := by
  unfold stopOrContinue
  split
  · exact ⟨Nat.lt_add_one 1, rfl, nofun⟩
  · exact ⟨Nat.zero_lt_two, rfl, nofun⟩

/-! ### What a step does to the semaphore and the barrier -/

/-- What is left of the semaphore, and where the consumer is. -/
structure Advances (s : Processing N) (c : Fin numConsumersForBarrier) (s' : Processing N)
    (loc : Consumer) : Prop where
  consumers : s'.consumers = Function.update s.consumers c loc
  latchOpen : s'.latchOpen = s.latchOpen
  slots : s'.processingSemaphore + loc.slots = s.processingSemaphore + (s.consumers c).slots
  nearer : (s.consumers c).way ≠ 0 → loc.way < (s.consumers c).way
  released : loc = .finished → ∀ c, (s.consumers c).atBarrier = true
  passed : (s.consumers c).atBarrier = true → loc = .finished

/-- A step that does not concern the barrier. -/
theorem Advances.inside {s s' : Processing N} {c : Fin numConsumersForBarrier} {loc loc' : Consumer}
    (hloc : s.consumers c = loc) (hconsumers : s'.consumers = Function.update s.consumers c loc')
    (hlatch : s'.latchOpen = s.latchOpen)
    (hslots : s'.processingSemaphore + loc'.slots = s.processingSemaphore + loc.slots)
    (hnearer : loc.way ≠ 0 → loc'.way < loc.way) (hat : loc.atBarrier = false)
    (hnot : loc' ≠ .finished) : Advances s c s' loc' := by
  subst hloc
  exact ⟨hconsumers, hlatch, hslots, hnearer, fun h => absurd h hnot, fun h => by
    rw [hat] at h
    cases h⟩

theorem orderConsumer_advances {s s' : Processing N} {c : Fin numConsumersForBarrier}
    {refuses processedFirst : Bool} {now : Int}
    (h : s.orderConsumer c refuses processedFirst now = .ok s') : ∃ loc, Advances s c s' loc := by
  unfold orderConsumer at h
  cases hloc : s.consumers c with
  | waiting =>
      simp only [hloc] at h
      split at h
      · cases h
        exact ⟨_, .inside hloc rfl rfl rfl (fun _ => Nat.le_refl 1) rfl nofun⟩
      · cases h
  | popping =>
      simp only [hloc] at h
      split at h
      · cases h
        exact ⟨_, .inside hloc rfl rfl rfl (fun h => absurd rfl h) rfl nofun⟩
      · cases h
        exact ⟨_, .inside hloc rfl rfl rfl (fun h => absurd rfl h) rfl nofun⟩
  | checking =>
      simp only [hloc] at h
      cases h
      cases processedFirst with
      | false => exact ⟨_, .inside hloc rfl rfl rfl (fun _ => Nat.le_refl 3) rfl nofun⟩
      | true => exact ⟨_, .inside hloc rfl rfl rfl (fun _ => Nat.le_refl 3) rfl nofun⟩
  | loadedProcessed processed =>
      simp only [hloc] at h
      cases h
      obtain ⟨hway, hslots, hnot⟩ := stopOrContinue_inside processed s.totalExpectedOrders
      exact ⟨_, .inside hloc rfl rfl (congrArg (s.processingSemaphore + ·) hslots) (fun _ => hway)
        rfl hnot⟩
  | loadedExpected expected =>
      simp only [hloc] at h
      cases h
      obtain ⟨hway, hslots, hnot⟩ := stopOrContinue_inside s.ordersProcessed expected
      exact ⟨_, .inside hloc rfl rfl (congrArg (s.processingSemaphore + ·) hslots) (fun _ => hway)
        rfl hnot⟩
  | acquiring order =>
      simp only [hloc] at h
      split at h
      · rename_i hslots
        cases h
        exact ⟨_, .inside hloc rfl rfl (Nat.sub_add_cancel hslots) (fun _ => Nat.le_refl 5) rfl
          nofun⟩
      · cases h
  | processing order procStart =>
      simp only [hloc] at h
      cases h
      exact ⟨_, .inside hloc rfl rfl rfl (fun _ => Nat.le_refl 4) rfl nofun⟩
  | applying order procStart procEnd =>
      simp only [hloc] at h
      cases h
      exact ⟨_, .inside hloc rfl rfl rfl (fun _ => Nat.le_refl 3) rfl nofun⟩
  | recording order procStart procEnd =>
      simp only [hloc] at h
      cases h
      exact ⟨_, .inside hloc rfl rfl rfl (fun _ => Nat.le_refl 2) rfl nofun⟩
  | counting order =>
      simp only [hloc] at h
      cases h
      exact ⟨_, .inside hloc rfl rfl rfl (fun _ => Nat.le_refl 1) rfl nofun⟩
  | left =>
      simp only [hloc] at h
      cases h
      exact ⟨_, .inside hloc rfl rfl rfl (fun _ => Nat.le_refl 1) rfl nofun⟩
  | arrived =>
      simp only [hloc] at h
      split at h
      · rename_i hall
        cases h
        refine ⟨.finished, rfl, rfl, by rw [hloc]; rfl, fun hway => ?_, fun _ c' => ?_,
          fun _ => rfl⟩
        · rw [hloc] at hway
          exact absurd rfl hway
        · exact Consumer.atBarrier_iff.mpr (hall c')
      · cases h
  | finished =>
      simp only [hloc] at h
      cases h

/-! ### No step is lost -/

/-- The accounts are right, the slots are with the semaphore or with consumers, and a consumer has
passed the barrier only when all were there. -/
structure Live (K : Nat) (s : Processing N) : Prop where
  accounts : Accounts K s
  slots : s.processingSemaphore + total (fun _ loc => loc.slots) s.consumers =
    numConsumersForBarrier
  barrier : ∀ c, s.consumers c = .finished → ∀ c', (s.consumers c').atBarrier = true

theorem Live.advances {s s' : Processing N} {c : Fin numConsumersForBarrier} {loc : Consumer}
    (h : Live K s) (haccounts : Accounts K s') (hadvances : Advances s c s' loc) : Live K s' := by
  refine ⟨haccounts, ?_, fun other hother c' => ?_⟩
  · rw [hadvances.consumers]
    refine balance_update h.slots ?_
    rw [hadvances.slots]
  · rw [hadvances.consumers] at hother ⊢
    have hall : loc = .finished ∧ ∀ c', (s.consumers c').atBarrier = true := by
      by_cases hc : other = c
      · rw [hc, Function.update_self] at hother
        exact ⟨hother, hadvances.released hother⟩
      · rw [Function.update_of_ne hc] at hother
        have hbarrier := h.barrier other hother
        exact ⟨hadvances.passed (hbarrier c), hbarrier⟩
    by_cases hc : c' = c
    · rw [hc, Function.update_self, hall.1]
      rfl
    · rw [Function.update_of_ne hc]
      exact hall.2 c'

theorem Live.step {s s' : Processing N} {turn : Turn N} (h : Live K s)
    (hstep : s.step K turn = .ok s') : Live K s' := by
  have haccounts := h.accounts.step hstep
  cases turn with
  | countDown =>
      cases hstep
      exact ⟨haccounts, h.slots, h.barrier⟩
  | producer p refuses now =>
      cases orderProducer_produces hstep with
      | make now hloc hi => exact ⟨haccounts, h.slots, h.barrier⟩
      | push hloc items => exact ⟨haccounts, h.slots, h.barrier⟩
      | retry => exact h
  | consumer c refuses processedFirst now =>
      obtain ⟨loc, hadvances⟩ := orderConsumer_advances hstep
      exact h.advances haccounts hadvances

theorem start_live : Live K (start N K) where
  accounts := start_accounts
  slots := by
    have hnone : total (fun _ (loc : Consumer) => loc.slots) (start N K).consumers = 0 :=
      total_zero fun _ => rfl
    rw [hnone]
    rfl
  barrier _ h := by cases h

theorem Live.reaches {s s' : Processing N} (h : Live K s)
    (hreaches : Run.Reaches (Processing.step K) s s') : Live K s' := by
  obtain ⟨turns, hrun⟩ := hreaches
  exact Run.run_invariant (fun _ _ _ h hstep => h.step hstep) h hrun

/-- A consumer that has no slot finds one. -/
theorem Live.slot_left {s : Processing N} (h : Live K s) {c : Fin numConsumersForBarrier}
    (hc : (s.consumers c).slots = 0) : 0 < s.processingSemaphore := by
  have hmore : total (fun _ (loc : Consumer) => loc.slots)
      (Function.update s.consumers c (.processing (producedOrder 0 0 0) 0)) =
        total (fun _ loc => loc.slots) s.consumers + 1 := total_update_gain hc
  have hbound : total (fun _ (loc : Consumer) => loc.slots)
      (Function.update s.consumers c (.processing (producedOrder 0 0 0) 0)) ≤
        numConsumersForBarrier := by
    refine (Finset.sum_le_card_nsmul _ _ 1 fun c' _ => Consumer.slots_le _).trans_eq ?_
    simp
  have hslots := h.slots
  omega

/-! ### All threads come to their ends -/

/-- A consumer on its way takes its next step. -/
theorem next_step {s : Processing N} (hopen : s.latchOpen = true)
    {c : Fin numConsumersForBarrier} (hslot : (s.consumers c).slots = 0 → 0 < s.processingSemaphore)
    (hway : (s.consumers c).way ≠ 0) : ∃ s', s.step K (.consumer c false true 0) = .ok s' := by
  simp only [Processing.step]
  unfold orderConsumer
  cases hloc : s.consumers c with
  | waiting => simp [hopen]
  | acquiring order =>
      have hfree := hslot (by rw [hloc]; rfl)
      simp [hfree]
  | popping => exact absurd (by rw [hloc]; rfl) hway
  | arrived => exact absurd (by rw [hloc]; rfl) hway
  | finished => exact absurd (by rw [hloc]; rfl) hway
  | checking => exact ⟨_, rfl⟩
  | loadedProcessed processed => exact ⟨_, rfl⟩
  | loadedExpected expected => exact ⟨_, rfl⟩
  | processing order procStart => exact ⟨_, rfl⟩
  | applying order procStart procEnd => exact ⟨_, rfl⟩
  | recording order procStart procEnd => exact ⟨_, rfl⟩
  | counting order => exact ⟨_, rfl⟩
  | left => exact ⟨_, rfl⟩

/-- A consumer comes to the head of its loop or to the barrier, and the others stay. -/
theorem Live.comes_home {s : Processing N} (h : Live K s) (hopen : s.latchOpen = true)
    (c : Fin numConsumersForBarrier) : ∃ s', Run.Reaches (Processing.step K) s s' ∧
      s'.latchOpen = true ∧ (s'.consumers c).way = 0 ∧
        ∀ c', c' ≠ c → s'.consumers c' = s.consumers c' := by
  induction hn : (s.consumers c).way using Nat.strong_induction_on generalizing s with
  | _ n ih =>
    by_cases hway : (s.consumers c).way = 0
    · exact ⟨s, .refl s, hopen, hway, fun _ _ => rfl⟩
    · obtain ⟨m, hm⟩ := next_step hopen h.slot_left hway
      obtain ⟨loc, hadvances⟩ := orderConsumer_advances hm
      have hnearer : (m.consumers c).way < n := by
        rw [← hn, hadvances.consumers, Function.update_self]
        exact hadvances.nearer hway
      obtain ⟨t, ht, hopen', hhome, hothers⟩ :=
        ih _ hnearer (h.step hm) (hadvances.latchOpen.trans hopen) rfl
      refine ⟨t, .head hm ht, hopen', hhome, fun c' hc' => ?_⟩
      rw [hothers c' hc', hadvances.consumers, Function.update_of_ne hc']

/-- All consumers come to the heads of their loops or to the barrier. -/
theorem Live.all_home {s : Processing N} (h : Live K s) :
    ∃ s', Run.Reaches (Processing.step K) s s' ∧ Live K s' ∧ ∀ c, (s'.consumers c).way = 0 := by
  have hopen : s.step K .countDown = .ok { s with latchOpen := true } := rfl
  have hbring : ∀ t : Processing N, Live K t ∧ t.latchOpen = true →
      ∀ c, ∃ t', Run.Reaches (Processing.step K) t t' ∧ (Live K t' ∧ t'.latchOpen = true) ∧
        (t'.consumers c).way = 0 ∧
          ∀ c', (t.consumers c').way = 0 → (t'.consumers c').way = 0 := by
    rintro t ⟨hlive, hlatch⟩ c
    obtain ⟨t', ht, hlatch', hhome, hothers⟩ := hlive.comes_home hlatch c
    refine ⟨t', ht, ⟨hlive.reaches ht, hlatch'⟩, hhome, fun c' hc' => ?_⟩
    by_cases hc : c' = c
    · rw [hc, hhome]
    · rw [hothers c' hc, hc']
  obtain ⟨t, ht, ⟨hlive, -⟩, hall⟩ := reaches_forall hbring ⟨h.step hopen, rfl⟩
  exact ⟨t, .head hopen ht, hlive, hall⟩

/-- A consumer takes the order at the head of the queue through all stages. -/
theorem take_reaches {s : Processing N} {c : Fin numConsumersForBarrier} {order : Order}
    {rest : List Order} (hqueue : s.orderQueue.items = order :: rest)
    (hslots : 0 < s.processingSemaphore) (hloc : s.consumers c = .popping) :
    ∃ s', Run.Reaches (Processing.step K) s s' ∧ s'.orderQueue.items = rest ∧
      s'.producers = s.producers ∧ s'.consumers = s.consumers := by
  obtain ⟨hsome, hrest⟩ := BoundedFifo.pop_cons hqueue
  have hpop : s.orderQueue.pop = (some order, s.orderQueue.pop.2) := Prod.ext hsome rfl
  have htake : s.step K (.consumer c false true 0) =
      .ok ({ s with orderQueue := s.orderQueue.pop.2 }.setConsumer c
        (.acquiring { order with dequeueTime := 0 })) := by
    simp only [Processing.step, orderConsumer, hloc]
    rw [hpop]
  have hacquiring : ({ s with orderQueue := s.orderQueue.pop.2 }.setConsumer c
      (.acquiring { order with dequeueTime := 0 })).consumers c =
        .acquiring { order with dequeueTime := 0 } := Function.update_self ..
  refine ⟨_, .head htake ⟨_, acquiring_run hslots hacquiring⟩, hrest, rfl, ?_⟩
  change Function.update (Function.update s.consumers c _) c .popping = s.consumers
  rw [Function.update_idem, ← hloc, Function.update_eq_self]

/-- The consumers empty the queue. -/
theorem Live.drains {s : Processing N} (h : Live K s) (hpopping : ∀ c, s.consumers c = .popping) :
    ∃ s', Run.Reaches (Processing.step K) s s' ∧ s'.orderQueue.items = [] ∧
      s'.producers = s.producers ∧ ∀ c, s'.consumers c = .popping := by
  induction hitems : s.orderQueue.items generalizing s with
  | nil => exact ⟨s, .refl s, hitems, rfl, hpopping⟩
  | cons order rest ih =>
      have hslots := h.slot_left (c := 0) (by rw [hpopping]; rfl)
      obtain ⟨m, hm, hrest, hproducers, hconsumers⟩ := take_reaches hitems hslots (hpopping 0)
      obtain ⟨t, ht, hempty, hproducers', hpopping'⟩ :=
        ih (h.reaches hm) (fun c => by rw [hconsumers]; exact hpopping c) hrest
      exact ⟨t, hm.trans ht, hempty, hproducers'.trans hproducers, hpopping'⟩

/-- The consumers pop from an empty queue. -/
structure Emptied (K : Nat) (s : Processing N) : Prop where
  live : Live K s
  queue : s.orderQueue.items = []
  consumers : ∀ c, s.consumers c = .popping

/-- A producer comes to the head of its loop, and the others stay. -/
theorem Emptied.producer_loops {s : Processing N} (h : Emptied K s) (p : Fin N) :
    ∃ s', Run.Reaches (Processing.step K) s s' ∧ Emptied K s' ∧
      (∃ i, s'.producers p = .looping i) ∧ ∀ p', p' ≠ p → s'.producers p' = s.producers p' := by
  cases hloc : s.producers p with
  | looping i => exact ⟨s, .refl s, h, ⟨i, hloc⟩, fun _ _ => rfl⟩
  | pushing i order =>
      have hroom : s.orderQueue.items.length < orderQueueCapacity := by
        rw [h.queue]
        decide
      obtain ⟨hpush, hitems⟩ := s.orderQueue.push_room order hroom
      have hstep : s.step K (.producer p false 0) =
          .ok ({ s with orderQueue := (s.orderQueue.push order).2 }.setProducer p
            (.looping (i + 1))) := by
        simp [Processing.step, orderProducer, hloc, hpush]
      obtain ⟨t, ht, hempty, hproducers, hpopping⟩ := (h.live.step hstep).drains h.consumers
      refine ⟨t, .head hstep ht, ⟨(h.live.step hstep).reaches ht, hempty, hpopping⟩, ⟨i + 1, ?_⟩,
        fun p' hp' => ?_⟩
      · rw [hproducers]
        exact Function.update_self ..
      · rw [hproducers]
        exact Function.update_of_ne hp' _ _

/-- All producers come to the heads of their loops. -/
theorem Emptied.reaches_between {s : Processing N} (h : Emptied K s) :
    ∃ s' made, Run.Reaches (Processing.step K) s s' ∧ Live K s' ∧ Between s' made := by
  have hbring : ∀ t : Processing N, Emptied K t → ∀ p, ∃ t', Run.Reaches (Processing.step K) t t' ∧
      Emptied K t' ∧ (∃ i, t'.producers p = .looping i) ∧
        ∀ p', (∃ i, t.producers p' = .looping i) → ∃ i, t'.producers p' = .looping i := by
    intro t ht p
    obtain ⟨t', hreach, hemptied, hloops, hothers⟩ := ht.producer_loops p
    refine ⟨t', hreach, hemptied, hloops, fun p' hp' => ?_⟩
    by_cases hp : p' = p
    · exact hp ▸ hloops
    · rwa [hothers p' hp]
  obtain ⟨t, ht, hemptied, hall⟩ := reaches_forall hbring h
  choose made hmade using hall
  have hslots := hemptied.live.slot_left (c := 0) (by rw [hemptied.consumers]; rfl)
  exact ⟨t, made, ht, hemptied.live, hemptied.queue, hslots, hmade, hemptied.consumers⟩

/-- All orders are counted, and the consumers are at the heads of their loops or at the barrier. -/
structure Closing (K : Nat) (s : Processing N) : Prop where
  live : Live K s
  queue : s.orderQueue.items = []
  counted : s.totalExpectedOrders ≤ s.ordersProcessed
  consumers : ∀ c, (s.consumers c).way = 0

theorem Live.reaches_closing {s : Processing N} (h : Live K s) :
    ∃ s', Run.Reaches (Processing.step K) s s' ∧ Closing K s' := by
  obtain ⟨m, hm, hlive, hhome⟩ := h.all_home
  by_cases hpopping : ∀ c, m.consumers c = .popping
  · obtain ⟨d, hd, hempty, -, hpopping'⟩ := hlive.drains hpopping
    obtain ⟨b, made, hb, hlive', hbetween⟩ :=
      Emptied.reaches_between ⟨hlive.reaches hd, hempty, hpopping'⟩
    have hmade : ∀ p, made p ≤ K := by
      intro p
      have hnext := hlive'.accounts.next p
      rwa [hbetween.producers p] at hnext
    obtain ⟨t, ht, hend⟩ := hbetween.reaches_end hmade
    have hlive'' := hlive'.reaches ht
    exact ⟨t, hm.trans (hd.trans (hb.trans ht)), hlive'', hend.queue,
      hend.counted hlive''.accounts, fun c => by rw [hend.consumers c]; rfl⟩
  · -- somebody has left the loop, so everything is counted
    obtain ⟨c, hc⟩ := not_forall.mp hpopping
    have hat := (Consumer.way_zero (hhome c)).resolve_left hc
    have hleft : (m.consumers c).outside = true := by
      rcases Consumer.atBarrier_iff.mp hat with hplace | hplace
      · rw [hplace]
        rfl
      · rw [hplace]
        rfl
    obtain ⟨hall, -, hempty, -⟩ := hlive.accounts.finished hleft
    exact ⟨m, hm, hlive, hempty, by rw [hall, hlive.accounts.expected], hhome⟩

theorem Closing.all_arrive {s : Processing N} (h : Closing K s) :
    ∃ s', Run.Reaches (Processing.step K) s s' ∧ Live K s' ∧
      ∀ c, (s'.consumers c).atBarrier = true := by
  have hbring : ∀ t : Processing N, Closing K t → ∀ c, ∃ t',
      Run.Reaches (Processing.step K) t t' ∧ Closing K t' ∧ (t'.consumers c).atBarrier = true ∧
        ∀ c', (t.consumers c').atBarrier = true → (t'.consumers c').atBarrier = true := by
    intro t ht c
    rcases Consumer.way_zero (ht.consumers c) with hloc | hat
    · have hrun := leaving_run (K := K) ht.queue ht.counted hloc
      have harrived : ∀ c', c' ≠ c → (t.setConsumer c .arrived).consumers c' = t.consumers c' :=
        fun c' hc' => Function.update_of_ne hc' _ _
      have hself : (t.setConsumer c .arrived).consumers c = .arrived := Function.update_self ..
      refine ⟨_, ⟨_, hrun⟩, ⟨ht.live.reaches ⟨_, hrun⟩, ht.queue, ht.counted, fun c' => ?_⟩,
        by rw [hself]; rfl, fun c' hc' => ?_⟩
      · by_cases hc : c' = c
        · rw [hc, hself]
          rfl
        · rw [harrived c' hc]
          exact ht.consumers c'
      · by_cases hc : c' = c
        · rw [hc, hself]
          rfl
        · rw [harrived c' hc, hc']
    · exact ⟨t, .refl t, ht, hat, fun _ h => h⟩
  obtain ⟨t, ht, hclosing, hall⟩ := reaches_forall hbring h
  exact ⟨t, ht, hclosing.live, hall⟩

/-- The barrier lets everybody through. -/
theorem all_finish {s : Processing N} (h : ∀ c, (s.consumers c).atBarrier = true) :
    ∃ s', Run.Reaches (Processing.step K) s s' ∧ ∀ c, s'.consumers c = .finished := by
  have hbring : ∀ t : Processing N, (∀ c, (t.consumers c).atBarrier = true) → ∀ c, ∃ t',
      Run.Reaches (Processing.step K) t t' ∧ (∀ c, (t'.consumers c).atBarrier = true) ∧
        t'.consumers c = .finished ∧
          ∀ c', t.consumers c' = .finished → t'.consumers c' = .finished := by
    intro t ht c
    have hplaces := fun c => Consumer.atBarrier_iff.mp (ht c)
    have hself : (t.setConsumer c .finished).consumers c = .finished := Function.update_self ..
    have hother : ∀ c', c' ≠ c → (t.setConsumer c .finished).consumers c' = t.consumers c' :=
      fun c' hc' => Function.update_of_ne hc' _ _
    rcases hplaces c with hloc | hloc
    · refine ⟨_, .head (arrived_step hplaces hloc) (.refl _), fun c' => ?_, hself, fun c' hc' => ?_⟩
      · by_cases hc : c' = c
        · rw [hc, hself]
          rfl
        · rw [hother c' hc]
          exact ht c'
      · by_cases hc : c' = c
        · rw [hc, hself]
        · rw [hother c' hc, hc']
    · exact ⟨t, .refl t, ht, hloc, fun _ h => h⟩
  obtain ⟨t, ht, -, hall⟩ := reaches_forall hbring h
  exact ⟨t, ht, hall⟩

/-- In every state of every run a consumer at the semaphore finds a slot, and the run can go on
until all threads have finished. -/
theorem every_run_can_finish (turns : List (Turn N)) {s : Processing N}
    (hrun : Run.run (Processing.step K) turns (start N K) = .ok s) :
    (∀ c order, s.consumers c = .acquiring order → 0 < s.processingSemaphore) ∧
      ∃ rest s', Run.run (Processing.step K) rest s = .ok s' ∧
        (∀ c, s'.consumers c = .finished) ∧ ∀ p, s'.producers p = .looping K := by
  have h : Live K s := start_live.reaches ⟨turns, hrun⟩
  refine ⟨fun c order hloc => h.slot_left (c := c) (by rw [hloc]; rfl), ?_⟩
  obtain ⟨m, hm, hclosing⟩ := h.reaches_closing
  obtain ⟨b, hb, hlive, hat⟩ := hclosing.all_arrive
  obtain ⟨t, ht, hfinished⟩ := all_finish (K := K) hat
  obtain ⟨rest, hrest⟩ := hm.trans (hb.trans ht)
  have hproducers := ((hlive.reaches ht).accounts.finished (c := 0) (by rw [hfinished]; rfl)).2.1
  exact ⟨rest, t, hrest, hfinished, hproducers⟩

/-- Both producers are about to push their first orders, and a consumer has found the queue
empty. -/
def outOfStep : List (Turn 2) :=
  [.producer ⟨0, by decide⟩ false 0, .producer ⟨1, by decide⟩ true 0, .countDown] ++
    List.replicate 3 (.consumer ⟨0, by decide⟩ false true 0)

theorem every_run_can_finish_sample : ∃ s : Processing 2,
    Run.run (Processing.step 3) outOfStep (start 2 3) = .ok s ∧
      ∃ rest s', Run.run (Processing.step 3) rest s = .ok s' ∧
        (∀ c, s'.consumers c = .finished) ∧ ∀ p, s'.producers p = .looping 3 :=
  ⟨_, rfl, (every_run_can_finish (K := 3) outOfStep rfl).2⟩

end HftProject.Week7
