import HftProject.Challenge.Workers
import HftProject.Lib.Conservation

/-!
The receiving side of the client: the handler of the UDP socket pushes packets, the worker threads
pop and process them, and the signal handler requests the shutdown at any time. A step is one access
to what the threads share. The queue gives out its items in the order of their tickets; a `push`
drops its packet when there is no room, and also while a `pop` has not returned, and a `pop` may
find nothing while a `push` has not returned. `is_empty` loads two counters, in an order that the
language leaves open.

Every packet is processed once at most, and what the workers do is what `Workers` do with the
packets that were accepted. When all of them have stopped, every packet that was popped has been
processed, and every packet that was accepted before the shutdown has been popped
(`pipeline_drains`).
-/

namespace HftProject

open Conservation

/-- Which counter `is_empty` loads first. -/
inductive LoadOrder where
  | headFirst
  | tailFirst
deriving DecidableEq, Repr

/-- Where a thread is in `worker_thread_function`. A ticket is a packet's place in the queue. -/
inductive Place where
  /-- Before `!shutdown_requested` at the head of the loop. -/
  | loop
  /-- Before the first load of `is_empty`. -/
  | firstLoad
  /-- Before the other one. -/
  | secondLoad (first : Nat)
  | pop
  /-- In `process_queued_message`. -/
  | processing (ticket : Nat)
  /-- Before the latency record is pushed. -/
  | record (ticket : Nat)
  | stopped
deriving DecidableEq, Repr

/-- At the place a worker has no ticket. -/
def Place.free : Place → Bool
  | .processing _ => false
  | .record _ => false
  | _ => true

/-- Where the handler of the UDP socket is. -/
inductive Receiver where
  | waiting
  /-- `shutdown_requested` has been read, and the packet is not yet pushed. -/
  | received (packet : Text)
  | stopped
deriving DecidableEq, Repr

/-- The threads and what they share. `accepted` are the packets that the queue has taken, `head` the
number of those that were popped, `processed` the tickets whose latency records were pushed, and
`acceptedBefore` the number of packets accepted when the shutdown was requested. -/
structure Pipeline (W D : Type) where
  workers : Workers W D
  accepted : List Text
  head : Nat
  places : W → Place
  receiver : Receiver
  acceptedBefore : Option Nat
  processed : List Nat

namespace Pipeline

inductive Action (W : Type) where
  | receive (packet : Text)
  | push (dropped : Bool)
  | requestShutdown
  /-- A worker goes on. Its `pop` may find nothing. -/
  | advance (worker : W) (found : Bool)

inductive Fault where
  | notReady
deriving DecidableEq, Repr

def udpPacketQueueCapacity : Nat := 8192

variable {W D : Type}

def start : Pipeline W D :=
  ⟨.start .start, [], 0, fun _ => .loop, .waiting, none, []⟩

/-- `shutdown_requested` -/
def shutdownRequested (s : Pipeline W D) : Bool := s.acceptedBefore.isSome

def receive (packet : Text) (s : Pipeline W D) : Except Fault (Pipeline W D) :=
  match s.receiver with
  | .waiting =>
      .ok { s with receiver := if s.shutdownRequested then .stopped else .received packet }
  | _ => .error .notReady

/-- The push, and `start_udp_receive`. -/
def push (dropped : Bool) (s : Pipeline W D) : Except Fault (Pipeline W D) :=
  match s.receiver with
  | .received packet =>
      let s := { s with receiver := if s.shutdownRequested then .stopped else .waiting }
      if dropped then .ok s
      else if s.accepted.length < s.head + udpPacketQueueCapacity then
        .ok { s with accepted := s.accepted ++ [packet] }
      else .error .notReady
  | _ => .error .notReady

/-- The first load of `is_empty`. -/
def load (order : LoadOrder) (s : Pipeline W D) : Nat :=
  match order with
  | .headFirst => s.head
  | .tailFirst => s.accepted.length

/-- What `is_empty` returns at the second load. -/
def isEmpty (order : LoadOrder) (first : Nat) (s : Pipeline W D) : Bool :=
  match order with
  | .headFirst => first = s.accepted.length
  | .tailFirst => s.head = first

variable [DecidableEq W] (fmt : PriceFormat D) (order : LoadOrder)

def goto (worker : W) (place : Place) (s : Pipeline W D) : Pipeline W D :=
  { s with places := Function.update s.places worker place }

/-- The next section of `process_queued_message`. -/
def nextSection (worker : W) (ticket : Nat) (s : Pipeline W D) : Section W :=
  match s.workers.workers worker with
  | .idle => .update worker ticket
  | .updated => .check worker
  | .responded _ => .reset worker

def advance (worker : W) (found : Bool) (s : Pipeline W D) : Except Fault (Pipeline W D) :=
  match s.places worker with
  | .loop => .ok (s.goto worker (if s.shutdownRequested then .firstLoad else .pop))
  | .firstLoad => .ok (s.goto worker (.secondLoad (s.load order)))
  | .secondLoad first => .ok (s.goto worker (if s.isEmpty order first then .stopped else .pop))
  | .pop =>
      if found then
        if s.head < s.accepted.length then
          .ok ({ s with head := s.head + 1 }.goto worker (.processing s.head))
        else .error .notReady
      else .ok (s.goto worker .loop)
  | .processing ticket =>
      match Workers.step fmt s.accepted (s.nextSection worker ticket) s.workers with
      | .ok workers =>
          .ok ({ s with workers := workers }.goto worker
            (if workers.workers worker = Worker.idle then .record ticket
            else .processing ticket))
      | .error _ => .error .notReady
  | .record ticket => .ok ({ s with processed := s.processed ++ [ticket] }.goto worker .loop)
  | .stopped => .error .notReady

def step (action : Action W) (s : Pipeline W D) : Except Fault (Pipeline W D) :=
  match action with
  | .receive packet => s.receive packet
  | .push dropped => s.push dropped
  | .requestShutdown =>
      .ok { s with acceptedBefore := some (s.acceptedBefore.getD s.accepted.length) }
  | .advance worker found => s.advance fmt order worker found

/-! ### What holds in every state -/

/-- A worker's place, and where it is in `process_queued_message`. -/
def agents (s : Pipeline W D) (worker : W) : Place × Worker :=
  (s.places worker, s.workers.workers worker)

/-- The tickets that are popped and not yet processed. -/
def held : W → Place × Worker → Multiset Nat
  | _, (.processing ticket, _) => {ticket}
  | _, (.record ticket, _) => {ticket}
  | _, _ => 0

/-- The tickets that are popped and whose packets are not yet taken. -/
def untaken : W → Place × Worker → Multiset Nat
  | _, (.processing ticket, .idle) => {ticket}
  | _, _ => 0

/-- Away from `process_queued_message` a worker is in none of its sections. -/
def Apart : Place × Worker → Prop
  | (.processing _, _) => True
  | (_, worker) => worker = .idle

/-- What a worker that is about to stop has seen. -/
def Seen (order : LoadOrder) (s : Pipeline W D) : Place → Prop
  | .firstLoad => ∃ n, s.acceptedBefore = some n
  | .secondLoad first =>
      ∃ n, s.acceptedBefore = some n ∧
        match order with
        | .headFirst => first ≤ s.head
        | .tailFirst => n ≤ first
  | .stopped => ∃ n, s.acceptedBefore = some n ∧ n ≤ s.head
  | _ => True

variable [Fintype W]

structure Inv (s : Pipeline W D) : Prop where
  refines : ∃ sections, Run.run (Workers.step fmt s.accepted) sections (.start .start) =
    .ok s.workers
  head_le : s.head ≤ s.accepted.length
  before : ∀ n, s.acceptedBefore = some n → n ≤ s.accepted.length
  apart : ∀ worker, Apart (s.agents worker)
  seen : ∀ worker, s.Seen order (s.places worker)
  popped : (s.processed : Multiset Nat) + total held s.agents = Multiset.range s.head
  taken : (s.workers.taken : Multiset Nat) + total untaken s.agents = Multiset.range s.head

variable {fmt order} {s s' : Pipeline W D}

omit [DecidableEq W] [Fintype W] in
/-- What was seen stays so. -/
theorem Seen.mono {place : Place} (h : s.Seen order place) (hhead : s.head ≤ s'.head)
    (hbefore : ∀ n, s.acceptedBefore = some n → s'.acceptedBefore = some n) :
    s'.Seen order place := by
  cases place with
  | firstLoad =>
      obtain ⟨n, hn⟩ := h
      exact ⟨n, hbefore n hn⟩
  | secondLoad first =>
      obtain ⟨n, hn, hfirst⟩ := h
      refine ⟨n, hbefore n hn, ?_⟩
      cases order with
      | headFirst => exact Nat.le_trans hfirst hhead
      | tailFirst => exact hfirst
  | stopped =>
      obtain ⟨n, hn, hle⟩ := h
      exact ⟨n, hbefore n hn, Nat.le_trans hle hhead⟩
  | loop => trivial
  | pop => trivial
  | processing ticket => trivial
  | record ticket => trivial

omit [DecidableEq W] [Fintype W] in
theorem held_free (worker : W) {place : Place} {w : Worker} (h : place.free) :
    held worker (place, w) = 0 ∧ untaken worker (place, w) = 0 ∧
      (Apart (place, w) ↔ w = .idle) := by
  cases place with
  | processing ticket => cases h
  | record ticket => cases h
  | loop => exact ⟨rfl, rfl, Iff.rfl⟩
  | firstLoad => exact ⟨rfl, rfl, Iff.rfl⟩
  | secondLoad first => exact ⟨rfl, rfl, Iff.rfl⟩
  | pop => exact ⟨rfl, rfl, Iff.rfl⟩
  | stopped => exact ⟨rfl, rfl, Iff.rfl⟩

omit [Fintype W] in
theorem agents_update {worker : W} {place : Place} {w : Worker}
    (hplaces : s'.places = Function.update s.places worker place)
    (hworkers : s'.workers.workers = Function.update s.workers.workers worker w) :
    s'.agents = Function.update s.agents worker (place, w) := by
  funext other
  rw [agents, hplaces, hworkers]
  by_cases heq : other = worker
  · subst heq
    rw [Function.update_self, Function.update_self, Function.update_self]
  · rw [Function.update_of_ne heq, Function.update_of_ne heq, Function.update_of_ne heq]
    rfl

end Pipeline

namespace Workers

variable {W D : Type} [DecidableEq W] {fmt : PriceFormat D} {s s' : Workers W D}

/-- A step goes as well with more packets to come. -/
theorem step_more {packets more : List Text} {action : Section W}
    (hstep : step fmt packets action s = .ok s') (hbegins : packets <+: more) :
    step fmt more action s = .ok s' := by
  cases action with
  | update worker i =>
      obtain ⟨hidle, hnew, packet, hpacket, rfl⟩ := step_update hstep
      obtain ⟨rest, rfl⟩ := hbegins
      obtain ⟨hlt, -⟩ := List.getElem?_eq_some_iff.mp hpacket
      rw [step, if_pos hidle, List.getElem?_append_left hlt, hpacket]
      exact if_neg hnew
  | check worker => exact hstep
  | reset worker => exact hstep

theorem run_more {packets more : List Text} {sections : List (Section W)}
    (hrun : Run.run (step fmt packets) sections s = .ok s') (hbegins : packets <+: more) :
    Run.run (step fmt more) sections s = .ok s' := by
  induction sections generalizing s with
  | nil => exact hrun
  | cons action rest ih =>
      obtain ⟨t, hstep, hrest⟩ := Run.run_cons_inv hrun
      exact (Run.run_cons_ok (step_more hstep hbegins)).trans (ih hrest)

end Workers

namespace Pipeline.Inv

variable {W D : Type} [DecidableEq W] [Fintype W] {fmt : PriceFormat D} {order : LoadOrder}
  {s s' : Pipeline W D}

/-- A worker changes its place or its section, and what it gains or loses is made up for. -/
theorem change (h : s.Inv fmt order) {worker : W} {place : Place} {w : Worker}
    (hplaces : s'.places = Function.update s.places worker place)
    (hworkers : s'.workers.workers = Function.update s.workers.workers worker w)
    (hrefines : ∃ sections, Run.run (Workers.step fmt s'.accepted) sections (.start .start) =
      .ok s'.workers)
    (haccepted : s'.accepted = s.accepted) (hbefore : s'.acceptedBefore = s.acceptedBefore)
    (hhead : s.head ≤ s'.head) (hle : s'.head ≤ s.accepted.length)
    (hapart : Apart (place, w)) (hseen : s'.Seen order place)
    (hheld : (s'.processed : Multiset Nat) + held worker (place, w) + Multiset.range s.head =
      s.processed + held worker (s.agents worker) + Multiset.range s'.head)
    (huntaken : (s'.workers.taken : Multiset Nat) + untaken worker (place, w) +
      Multiset.range s.head =
      s.workers.taken + untaken worker (s.agents worker) + Multiset.range s'.head) :
    s'.Inv fmt order := by
  have hagents := agents_update hplaces hworkers
  refine ⟨hrefines, haccepted ▸ hle, ?_, fun other => ?_, fun other => ?_, ?_, ?_⟩
  · rw [hbefore, haccepted]
    exact h.before
  · rw [hagents]
    by_cases heq : other = worker
    · rw [heq, Function.update_self]
      exact hapart
    · rw [Function.update_of_ne heq]
      exact h.apart other
  · rw [hplaces]
    by_cases heq : other = worker
    · rw [heq, Function.update_self]
      exact hseen
    · rw [Function.update_of_ne heq]
      exact (h.seen other).mono hhead fun n hn => hbefore ▸ hn
  · rw [hagents]
    exact balance_update h.popped hheld
  · rw [hagents]
    exact balance_update h.taken huntaken

/-- A worker without a ticket goes on. -/
theorem goto (h : s.Inv fmt order) {worker : W} {place : Place} (hfrom : (s.places worker).free)
    (hto : place.free) (hseen : s.Seen order place) : (s.goto worker place).Inv fmt order := by
  obtain ⟨hheld, huntaken, hapart⟩ := held_free worker hfrom
  obtain ⟨hheld', huntaken', hapart'⟩ := held_free worker hto
  exact h.change rfl (Function.update_eq_self ..).symm h.refines rfl rfl (Nat.le_refl _) h.head_le
    (hapart'.mpr (hapart.mp (h.apart worker))) hseen
    (congrArg (fun m => (s.processed : Multiset Nat) + m + Multiset.range s.head)
      (hheld'.trans hheld.symm))
    (congrArg (fun m => (s.workers.taken : Multiset Nat) + m + Multiset.range s.head)
      (huntaken'.trans huntaken.symm))

/-! ### The steps -/

/-- The receiver's part of the state is not looked at. -/
theorem receive (h : s.Inv fmt order) {packet : Text} (hstep : s.receive packet = .ok s') :
    s'.Inv fmt order := by
  rw [Pipeline.receive] at hstep
  split at hstep
  · cases hstep
    exact ⟨h.refines, h.head_le, h.before, h.apart, h.seen, h.popped, h.taken⟩
  · cases hstep

theorem push (h : s.Inv fmt order) {dropped : Bool} (hstep : s.push dropped = .ok s') :
    s'.Inv fmt order := by
  rw [Pipeline.push] at hstep
  split at hstep
  · rename_i packet hpacket
    dsimp only at hstep
    split at hstep
    · cases hstep
      exact ⟨h.refines, h.head_le, h.before, h.apart, h.seen, h.popped, h.taken⟩
    · split at hstep
      · cases hstep
        obtain ⟨sections, hsections⟩ := h.refines
        have hlength : s.accepted.length ≤ (s.accepted ++ [packet]).length := by
          rw [List.length_append]
          exact Nat.le_add_right _ _
        refine ⟨⟨sections, Workers.run_more hsections (List.prefix_append _ _)⟩,
          Nat.le_trans h.head_le hlength, fun n hn => Nat.le_trans (h.before n hn) hlength, h.apart,
          h.seen, h.popped, h.taken⟩
      · cases hstep
  · cases hstep

theorem requestShutdown (h : s.Inv fmt order) :
    Inv fmt order
      { s with acceptedBefore := some (s.acceptedBefore.getD s.accepted.length) } := by
  have hkept : ∀ n, s.acceptedBefore = some n →
      some (s.acceptedBefore.getD s.accepted.length) = some n := by
    intro n hn
    rw [hn]
    rfl
  refine ⟨h.refines, h.head_le, ?_, h.apart,
    fun worker => (h.seen worker).mono (Nat.le_refl _) hkept, h.popped, h.taken⟩
  rintro n ⟨⟩
  cases hbefore : s.acceptedBefore with
  | none => exact Nat.le_refl _
  | some n => exact h.before n hbefore

theorem popped_next (account : Multiset Nat) (head : Nat) :
    account + {head} + Multiset.range head = account + 0 + Multiset.range (head + 1) := by
  rw [Multiset.range_succ, ← Multiset.singleton_add, add_zero, add_assoc]

omit [Fintype W] in
/-- What a section takes and where it leaves its worker. -/
theorem section_moves {worker : W} {ticket : Nat} {workers : Workers W D}
    (hstep : Workers.step fmt s.accepted (s.nextSection worker ticket) s.workers = .ok workers) :
    ∃ w, workers.workers = Function.update s.workers.workers worker w ∧
      (workers.taken : Multiset Nat) +
          untaken worker (if w = .idle then .record ticket else .processing ticket, w) =
        s.workers.taken + untaken worker (.processing ticket, s.workers.workers worker) := by
  rw [nextSection] at hstep
  cases hw : s.workers.workers worker with
  | idle =>
      simp only [hw] at hstep
      obtain ⟨-, -, packet, -, rfl⟩ := Workers.step_update hstep
      refine ⟨.updated, rfl, ?_⟩
      rw [if_neg (by simp), ← Multiset.cons_coe, ← Multiset.singleton_add]
      exact (add_zero _).trans (add_comm _ _)
  | updated =>
      simp only [hw] at hstep
      obtain ⟨-, ⟨-, rfl⟩ | ⟨response, -, rfl⟩⟩ := Workers.step_check hstep
      · exact ⟨.idle, rfl, rfl⟩
      · exact ⟨.responded response.challengeId, rfl, rfl⟩
  | responded challengeId =>
      simp only [hw] at hstep
      obtain ⟨-, rfl⟩ := Workers.step_reset hstep
      exact ⟨.idle, rfl, rfl⟩

theorem advance (h : s.Inv fmt order) {worker : W} {found : Bool}
    (hstep : s.advance fmt order worker found = .ok s') : s'.Inv fmt order := by
  have hseen := h.seen worker
  rw [Pipeline.advance] at hstep
  cases hplace : s.places worker with
  | loop =>
      simp only [hplace] at hstep
      cases hstep
      cases hshutdown : s.shutdownRequested with
      | true => exact h.goto (hplace ▸ rfl) rfl (Option.isSome_iff_exists.mp hshutdown)
      | false => exact h.goto (hplace ▸ rfl) rfl trivial
  | firstLoad =>
      simp only [hplace] at hstep
      rw [hplace] at hseen
      cases hstep
      obtain ⟨n, hn⟩ := hseen
      refine h.goto (hplace ▸ rfl) rfl ⟨n, hn, ?_⟩
      cases order with
      | headFirst => exact Nat.le_refl _
      | tailFirst => exact h.before n hn
  | secondLoad first =>
      simp only [hplace] at hstep
      rw [hplace] at hseen
      cases hstep
      obtain ⟨n, hn, hfirst⟩ := hseen
      cases hempty : s.isEmpty order first with
      | false => exact h.goto (hplace ▸ rfl) rfl trivial
      | true =>
          refine h.goto (hplace ▸ rfl) rfl ⟨n, hn, ?_⟩
          cases order with
          | headFirst =>
              have hsame : first = s.accepted.length := of_decide_eq_true hempty
              exact Nat.le_trans (h.before n hn) (hsame ▸ hfirst)
          | tailFirst =>
              have hsame : s.head = first := of_decide_eq_true hempty
              exact hsame ▸ hfirst
  | pop =>
      simp only [hplace] at hstep
      obtain ⟨hheld, huntaken, hapart⟩ := held_free worker (hplace ▸ rfl : (s.places worker).free)
      have hidle := hapart.mp (h.apart worker)
      split at hstep
      · split at hstep
        · rename_i hroom
          cases hstep
          refine h.change rfl (Function.update_eq_self ..).symm h.refines rfl rfl (Nat.le_succ _)
            hroom trivial trivial ?_ ?_
          · refine (popped_next _ _).trans ?_
            rw [← hheld]
            rfl
          · change _ + untaken worker (.processing s.head, s.workers.workers worker) + _ = _
            rw [hidle]
            refine (popped_next _ _).trans ?_
            rw [← huntaken]
            rfl
        · cases hstep
      · cases hstep
        exact h.goto (hplace ▸ rfl) rfl trivial
  | processing ticket =>
      simp only [hplace] at hstep
      split at hstep
      · rename_i workers hworkers
        cases hstep
        obtain ⟨w, hmoved, htaken⟩ := section_moves hworkers
        obtain ⟨sections, hsections⟩ := h.refines
        have hw : workers.workers worker = w := by rw [hmoved, Function.update_self]
        have hagent : s.agents worker = (.processing ticket, s.workers.workers worker) :=
          Prod.ext hplace rfl
        have hnext := Run.run_append.mpr
          ⟨_, hsections, (Run.run_cons_ok hworkers).trans (Run.run_nil _)⟩
        rw [hw]
        refine h.change rfl hmoved ⟨_, hnext⟩ rfl rfl (Nat.le_refl _) h.head_le ?_ ?_ ?_ ?_
        · by_cases hidle : w = .idle
          · rw [if_pos hidle]
            exact hidle
          · rw [if_neg hidle]
            trivial
        · by_cases hidle : w = .idle
          · rw [if_pos hidle]
            trivial
          · rw [if_neg hidle]
            trivial
        · rw [hagent]
          by_cases hidle : w = .idle
          · rw [if_pos hidle]
            rfl
          · rw [if_neg hidle]
            rfl
        · rw [hagent]
          exact congrArg (· + Multiset.range s.head) htaken
      · cases hstep
  | record ticket =>
      simp only [hplace] at hstep
      cases hstep
      have hapart := h.apart worker
      have hagent : s.agents worker = (.record ticket, s.workers.workers worker) :=
        Prod.ext hplace rfl
      rw [hagent] at hapart
      have hidle : s.workers.workers worker = .idle := hapart
      have hsame : s.workers.workers = Function.update s.workers.workers worker .idle := by
        rw [← hidle, Function.update_eq_self]
      refine h.change rfl hsame h.refines rfl rfl (Nat.le_refl _) h.head_le rfl trivial ?_ ?_
      · rw [hagent]
        change ((s.processed ++ [ticket] : List Nat) : Multiset Nat) + 0 + _ = _ + {ticket} + _
        rw [add_zero, ← Multiset.coe_add, Multiset.coe_singleton]
        rfl
      · rw [hagent]
        rfl
  | stopped =>
      simp only [hplace] at hstep
      cases hstep

theorem step (h : s.Inv fmt order) {action : Action W} (hstep : s.step fmt order action = .ok s') :
    s'.Inv fmt order := by
  cases action with
  | receive packet => exact h.receive hstep
  | push dropped => exact h.push hstep
  | requestShutdown =>
      cases hstep
      exact h.requestShutdown
  | advance worker found => exact h.advance hstep

theorem start : (Pipeline.start : Pipeline W D).Inv fmt order where
  refines := ⟨[], rfl⟩
  head_le := Nat.le_refl 0
  before n hn := by cases hn
  apart _ := rfl
  seen _ := trivial
  popped := by
    have hnone : total held (Pipeline.start : Pipeline W D).agents = 0 := total_zero fun _ => rfl
    rw [hnone]
    rfl
  taken := by
    have hnone : total untaken (Pipeline.start : Pipeline W D).agents = 0 :=
      total_zero fun _ => rfl
    rw [hnone]
    rfl

/-- A ticket in hand whose packet is not taken. -/
theorem not_taken (h : s.Inv fmt order) {worker : W} {ticket : Nat}
    (hagent : s.agents worker = (.processing ticket, .idle)) :
    ticket < s.head ∧ ticket ∉ s.workers.taken := by
  obtain ⟨rest, hrest⟩ := total_split untaken s.agents worker
  have htaken := h.taken
  rw [hrest, hagent] at htaken
  have hmem : ticket ∈ untaken worker (.processing ticket, .idle) + rest :=
    Multiset.mem_add.mpr (.inl (Multiset.mem_singleton_self ticket))
  have hnodup := Multiset.nodup_range s.head
  rw [← htaken, Multiset.nodup_add] at hnodup
  refine ⟨?_, fun hold => Multiset.disjoint_left.mp hnodup.2.2 hold hmem⟩
  rw [← Multiset.mem_range, ← htaken]
  exact Multiset.mem_add.mpr (.inr hmem)

/-- A worker that has not stopped can go on. -/
theorem goes_on (h : s.Inv fmt order) {worker : W} (hplace : s.places worker ≠ .stopped) :
    ∃ s', s.advance fmt order worker false = .ok s' := by
  rw [Pipeline.advance]
  cases hwhere : s.places worker with
  | loop => exact ⟨_, rfl⟩
  | firstLoad => exact ⟨_, rfl⟩
  | secondLoad first => exact ⟨_, rfl⟩
  | pop => exact ⟨_, rfl⟩
  | processing ticket =>
      have hsection : ∃ workers, Workers.step fmt s.accepted (s.nextSection worker ticket)
          s.workers = .ok workers := by
        rw [nextSection]
        cases hw : s.workers.workers worker with
        | idle =>
            obtain ⟨hlt, hnew⟩ := h.not_taken (Prod.ext hwhere hw)
            have hget := List.getElem?_eq_getElem (Nat.lt_of_lt_of_le hlt h.head_le)
            exact ⟨_, by rw [Workers.step, if_pos hw, hget]; exact if_neg hnew⟩
        | updated =>
            cases hcheck : s.workers.client.check with
            | none => exact ⟨_, Workers.step_check_none hw hcheck⟩
            | some response => exact ⟨_, Workers.step_check_some hw hcheck⟩
        | responded challengeId => exact ⟨_, Workers.step_reset_responded hw⟩
      obtain ⟨workers, hworkers⟩ := hsection
      simp only [hworkers]
      exact ⟨_, rfl⟩
  | record ticket => exact ⟨_, rfl⟩
  | stopped => exact absurd hwhere hplace

/-- Once no worker has a ticket in hand, what was popped is processed. -/
theorem settled (h : s.Inv fmt order) (hfree : ∀ worker, (s.places worker).free) :
    s.processed.Perm (List.range s.head) := by
  have hnone : total held s.agents = 0 :=
    total_zero fun worker => (held_free worker (hfree worker)).1
  have hpopped := h.popped
  rw [hnone, add_zero] at hpopped
  exact Multiset.coe_eq_coe.mp hpopped

end Pipeline.Inv

namespace Pipeline

variable {W D : Type} [DecidableEq W] [Fintype W] [Nonempty W] (fmt : PriceFormat D)
  (order : LoadOrder) {s : Pipeline W D}

/-- However the threads take turns: the workers do what `Workers` do with the accepted packets,
none of them gets stuck, and no ticket is processed twice. When all have stopped, what was popped
has been processed, and what was accepted before the shutdown has been popped. -/
theorem pipeline_drains (actions : List (Action W))
    (hrun : Run.run (step fmt order) actions start = .ok s) :
    (∃ sections, Run.run (Workers.step fmt s.accepted) sections (.start .start) = .ok s.workers) ∧
      (∀ worker, s.places worker ≠ .stopped → ∃ s', s.advance fmt order worker false = .ok s') ∧
      (s.processed.Nodup ∧ ∀ ticket ∈ s.processed, ticket < s.head) ∧
      ((∀ worker, s.places worker = .stopped) → s.processed.Perm (List.range s.head) ∧
        ∃ n, s.acceptedBefore = some n ∧ n ≤ s.head) := by
  have h : s.Inv fmt order :=
    Run.run_invariant (fun _ _ _ h hstep => h.step hstep) Inv.start hrun
  have hrange := Multiset.nodup_range s.head
  rw [← h.popped, Multiset.nodup_add, Multiset.coe_nodup] at hrange
  refine ⟨h.refines, fun worker => h.goes_on, ⟨hrange.1, fun ticket hticket => ?_⟩,
    fun hstopped => ?_⟩
  · rw [← Multiset.mem_range, ← h.popped]
    exact Multiset.mem_add.mpr (.inl hticket)
  · have hfree : ∀ worker, (s.places worker).free := fun worker => (hstopped worker) ▸ rfl
    obtain ⟨worker⟩ := ‹Nonempty W›
    have hseen := h.seen worker
    rw [hstopped worker] at hseen
    exact ⟨h.settled hfree, hseen⟩

/-- Two packets come, one worker takes the first and the other one the second, and the shutdown is
requested in between. -/
def twoPackets : List (Action Bool) :=
  [.receive [], .push false, .receive ['x'], .advance true true, .advance true true,
    .requestShutdown, .push false] ++ List.replicate 3 (.advance true true) ++
    List.replicate 7 (.advance false true) ++ List.replicate 3 (.advance true true) ++
    List.replicate 3 (.advance false true)

theorem pipeline_drains_sample : ∃ s : Pipeline Bool Nat,
    Run.run (step tenths .headFirst) twoPackets start = .ok s ∧
      (∀ worker, s.places worker = .stopped) ∧ s.processed.Perm (List.range s.head) ∧
        ∃ n, s.acceptedBefore = some n ∧ n ≤ s.head := by
  have hplaces : (Run.run (step tenths .headFirst) twoPackets start).map
      (fun s : Pipeline Bool Nat => (s.places true, s.places false)) = .ok (.stopped, .stopped) := by
    decide +kernel
  obtain ⟨s, hrun, hlast⟩ := Run.except_map_inv hplaces
  have hstopped : ∀ worker, s.places worker = .stopped := by
    injection hlast with htrue hfalse
    intro worker
    cases worker with
    | false => exact hfalse
    | true => exact htrue
  exact ⟨s, hrun, hstopped, (pipeline_drains tenths .headFirst twoPackets hrun).2.2.2 hstopped⟩

end Pipeline

end HftProject
