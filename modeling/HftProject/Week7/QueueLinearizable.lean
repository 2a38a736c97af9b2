import HftProject.Lib.Atomic
import HftProject.Lib.BoundedFifo
import HftProject.Week7.QueueInvariant

/-!
`ConcurrentQueue` as an atomic object. Under any interleaving, with unbounded counters and a
capacity of two or more, the calls of `push` and `pop` can be put in one order in which the queue
is a bounded FIFO (`histories_linearizable`): a call that succeeds takes effect when it claims its
ticket. A `push` may find the queue full while a `pop` has not freed its cell, and a `pop` may find
it empty while a `push` has not published its item.
-/

namespace HftProject.Week7

open EventLog

variable {Thread T : Type} {C : Nat} [NeZero C]

/-! ### Who holds a cell -/

/-- The thread has claimed the ticket for its push and not published it. -/
def Local.fills (p : Nat) : Local T → Prop
  | .pushWrite _ pos => pos = p
  | .pushStore _ pos => pos = p
  | _ => False

/-- The thread has claimed the ticket a lap before for its pop and not freed the cell. -/
def Local.frees (C p : Nat) : Local T → Prop
  | .popCopy pos => pos + C = p
  | .popStore pos _ => pos + C = p
  | _ => False

/-- A cell is kept from the other side by a thread in a call only. -/
structure Busy (q : ConcurrentQueue T C) (threads : Thread → Local T) : Prop where
  filling : ∀ p, q.head ≤ p → p < q.tail → (q.cell p).seq = p →
    ∃ thread, (threads thread).fills p
  freeing : ∀ p, q.tail ≤ p → p < q.head + C → (q.cell p).seq + C = p + 1 →
    ∃ thread, (threads thread).frees C p

section Step

variable [DecidableEq Thread] {q q' : ConcurrentQueue T C} {threads : Thread → Local T}
  {thread : Thread} {loc loc' : Local T}

/-- A thread takes a step: what it keeps it has kept before, or keeps from now on. -/
theorem Busy.update (h : Busy q threads)
    (hfill : ∀ p, q'.head ≤ p → p < q'.tail → (q'.cell p).seq = p → loc'.fills p ∨
      q.head ≤ p ∧ p < q.tail ∧ (q.cell p).seq = p ∧ ¬ (threads thread).fills p)
    (hfree : ∀ p, q'.tail ≤ p → p < q'.head + C → (q'.cell p).seq + C = p + 1 →
      loc'.frees C p ∨ q.tail ≤ p ∧ p < q.head + C ∧ (q.cell p).seq + C = p + 1 ∧
        ¬ (threads thread).frees C p) :
    Busy q' (Function.update threads thread loc') where
  filling p hle hlt hseq := by
    rcases hfill p hle hlt hseq with hnew | ⟨hle', hlt', hseq', hnot⟩
    · exact ⟨thread, by rwa [Function.update_self]⟩
    · obtain ⟨other, hother⟩ := h.filling p hle' hlt' hseq'
      have hne : other ≠ thread := fun heq => hnot (heq ▸ hother)
      exact ⟨other, by rwa [Function.update_of_ne hne]⟩
  freeing p hle hlt hseq := by
    rcases hfree p hle hlt hseq with hnew | ⟨hle', hlt', hseq', hnot⟩
    · exact ⟨thread, by rwa [Function.update_self]⟩
    · obtain ⟨other, hother⟩ := h.freeing p hle' hlt' hseq'
      have hne : other ≠ thread := fun heq => hnot (heq ▸ hother)
      exact ⟨other, by rwa [Function.update_of_ne hne]⟩

/-- A step that only looks, of a thread that keeps nothing. -/
theorem Busy.look (h : Busy q threads) (hloc : threads thread = loc) (loc' : Local T)
    (hfills : ∀ p, ¬ loc.fills p) (hfrees : ∀ p, ¬ loc.frees C p) :
    Busy q (Function.update threads thread loc') :=
  h.update (fun p hle hlt hseq => .inr ⟨hle, hlt, hseq, hloc ▸ hfills p⟩)
    fun p hle hlt hseq => .inr ⟨hle, hlt, hseq, hloc ▸ hfrees p⟩

theorem Busy.advance (hC : 2 ≤ C) (h : Busy q threads) {log : List (Thread × Event T)}
    (hcells : Cells q log) (hplaced : Placed q log thread (threads thread))
    {event : Option (Event T)} (hmove : Moves q (threads thread) q' loc' event) :
    Busy q' (Function.update threads thread loc') := by
  have hfalse : ∀ p : Nat, ¬ False := fun _ hf => hf
  generalize hloc : threads thread = loc at hmove hplaced
  cases hmove with
  | pushLoad item => exact h.look hloc _ hfalse hfalse
  | pushReady item pos hseq => exact h.look hloc _ hfalse hfalse
  | pushFull item pos => exact h.look hloc _ hfalse hfalse
  | pushStale item pos => exact h.look hloc _ hfalse hfalse
  | pushRetry item pos => exact h.look hloc _ hfalse hfalse
  | popLoad => exact h.look hloc _ hfalse hfalse
  | popReady pos hseq => exact h.look hloc _ hfalse hfalse
  | popEmpty pos => exact h.look hloc _ hfalse hfalse
  | popStale pos => exact h.look hloc _ hfalse hfalse
  | popRetry pos => exact h.look hloc _ hfalse hfalse
  | pushClaim item =>
      refine h.update (fun p hle hlt hseq => ?_) fun p hle hlt hseq =>
        .inr ⟨Nat.le_of_succ_le hle, hlt, hseq, hloc ▸ hfalse p⟩
      rcases Nat.lt_succ_iff_lt_or_eq.mp hlt with hlt' | rfl
      · exact .inr ⟨hle, hlt', hseq, hloc ▸ hfalse p⟩
      · exact .inl rfl
  | pushWrite item pos =>
      have hsame : ∀ p, ((q.setCell pos { q.cell pos with data := item }).cell p).seq =
          (q.cell p).seq := by
        intro p
        rw [ConcurrentQueue.cell_setCell]
        split
        · rename_i hmod
          rw [ConcurrentQueue.cell_congr hmod]
        · rfl
      refine h.update (fun p hle hlt hseq => ?_) fun p hle hlt hseq =>
        .inr ⟨hle, hlt, hsame p ▸ hseq, hloc ▸ hfalse p⟩
      by_cases hp : pos = p
      · exact .inl hp
      · exact .inr ⟨hle, hlt, hsame p ▸ hseq, hloc ▸ hp⟩
  | pushStore item pos =>
      obtain ⟨hpush, -, -⟩ := hplaced
      have hhead := hpush.unpopped
      have htail := hpush.claimed
      have hroom := hcells.room
      refine h.update (fun p hle hlt hseq => .inr ?_) fun p hle hlt hseq => .inr ?_
      · change q.head ≤ p at hle
        change p < q.tail at hlt
        by_cases hp : pos = p
        · rw [← hp, cell_setCell_self] at hseq
          exact absurd hseq (Nat.succ_ne_self pos)
        · rw [hpush.cell_other hcells (Ne.symm hp) (by omega) (by omega)] at hseq
          exact ⟨hle, hlt, hseq, hloc ▸ hp⟩
      · change q.tail ≤ p at hle
        change p < q.head + C at hlt
        rw [hpush.cell_other hcells (by omega) (by omega) hlt] at hseq
        exact ⟨hle, hlt, hseq, hloc ▸ hfalse p⟩
  | popClaim =>
      refine h.update (fun p hle hlt hseq =>
        .inr ⟨Nat.le_of_succ_le hle, hlt, hseq, hloc ▸ hfalse p⟩) fun p hle hlt hseq => ?_
      change p < q.head + 1 + C at hlt
      by_cases hp : q.head + C = p
      · exact .inl hp
      · exact .inr ⟨hle, by omega, hseq, hloc ▸ hfalse p⟩
  | popCopy pos =>
      refine h.update (fun p hle hlt hseq => .inr ⟨hle, hlt, hseq, hloc ▸ hfalse p⟩)
        fun p hle hlt hseq => ?_
      by_cases hp : pos + C = p
      · exact .inl hp
      · exact .inr ⟨hle, hlt, hseq, hloc ▸ hp⟩
  | popStore pos item =>
      obtain ⟨hpop, -⟩ := hplaced
      have hhead := hpop.claimed
      have htail := hpop.unclaimed
      have hroom := hcells.room
      have horder := hcells.le
      refine h.update (fun p hle hlt hseq => .inr ?_) fun p hle hlt hseq => .inr ?_
      · change q.head ≤ p at hle
        change p < q.tail at hlt
        rw [hpop.cell_other (by omega) (by omega) (by omega) horder] at hseq
        exact ⟨hle, hlt, hseq, hloc ▸ hfalse p⟩
      · change q.tail ≤ p at hle
        change p < q.head + C at hlt
        rw [ConcurrentQueue.cell_setCell] at hseq
        split at hseq
        · rename_i hmod
          have hticket : (pos + C) % C = p % C := by rw [hmod, Nat.add_mod_right]
          have hp := ConcurrentQueue.ticket_inj hticket (by omega) (by omega)
          change pos + C + C = p + 1 at hseq
          omega
        · rename_i hmod
          refine ⟨hle, hlt, hseq, hloc ▸ fun hp => hmod ?_⟩
          change pos + C = p at hp
          rw [← hp, Nat.add_mod_right]

end Step

/-! ### The items of the tickets -/

/-- The items that are pushed, in the order of their tickets. -/
def pushedItems (log : List (Thread × Event T)) : List T :=
  log.filterMap fun e => match e.2 with
    | .claimPush _ item => some item
    | _ => none

section Items

omit [NeZero C]

variable {log : List (Thread × Event T)}

theorem pushedItems_append (log log' : List (Thread × Event T)) :
    pushedItems (log ++ log') = pushedItems log ++ pushedItems log' := List.filterMap_append

theorem pushedItems_length (log : List (Thread × Event T)) :
    (pushedItems log).length = (pushTickets log).length := by
  induction log with
  | nil => rfl
  | cons e log ih =>
      obtain ⟨thread, event⟩ := e
      cases event with
      | claimPush pos item => exact congrArg (· + 1) ih
      | write pos item => exact ih
      | claimPop pos => exact ih
      | copied pos item => exact ih

/-- The ticket and the item of each claim. -/
theorem getElem?_claim {thread : Thread} {pos : Nat} {item : T}
    (h : (thread, .claimPush pos item) ∈ log) :
    ∃ i : Nat, (pushTickets log)[i]? = some pos ∧ (pushedItems log)[i]? = some item := by
  induction log with
  | nil => cases h
  | cons e log ih =>
      rcases List.mem_cons.mp h with rfl | hmem
      · exact ⟨0, rfl, rfl⟩
      · obtain ⟨i, hpos, hitem⟩ := ih hmem
        obtain ⟨thread', event⟩ := e
        cases event with
        | claimPush pos' item' => exact ⟨i + 1, hpos, hitem⟩
        | write pos' item' => exact ⟨i, hpos, hitem⟩
        | claimPop pos' => exact ⟨i, hpos, hitem⟩
        | copied pos' item' => exact ⟨i, hpos, hitem⟩

theorem getElem?_pushedItems {n : Nat} (h : pushTickets log = List.range n) {thread : Thread}
    {pos : Nat} {item : T} (hclaim : (thread, .claimPush pos item) ∈ log) :
    (pushedItems log)[pos]? = some item := by
  obtain ⟨i, hpos, hitem⟩ := getElem?_claim hclaim
  rw [h] at hpos
  obtain ⟨hlt, hi⟩ := List.getElem?_eq_some_iff.mp hpos
  rw [List.getElem_range] at hi
  exact hi ▸ hitem

end Items

/-! ### The atomic queue -/

/-- A call of the queue. -/
inductive QueueOp (T : Type) where
  | push (item : T)
  | pop
deriving DecidableEq, Repr

/-- What a call returns. -/
inductive QueueAnswer (T : Type) where
  | pushed (success : Bool)
  | popped (item : Option T)
deriving DecidableEq, Repr

/-- The effects of the calls on a bounded FIFO. A `push` may also fail while a `pop` that has taken
its item has not returned, and a `pop` while a `push` that has left its item has not. -/
inductive QueueEffect (C : Nat) : Atomic.Effect (QueueOp T) (QueueAnswer T) (BoundedFifo T C)
  | enqueue {item : T} {pending : QueueOp T → QueueAnswer T → Prop} {f g : BoundedFifo T C}
      (h : f.push item = (true, g)) : QueueEffect C (.push item) pending f (.pushed true) g
  | full {item : T} {pending : QueueOp T → QueueAnswer T → Prop} {f : BoundedFifo T C}
      (h : f.items.length = C ∨ ∃ item', pending .pop (.popped (some item'))) :
      QueueEffect C (.push item) pending f (.pushed false) f
  | dequeue {item : T} {pending : QueueOp T → QueueAnswer T → Prop} {f g : BoundedFifo T C}
      (h : f.pop = (some item, g)) : QueueEffect C .pop pending f (.popped (some item)) g
  | empty {pending : QueueOp T → QueueAnswer T → Prop} {f : BoundedFifo T C}
      (h : f.items = [] ∨ ∃ item, pending (.push item) (.pushed true)) :
      QueueEffect C .pop pending f (.popped none) f

/-- What the call of a thread that is back from it has returned. -/
def Local.answer : Local T → Option (QueueAnswer T)
  | .pushed success => some (.pushed success)
  | .popped item => some (.popped item)
  | _ => none

/-- What the clients of the queue see of a step. -/
def System.visible (action : Action Thread T) (s : System Thread T C) :
    Option (Thread × Atomic.Event (QueueOp T) (QueueAnswer T)) :=
  match action with
  | .push thread item => some (thread, .call (.push item))
  | .pop thread => some (thread, .call .pop)
  | .advance thread spuriously =>
      match s.queue.advance .unbounded spuriously (s.threads thread) with
      | .ok (_, loc, _) => loc.answer.map fun answer => (thread, .ret answer)
      | .error _ => none

/-! ### The atomic queue follows -/

/-- Where the call of a thread is as a call of the atomic queue. -/
def phase (log : List (Thread × Event T)) : Local T → Atomic.Phase (QueueOp T) (QueueAnswer T)
  | .idle => .idle
  | .pushLoad item => .called (.push item)
  | .pushSeq item _ => .called (.push item)
  | .pushExchange item _ => .called (.push item)
  | .pushWrite item _ => .effected (.push item) (.pushed true)
  | .pushStore item _ => .effected (.push item) (.pushed true)
  | .pushed _ => .idle
  | .popLoad => .called .pop
  | .popSeq _ => .called .pop
  | .popExchange _ => .called .pop
  | .popCopy pos => .effected .pop (.popped (pushedItems log)[pos]?)
  | .popStore _ item => .effected .pop (.popped (some item))
  | .popped _ => .idle

/-- The items of the tickets that are pushed and not popped. -/
def System.contents (s : System Thread T C) : List T := (pushedItems s.log).drop s.queue.head

/-- The queue as an atomic object. -/
structure Abstracts (o : Atomic.Object Thread (QueueOp T) (QueueAnswer T) (BoundedFifo T C))
    (s : System Thread T C) : Prop where
  items : o.state.items = s.contents
  phases : ∀ thread, o.phases thread = phase s.log (s.threads thread)

section Follows

variable [DecidableEq Thread] {s : System Thread T C}
  {o o' : Atomic.Object Thread (QueueOp T) (QueueAnswer T) (BoundedFifo T C)}

omit [DecidableEq Thread] in
theorem Inv.items_length (h : Inv s) : (pushedItems s.log).length = s.queue.tail := by
  rw [pushedItems_length, h.pushes, List.length_range]

omit [DecidableEq Thread] in
/-- A thread that stays where it is stays in the same phase. -/
theorem Inv.phase_append (h : Inv s) (thread : Thread) (events : List (Thread × Event T)) :
    phase (s.log ++ events) (s.threads thread) = phase s.log (s.threads thread) := by
  have hplaced := h.placed thread
  cases hloc : s.threads thread with
  | popCopy pos =>
      rw [hloc] at hplaced
      have hlt : pos < (pushedItems s.log).length := by
        have := hplaced.1.claimed
        have := h.cells.le
        rw [h.items_length]
        omega
      rw [phase, phase, pushedItems_append, List.getElem?_append_left hlt]
  | _ => rfl

/-- The object has moved as the thread has. -/
theorem Abstracts.update (ha : Abstracts o s) (h : Inv s) (thread : Thread)
    (q' : ConcurrentQueue T C) (loc' : Local T) (events : List (Thread × Event T))
    (hitems : o'.state.items = (pushedItems (s.log ++ events)).drop q'.head)
    (hphases : o'.phases = Function.update o.phases thread (phase (s.log ++ events) loc')) :
    Abstracts o' ⟨q', Function.update s.threads thread loc', s.log ++ events⟩ where
  items := hitems
  phases other := by
    change o'.phases other = phase _ (Function.update s.threads thread loc' other)
    rw [hphases]
    by_cases hother : other = thread
    · rw [hother, Function.update_self, Function.update_self]
    · rw [Function.update_of_ne hother, Function.update_of_ne hother, ha.phases,
        h.phase_append]

/-- A step within the call, which the object does not see. -/
theorem Abstracts.stay (ha : Abstracts o s) (h : Inv s) (thread : Thread)
    (q' : ConcurrentQueue T C) (loc' : Local T) (events : List (Thread × Event T))
    (hhead : q'.head = s.queue.head) (hevents : pushedItems events = [])
    (hphase : phase (s.log ++ events) loc' = phase s.log (s.threads thread)) :
    Abstracts o ⟨q', Function.update s.threads thread loc', s.log ++ events⟩ := by
  refine ha.update h thread q' loc' events ?_ ?_
  · rw [ha.items, System.contents, hhead, pushedItems_append, hevents, List.append_nil]
  · rw [hphase, ← ha.phases, Function.update_eq_self]

end Follows

/-! ### Why a call fails -/

section Failures

variable {s : System Thread T C} {pos : Nat}
  {o : Atomic.Object Thread (QueueOp T) (QueueAnswer T) (BoundedFifo T C)}

theorem advance_full {q q' : ConcurrentQueue T C} {item : T} {pos : Nat} {spuriously : Bool}
    {event : Option (Event T)}
    (h : q.advance .unbounded spuriously (.pushSeq item pos) = .ok (q', .pushed false, event)) :
    (q.cell pos).seq < pos := by
  change (if _ then _ else if _ then _ else _) = _ at h
  split at h
  · cases h
  · split at h
    · rename_i hdif
      omega
    · cases h

theorem advance_empty {q q' : ConcurrentQueue T C} {pos : Nat} {spuriously : Bool}
    {event : Option (Event T)}
    (h : q.advance .unbounded spuriously (.popSeq pos) = .ok (q', .popped none, event)) :
    (q.cell pos).seq ≤ pos := by
  change (if _ then _ else if _ then _ else _) = _ at h
  split at h
  · cases h
  · split at h
    · rename_i hdif
      have hlt : ((q.cell pos).seq : Int) - ((pos + 1 : Nat) : Int) < 0 := hdif
      omega
    · cases h

/-- The cell of a ticket that is popped is ahead of it. -/
theorem Cells.lt_seq {q : ConcurrentQueue T C} {log : List (Thread × Event T)} (h : Cells q log)
    {p : Nat} (hp : p < q.head) : p < (q.cell p).seq := by
  have hC : 0 < C := Nat.pos_of_ne_zero (NeZero.ne C)
  -- the ticket from `head` on with the same cell
  obtain ⟨p', hle, hlt, hmod⟩ : ∃ p', q.head ≤ p' ∧ p' < q.head + C ∧ p' % C = p % C := by
    refine ⟨q.head + (p + q.head * (C - 1)) % C, Nat.le_add_right _ _,
      Nat.add_lt_add_left (Nat.mod_lt _ hC) _, ?_⟩
    have hsum : q.head + (p + q.head * (C - 1)) = p + q.head * C := by
      obtain ⟨n, rfl⟩ := Nat.exists_eq_succ_of_ne_zero (Nat.ne_of_gt hC)
      rw [Nat.succ_sub_one, Nat.mul_succ]
      omega
    rw [Nat.add_mod_mod, hsum, Nat.add_mul_mod_self_right]
  have hlap : p + C ≤ p' := by
    have hdvd := Nat.dvd_of_mod_eq_zero (Nat.sub_mod_eq_zero_of_mod_eq hmod)
    have := Nat.le_of_dvd (by omega) hdvd
    omega
  rw [← ConcurrentQueue.cell_congr hmod]
  by_cases hclaimed : p' < q.tail
  · rcases h.claimed p' hle hclaimed with hseq | ⟨hseq, -⟩ <;> omega
  · rcases h.free p' (Nat.not_lt.mp hclaimed) hlt with ⟨hseq, -⟩ | hseq <;> omega

/-- A `push` that fails finds the queue full, or a `pop` that has taken its item and not
returned. -/
theorem Abstracts.full (ha : Abstracts o s) (h : Inv s) (hb : Busy s.queue s.threads)
    (hpos : pos ≤ s.queue.tail) (hseq : (s.queue.cell pos).seq < pos) :
    o.state.items.length = C ∨ ∃ item, o.Pending .pop (.popped (some item)) := by
  have hroom := h.cells.room
  obtain rfl : pos = s.queue.tail := by
    rcases Nat.lt_or_ge pos s.queue.head with hlt | hge
    · have := h.cells.lt_seq hlt
      omega
    · by_contra hne
      rcases h.cells.claimed pos hge (by omega) with hclaimed | ⟨hclaimed, -⟩ <;> omega
  by_cases hfull : s.queue.tail = s.queue.head + C
  · left
    rw [ha.items, System.contents, List.length_drop, h.items_length]
    omega
  · right
    have hlt : s.queue.tail < s.queue.head + C := by omega
    rcases h.cells.free _ (Nat.le_refl _) hlt with ⟨hfree, -⟩ | hbusy
    · omega
    · obtain ⟨thread, hfrees⟩ := hb.freeing _ (Nat.le_refl _) hlt hbusy
      have hplaced := h.placed thread
      have hphase := ha.phases thread
      cases hloc : s.threads thread with
      | popCopy p =>
          rw [hloc] at hplaced hphase
          obtain ⟨pusher, hclaim, -⟩ := hplaced.2
          rw [phase, getElem?_pushedItems h.pushes hclaim] at hphase
          exact ⟨_, thread, hphase⟩
      | popStore p item =>
          rw [hloc] at hphase
          exact ⟨item, thread, hphase⟩
      | _ =>
          rw [hloc] at hfrees
          exact hfrees.elim

/-- A `pop` that fails finds the queue empty, or a `push` that has left its item and not
returned. -/
theorem Abstracts.empty (ha : Abstracts o s) (h : Inv s) (hb : Busy s.queue s.threads)
    (hpos : pos ≤ s.queue.head) (hseq : (s.queue.cell pos).seq ≤ pos) :
    o.state.items = [] ∨ ∃ item, o.Pending (.push item) (.pushed true) := by
  obtain rfl : pos = s.queue.head := by
    by_contra hne
    have := h.cells.lt_seq (show pos < s.queue.head by omega)
    omega
  by_cases hempty : s.queue.head = s.queue.tail
  · left
    rw [ha.items, System.contents, hempty, ← h.items_length, List.drop_length]
  · right
    have hlt : s.queue.head < s.queue.tail := Nat.lt_of_le_of_ne h.cells.le hempty
    rcases h.cells.claimed _ (Nat.le_refl _) hlt with hclaimed | ⟨hclaimed, -⟩
    · obtain ⟨thread, hfills⟩ := hb.filling _ (Nat.le_refl _) hlt hclaimed
      have hphase := ha.phases thread
      cases hloc : s.threads thread with
      | pushWrite item p =>
          rw [hloc] at hphase
          exact ⟨item, thread, hphase⟩
      | pushStore item p =>
          rw [hloc] at hphase
          exact ⟨item, thread, hphase⟩
      | _ =>
          rw [hloc] at hfills
          exact hfills.elim
    · omega

end Failures

/-! ### Every interleaving -/

section Interleavings

variable [DecidableEq Thread] {s : System Thread T C}
  {o : Atomic.Object Thread (QueueOp T) (QueueAnswer T) (BoundedFifo T C)}

theorem Abstracts.advance (hC : 2 ≤ C) (ha : Abstracts o s) (h : Inv s)
    (hb : Busy s.queue s.threads) {thread : Thread} {spuriously : Bool}
    {q' : ConcurrentQueue T C} {loc' : Local T} {event : Option (Event T)}
    (hadvance : s.queue.advance .unbounded spuriously (s.threads thread) =
      .ok (q', loc', event)) :
    ∃ o', Atomic.Trace (QueueEffect C) o
        (loc'.answer.map fun answer => (thread, Atomic.Event.ret answer)).toList o' ∧
      Abstracts o' ⟨q', Function.update s.threads thread loc',
        s.log ++ (event.map (thread, ·)).toList⟩ := by
  have hmove := advance_moves hadvance
  have hplaced := h.placed thread
  have hphase := ha.phases thread
  have hstay := ha.stay h thread
  generalize hloc : s.threads thread = loc at hmove hplaced hphase hadvance hstay
  cases hmove with
  | pushLoad item => exact ⟨o, .refl o, hstay _ _ _ rfl rfl rfl⟩
  | pushReady item pos hseq => exact ⟨o, .refl o, hstay _ _ _ rfl rfl rfl⟩
  | pushStale item pos => exact ⟨o, .refl o, hstay _ _ _ rfl rfl rfl⟩
  | pushRetry item pos => exact ⟨o, .refl o, hstay _ _ _ rfl rfl rfl⟩
  | pushWrite item pos => exact ⟨o, .refl o, hstay _ _ _ rfl rfl rfl⟩
  | popLoad => exact ⟨o, .refl o, hstay _ _ _ rfl rfl rfl⟩
  | popReady pos hseq => exact ⟨o, .refl o, hstay _ _ _ rfl rfl rfl⟩
  | popStale pos => exact ⟨o, .refl o, hstay _ _ _ rfl rfl rfl⟩
  | popRetry pos => exact ⟨o, .refl o, hstay _ _ _ rfl rfl rfl⟩
  | popCopy pos =>
      obtain ⟨pusher, hclaim, -⟩ := hplaced.2
      refine ⟨o, .refl o, hstay _ _ _ rfl rfl ?_⟩
      rw [phase, phase, getElem?_pushedItems h.pushes hclaim]
  | pushFull item pos =>
      have hfull := ha.full h hb hplaced (advance_full hadvance)
      refine ⟨_, .effect_ret hphase (.full hfull), ha.update h thread _ _ _ ?_ rfl⟩
      simpa [System.contents] using ha.items
  | popEmpty pos =>
      have hempty := ha.empty h hb hplaced (advance_empty hadvance)
      refine ⟨_, .effect_ret hphase (.empty hempty), ha.update h thread _ _ _ ?_ rfl⟩
      simpa [System.contents] using ha.items
  | pushClaim item =>
      have hseq := hplaced.2 (Nat.le_refl _)
      have hroom := (h.cells.tail_free hC hseq).1
      have hlength : o.state.items.length < C := by
        rw [ha.items, System.contents, List.length_drop, h.items_length]
        have := h.cells.le
        omega
      obtain ⟨hpushed, hitems⟩ := o.state.push_room item hlength
      have heffect : Atomic.Step (QueueEffect C) o none _ :=
        .effect hphase (.enqueue (Prod.ext hpushed rfl))
      refine ⟨_, .single heffect, ha.update h thread _ _ _ ?_ rfl⟩
      have hle : s.queue.head ≤ (pushedItems s.log).length := by
        rw [h.items_length]
        exact h.cells.le
      rw [Atomic.Object.setPhase_state, hitems, ha.items, System.contents, pushedItems_append,
        List.drop_append_of_le_length hle]
      rfl
  | pushStore item pos =>
      refine ⟨_, .single (.ret hphase), ha.update h thread _ _ _ ?_ rfl⟩
      simpa [System.contents] using ha.items
  | popClaim =>
      have hseq := hplaced.2 (Nat.le_refl _)
      obtain ⟨hlt, pusher, hclaim, -⟩ := h.cells.head_full hseq
      have hitem := getElem?_pushedItems h.pushes hclaim
      obtain ⟨hindex, hget⟩ := List.getElem?_eq_some_iff.mp hitem
      have hitems : o.state.items =
          (s.queue.cell s.queue.head).data :: (pushedItems s.log).drop (s.queue.head + 1) := by
        rw [ha.items, System.contents, List.drop_eq_getElem_cons hindex, hget]
      obtain ⟨hpopped, hrest⟩ := BoundedFifo.pop_cons hitems
      have heffect : Atomic.Step (QueueEffect C) o none _ :=
        .effect hphase (.dequeue (Prod.ext hpopped rfl))
      refine ⟨_, .single heffect, ha.update h thread _ _ _ ?_ ?_⟩
      · rw [Atomic.Object.setPhase_state, hrest, pushedItems_append]
        exact (List.append_nil _).symm ▸ rfl
      · rw [phase, pushedItems_append, List.getElem?_append_left hindex, hitem]
        rfl
  | popStore pos item =>
      refine ⟨_, .single (.ret hphase), ha.update h thread _ _ _ ?_ rfl⟩
      simpa [System.contents] using ha.items

/-- The queue can be followed from here on. -/
structure Follows (o : Atomic.Object Thread (QueueOp T) (QueueAnswer T) (BoundedFifo T C))
    (s : System Thread T C) : Prop where
  inv : Inv s
  busy : Busy s.queue s.threads
  abstracts : Abstracts o s

omit [DecidableEq Thread] [NeZero C] in
theorem phase_of_ready {log : List (Thread × Event T)} {loc : Local T} (h : loc.ready = true) :
    phase log loc = .idle := by
  cases loc <;> first | rfl | cases h

omit [DecidableEq Thread] [NeZero C] in
theorem not_busy_of_ready {loc : Local T} (h : loc.ready = true) (p : Nat) :
    ¬ loc.fills p ∧ ¬ loc.frees C p := by
  cases loc <;> first | exact ⟨id, id⟩ | cases h

/-- A thread that enters a call. -/
theorem Follows.enter (h : Follows o s) {thread : Thread} (start : Local T) {op : QueueOp T}
    (hstart : Placed s.queue s.log thread start) (hphase : phase s.log start = .called op)
    {s' : System Thread T C} (henter : s.enter thread start = .ok s') :
    ∃ o', Atomic.Trace (QueueEffect C) o [(thread, .call op)] o' ∧ Follows o' s' := by
  have hinv := h.inv.enter thread start hstart henter
  rw [System.enter] at henter
  split at henter
  · rename_i hready
    cases henter
    have hidle : o.phases thread = .idle := by rw [h.abstracts.phases, phase_of_ready hready]
    have habstracts : Abstracts (o.setPhase thread (.called op))
        { s with threads := Function.update s.threads thread start, log := s.log ++ [] } :=
      h.abstracts.update h.inv thread s.queue start []
        (by simpa [System.contents] using h.abstracts.items)
        (by rw [List.append_nil, hphase]; rfl)
    rw [List.append_nil] at habstracts
    exact ⟨_, .single (.call op hidle), hinv,
      h.busy.look rfl start (fun p => (not_busy_of_ready (C := C) hready p).1)
        (fun p => (not_busy_of_ready (C := C) hready p).2), habstracts⟩
  · cases henter

theorem Follows.step (hC : 2 ≤ C) (h : Follows o s) {action : Action Thread T}
    {s' : System Thread T C} (hstep : s.step .unbounded action = .ok s') :
    ∃ o', Atomic.Trace (QueueEffect C) o (s.visible action).toList o' ∧ Follows o' s' := by
  cases action with
  | push thread item => exact h.enter (.pushLoad item) trivial rfl hstep
  | pop thread => exact h.enter .popLoad trivial rfl hstep
  | advance thread spuriously =>
      have hinv := h.inv.step hC hstep
      cases hadvance : s.queue.advance .unbounded spuriously (s.threads thread) with
      | error e =>
          rw [System.step, hadvance] at hstep
          cases hstep
      | ok out =>
          obtain ⟨q', loc', event⟩ := out
          rw [System.step, hadvance] at hstep
          cases hstep
          obtain ⟨o', htrace, habstracts⟩ := h.abstracts.advance hC h.inv h.busy hadvance
          refine ⟨o', ?_, hinv, h.busy.advance hC h.inv.cells (h.inv.placed thread)
            (advance_moves hadvance), habstracts⟩
          rw [System.visible, hadvance]
          exact htrace

omit [DecidableEq Thread] in
/-- A queue that is reset while no thread is in a call can be followed, whatever its cells held. -/
theorem reset_follows (hC : 2 ≤ C) (q : ConcurrentQueue T C) :
    Follows (.quiet .empty) (⟨q.reset, fun _ => .idle, []⟩ : System Thread T C) where
  inv :=
    { cells :=
        { le := Nat.le_refl _
          room := Nat.zero_le _
          claimed := fun p _ hlt => absurd hlt (Nat.not_lt_zero p)
          free := fun p _ hlt => by
            have hp : p < C := by simpa [ConcurrentQueue.reset] using hlt
            exact .inl ⟨Nat.mod_eq_of_lt hp, fun hle => absurd hp (Nat.not_lt.mpr hle)⟩ }
      placed := fun _ => trivial
      pushes := rfl
      pops := rfl
      justified := EventLog.eachAfter_nil }
  busy :=
    { filling := fun p _ hlt => absurd hlt (Nat.not_lt_zero p)
      freeing := fun p _ hlt hseq => by
        have hp : p < C := by simpa [ConcurrentQueue.reset] using hlt
        have hreset : (q.reset.cell p).seq = p := Nat.mod_eq_of_lt hp
        rw [hreset] at hseq
        omega }
  abstracts := ⟨rfl, fun _ => rfl⟩

/-- Every history of calls and returns is one of the atomic bounded FIFO. -/
theorem histories_linearizable [Inhabited T] (hC : 2 ≤ C) (actions : List (Action Thread T))
    (hrun : Run.run (System.step .unbounded) actions System.new = .ok s) :
    Atomic.Linearizable (QueueEffect C) .empty
      (Run.outputs (System.step .unbounded) (fun action s => s.visible action) actions
        (System.new : System Thread T C)) :=
  Atomic.linearizable_of_follows (R := Follows) (fun _ _ _ _ h hstep => h.step hC hstep)
    (reset_follows hC .new) hrun

end Interleavings

/-- The first pop finds the ticket that is claimed and not filled, and fails. -/
def overtaken : List (Action Bool Nat) :=
  [.push false 7, .advance false false, .advance false false, .advance false false, .pop true,
    .advance true false, .advance true false, .advance false false, .advance false false, .pop true,
    .advance true false, .advance true false, .advance true false, .advance true false,
    .advance true false]

theorem histories_linearizable_sample :
    Atomic.Linearizable (QueueEffect 2) .empty
      [(false, .call (.push 7)), (true, .call .pop), (true, .ret (.popped none)),
        (false, .ret (.pushed true)), (true, .call .pop), (true, .ret (.popped (some 7)))] :=
  histories_linearizable (C := 2) (by decide) overtaken rfl

end HftProject.Week7
