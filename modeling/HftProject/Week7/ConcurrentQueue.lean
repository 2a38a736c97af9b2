import HftProject.Lib.Run
import Mathlib.Algebra.Order.Ring.Nat
import Mathlib.Logic.Function.Basic
import Mathlib.Data.List.Range

/-!
`ConcurrentQueue` of `week_7` and of the challenge client, whose `push` and `pop` are the
same: a ring of cells with a sequence number each. A call is a thread's walk through
`Local`, one atomic access a step (`advance`). Any number of threads take their steps in
any order (`step`); a single thread takes its own to the end (`call`).

Memory is sequentially consistent, so the fence of `week_7` has no effect. The counters
are unbounded or words of 64 bits (`Counters`).
-/

namespace HftProject.Week7

/-- Why a step is not taken. -/
inductive Fault where
  /-- The thread is in a call, or in none that could go on. -/
  | notReady
  /-- A signed difference outside `intptr_t`. -/
  | overflow
  /-- A call that does not return within the steps the model allows it. -/
  | diverged
deriving DecidableEq, Repr

/-- Arithmetic of `size_t` and of the difference of two of them as `intptr_t`. -/
structure Counters where
  add : Nat → Nat → Nat
  dif : Nat → Nat → Except Fault Int

namespace Counters

def unbounded : Counters where
  add a b := a + b
  dif a b := .ok (a - b)

/-- `static_cast<intptr_t>` -/
def toSigned (a : Nat) : Int := if a < 2 ^ 63 then a else a - 2 ^ 64

def word : Counters where
  add a b := (a + b) % 2 ^ 64
  dif a b :=
    let d := toSigned a - toSigned b
    if -2 ^ 63 ≤ d ∧ d < 2 ^ 63 then .ok d else .error .overflow

end Counters

structure Cell (T : Type) where
  seq : Nat
  data : T
deriving DecidableEq, Repr

structure ConcurrentQueue (T : Type) (capacity : Nat) where
  buffer : Fin capacity → Cell T
  head : Nat
  tail : Nat

/-- Where a thread is: in no call yet, before an access of `push` or of `pop`, or back from
a call. -/
inductive Local (T : Type) where
  | idle
  /-- Before `tail.load()`. -/
  | pushLoad (item : T)
  /-- Before `cell->seq.load()`. -/
  | pushSeq (item : T) (pos : Nat)
  /-- Before `tail.compare_exchange_weak(pos, pos + 1)`. -/
  | pushExchange (item : T) (pos : Nat)
  /-- Before `cell->data = item`. -/
  | pushWrite (item : T) (pos : Nat)
  /-- Before `cell->seq.store(pos + 1)`. -/
  | pushStore (item : T) (pos : Nat)
  | pushed (success : Bool)
  | popLoad
  | popSeq (pos : Nat)
  | popExchange (pos : Nat)
  /-- Before `item = cell->data`. -/
  | popCopy (pos : Nat)
  /-- Before `cell->seq.store(pos + Capacity)`. -/
  | popStore (pos : Nat) (item : T)
  | popped (item : Option T)
deriving DecidableEq, Repr

/-- The thread is in no call. -/
def Local.ready {T : Type} : Local T → Bool
  | .idle => true
  | .pushed _ => true
  | .popped _ => true
  | _ => false

/-- The next step is an exchange. -/
def Local.exchanging {T : Type} : Local T → Bool
  | .pushExchange _ _ => true
  | .popExchange _ => true
  | _ => false

/-- What a step means for a ticket. -/
inductive Event (T : Type) where
  | claimPush (pos : Nat) (item : T)
  | write (pos : Nat) (item : T)
  | claimPop (pos : Nat)
  | copied (pos : Nat) (item : T)
deriving DecidableEq, Repr

namespace ConcurrentQueue

variable {T : Type} {C : Nat} [NeZero C]

omit [NeZero C] in
def new [Inhabited T] : ConcurrentQueue T C := ⟨fun i => ⟨i, default⟩, 0, 0⟩

/-- `buffer[pos % Capacity]` -/
def cell (q : ConcurrentQueue T C) (pos : Nat) : Cell T := q.buffer (Fin.ofNat C pos)

def setCell (q : ConcurrentQueue T C) (pos : Nat) (cell : Cell T) : ConcurrentQueue T C :=
  { q with buffer := Function.update q.buffer (Fin.ofNat C pos) cell }

/-- The next access of a call. An exchange may fail `spuriously`; it leaves the counter it
found in `pos`. -/
def advance (n : Counters) (spuriously : Bool) (q : ConcurrentQueue T C) :
    Local T → Except Fault (ConcurrentQueue T C × Local T × Option (Event T))
  | .pushLoad item => .ok (q, .pushSeq item q.tail, none)
  | .pushSeq item pos => do
      let dif ← n.dif (q.cell pos).seq pos
      if dif = 0 then return (q, .pushExchange item pos, none)
      else if dif < 0 then return (q, .pushed false, none)
      else return (q, .pushLoad item, none)
  | .pushExchange item pos =>
      if q.tail = pos ∧ spuriously = false then
        .ok ({ q with tail := n.add pos 1 }, .pushWrite item pos, some (.claimPush pos item))
      else .ok (q, .pushSeq item q.tail, none)
  | .pushWrite item pos =>
      .ok (q.setCell pos { q.cell pos with data := item }, .pushStore item pos,
        some (.write pos item))
  | .pushStore _ pos =>
      .ok (q.setCell pos { q.cell pos with seq := n.add pos 1 }, .pushed true, none)
  | .popLoad => .ok (q, .popSeq q.head, none)
  | .popSeq pos => do
      let dif ← n.dif (q.cell pos).seq (n.add pos 1)
      if dif = 0 then return (q, .popExchange pos, none)
      else if dif < 0 then return (q, .popped none, none)
      else return (q, .popLoad, none)
  | .popExchange pos =>
      if q.head = pos ∧ spuriously = false then
        .ok ({ q with head := n.add pos 1 }, .popCopy pos, some (.claimPop pos))
      else .ok (q, .popSeq q.head, none)
  | .popCopy pos => .ok (q, .popStore pos (q.cell pos).data, some (.copied pos (q.cell pos).data))
  | .popStore pos item =>
      .ok (q.setCell pos { q.cell pos with seq := n.add pos C }, .popped (some item), none)
  | .idle => .error .notReady
  | .pushed _ => .error .notReady
  | .popped _ => .error .notReady

/-! ### A single thread -/

/-- The steps of a call to its return, when no other thread takes any. The first `failures`
exchanges fail spuriously. -/
def finish (n : Counters) : Nat → Nat → ConcurrentQueue T C → Local T →
    Except Fault (ConcurrentQueue T C × Local T)
  | 0, _, _, _ => .error .diverged
  | fuel + 1, failures, q, loc =>
      if loc.ready then .ok (q, loc)
      else do
        let (q, loc', _) ← q.advance n (decide (0 < failures)) loc
        finish n fuel (if loc.exchanging then failures - 1 else failures) q loc'

def push (n : Counters) (item : T) (failures : Nat) (q : ConcurrentQueue T C) :
    Except Fault (ConcurrentQueue T C × Local T) :=
  finish n (2 * failures + 6) failures q (.pushLoad item)

def pop (n : Counters) (failures : Nat) (q : ConcurrentQueue T C) :
    Except Fault (ConcurrentQueue T C × Local T) :=
  finish n (2 * failures + 6) failures q .popLoad

omit [NeZero C]

def reset (q : ConcurrentQueue T C) : ConcurrentQueue T C :=
  { buffer := fun i => { q.buffer i with seq := i }
    head := 0
    tail := 0 }

/-- `t - h` in `size_t` -/
def size (q : ConcurrentQueue T C) : Nat := (q.tail + 2 ^ 64 - q.head) % 2 ^ 64

def isEmpty (q : ConcurrentQueue T C) : Bool := q.size = 0

/-- `size` of the challenge client. -/
def clientSize (q : ConcurrentQueue T C) : Nat :=
  if q.head ≤ q.tail then q.tail - q.head
  else (C + 2 ^ 64 - (q.head - q.tail)) % 2 ^ 64

/-- `is_empty` of the challenge client. -/
def clientIsEmpty (q : ConcurrentQueue T C) : Bool := q.head = q.tail

end ConcurrentQueue

/-! ### Any number of threads -/

/-- The queue, where each thread is, and what has happened to the tickets so far. -/
structure System (Thread T : Type) (C : Nat) where
  queue : ConcurrentQueue T C
  threads : Thread → Local T
  log : List (Thread × Event T)

inductive Action (Thread T : Type) where
  | push (thread : Thread) (item : T)
  | pop (thread : Thread)
  | advance (thread : Thread) (spuriously : Bool)
deriving DecidableEq, Repr

namespace System

variable {Thread T : Type} {C : Nat} [DecidableEq Thread] [NeZero C]

omit [DecidableEq Thread] [NeZero C] in
def new [Inhabited T] : System Thread T C := ⟨.new, fun _ => .idle, []⟩

omit [NeZero C] in
/-- A thread enters a call. -/
def enter (thread : Thread) (start : Local T) (s : System Thread T C) :
    Except Fault (System Thread T C) :=
  if (s.threads thread).ready then
    .ok { s with threads := Function.update s.threads thread start }
  else .error .notReady

def step (n : Counters) (action : Action Thread T) (s : System Thread T C) :
    Except Fault (System Thread T C) :=
  match action with
  | .push thread item => s.enter thread (.pushLoad item)
  | .pop thread => s.enter thread .popLoad
  | .advance thread spuriously => do
      let (queue, loc, event) ← s.queue.advance n spuriously (s.threads thread)
      return ⟨queue, Function.update s.threads thread loc,
        s.log ++ (event.map (thread, ·)).toList⟩

end System

end HftProject.Week7
