import HftProject.Lib.Ownership
import HftProject.Lib.Run

/-!
`OrderBookBuffer` of `week_4/hw_4` over `HeapAllocator` or `ZeroInitAllocator` and without a lock:
buffers that own a block of memory, are moved and never copied. A program constructs, moves,
assigns and destroys any number of them.

Whatever it does, the buffers are bounded lists with the meaning of a move that leaves nothing
behind; no block is written outside, given back twice, or given back with an order in it, and the
blocks that are live are those of the buffers (`buffers_are_lists`).
-/

namespace HftProject.Week4

open Ownership

variable {T : Type}

/-! ### Memory -/

/-- A block for `capacity` objects, and those that live in it. -/
structure Block (T : Type) where
  capacity : Nat
  slots : Nat → Option T

/-- The blocks by their addresses. -/
abbrev Memory (T : Type) := Nat → Option (Block T)

inductive Fault where
  | notReady
  /-- Undefined behaviour. -/
  | undefined
  /-- A block is given back while an object lives in it. -/
  | abandoned
deriving DecidableEq, Repr

namespace Memory

/-- `new (buffer + index) T(x)` -/
def construct (buffer : Option Nat) (index : Nat) (x : T) (m : Memory T) :
    Except Fault (Memory T) :=
  match buffer with
  | none => .error .undefined
  | some a =>
      match m a with
      | some block =>
          if index < block.capacity ∧ block.slots index = none then
            .ok (Function.update m a
              (some { block with slots := Function.update block.slots index (some x) }))
          else .error .undefined
      | none => .error .undefined

/-- `buffer[index]` -/
def read (buffer : Option Nat) (index : Nat) (m : Memory T) : Except Fault T :=
  match buffer with
  | none => .error .undefined
  | some a =>
      match m a with
      | some block =>
          match block.slots index with
          | some x => .ok x
          | none => .error .undefined
      | none => .error .undefined

/-- `buffer[index].~T()` -/
def destruct (buffer : Option Nat) (index : Nat) (m : Memory T) : Except Fault (Memory T) :=
  match buffer with
  | none => .error .undefined
  | some a =>
      match m a with
      | some block =>
          if (block.slots index).isSome then
            .ok (Function.update m a
              (some { block with slots := Function.update block.slots index none }))
          else .error .undefined
      | none => .error .undefined

/-- `deallocate` of the allocator. -/
def deallocate (a : Nat) (m : Memory T) : Except Fault (Memory T) :=
  match m a with
  | some block =>
      if (List.range block.capacity).all fun i => (block.slots i).isNone then
        .ok (Function.update m a none)
      else .error .abandoned
  | none => .error .undefined

end Memory

/-! ### The buffers of a program -/

structure OrderBookBuffer where
  buffer : Option Nat
  size : Nat
  capacity : Nat
deriving DecidableEq, Repr

namespace OrderBookBuffer

/-- What a buffer is after it has been moved from. -/
def empty : OrderBookBuffer := ⟨none, 0, 0⟩

/-- The loop `for (i = size; i > 0; --i) buffer[i - 1].~T()`. -/
def destructAll (buffer : Option Nat) : Nat → Memory T → Except Fault (Memory T)
  | 0, m => .ok m
  | i + 1, m => do
      let m ← m.destruct buffer i
      destructAll buffer i m

/-- The destructor's body, which the assignment repeats. -/
def release (b : OrderBookBuffer) (m : Memory T) : Except Fault (Memory T) := do
  let m ← destructAll b.buffer b.size m
  match b.buffer with
  | some a => m.deallocate a
  | none => return m

/-- `add_order`, and what it returns. -/
def addOrder (order : T) (b : OrderBookBuffer) (m : Memory T) :
    Except Fault (Bool × OrderBookBuffer × Memory T) :=
  if b.size ≥ b.capacity then .ok (false, b, m)
  else do
    let m ← m.construct b.buffer b.size order
    return (true, { b with size := b.size + 1 }, m)

end OrderBookBuffer

/-- The variables that hold buffers, and the memory. A variable is `none` before its construction
and after its destruction. -/
structure Buffers (ι T : Type) where
  buffers : ι → Option OrderBookBuffer
  memory : Memory T

namespace Buffers

variable {ι : Type} [DecidableEq ι]

/-- An operation of the program. The address of a new block is chosen by the allocator among those
that are not in use. -/
inductive Op (ι T : Type) where
  | construct (i : ι) (capacity address : Nat)
  | moveConstruct (i j : ι)
  | moveAssign (i j : ι)
  | addOrder (i : ι) (order : T)
  | destroy (i : ι)

def start : Buffers ι T := ⟨fun _ => none, fun _ => none⟩

def set (i : ι) (b : Option OrderBookBuffer) (s : Buffers ι T) : Buffers ι T :=
  { s with buffers := Function.update s.buffers i b }

def construct (i : ι) (capacity address : Nat) (s : Buffers ι T) : Except Fault (Buffers ι T) :=
  match s.buffers i with
  | some _ => .error .notReady
  | none =>
      if capacity > 0 then
        if (s.memory address).isSome then .error .notReady
        else
          .ok { s.set i (some ⟨some address, 0, capacity⟩) with
            memory := Function.update s.memory address (some ⟨capacity, fun _ => none⟩) }
      else .ok (s.set i (some ⟨none, 0, capacity⟩))

def moveConstruct (i j : ι) (s : Buffers ι T) : Except Fault (Buffers ι T) :=
  match s.buffers i, s.buffers j with
  | none, some o => .ok ((s.set j (some .empty)).set i (some o))
  | _, _ => .error .notReady

def moveAssign (i j : ι) (s : Buffers ι T) : Except Fault (Buffers ι T) :=
  match s.buffers i, s.buffers j with
  | some b, some o =>
      if i = j then .ok s
      else do
        let memory ← b.release s.memory
        return { (s.set j (some .empty)).set i (some o) with memory }
  | _, _ => .error .notReady

def addOrder (i : ι) (order : T) (s : Buffers ι T) : Except Fault (Buffers ι T) :=
  match s.buffers i with
  | some b => do
      let (_, b, memory) ← b.addOrder order s.memory
      return { s.set i (some b) with memory }
  | none => .error .notReady

def destroy (i : ι) (s : Buffers ι T) : Except Fault (Buffers ι T) :=
  match s.buffers i with
  | some b => do
      let memory ← b.release s.memory
      return { s.set i none with memory }
  | none => .error .notReady

def step (op : Op ι T) (s : Buffers ι T) : Except Fault (Buffers ι T) :=
  match op with
  | .construct i capacity address => s.construct i capacity address
  | .moveConstruct i j => s.moveConstruct i j
  | .moveAssign i j => s.moveAssign i j
  | .addOrder i order => s.addOrder i order
  | .destroy i => s.destroy i

end Buffers

/-! ### The lists that they stand for -/

/-- The orders of a buffer. -/
structure Orders (T : Type) where
  orders : List T
  capacity : Nat
  bounded : orders.length ≤ capacity

namespace Orders

variable {ι : Type} [DecidableEq ι]

def empty (capacity : Nat) : Orders T := ⟨[], capacity, Nat.zero_le capacity⟩

/-- The order is refused if there is no room. -/
def add (order : T) (l : Orders T) : Orders T :=
  if h : l.orders.length < l.capacity then
    ⟨l.orders ++ [order], l.capacity, by rw [List.length_append]; exact h⟩
  else l

/-- What an operation does to the lists. -/
def step (op : Buffers.Op ι T) (lists : ι → Option (Orders T)) :
    Except Fault (ι → Option (Orders T)) :=
  match op with
  | .construct i capacity _ =>
      match lists i with
      | none => .ok (Function.update lists i (some (.empty capacity)))
      | some _ => .error .notReady
  | .moveConstruct i j =>
      match lists i, lists j with
      | none, some l =>
          .ok (Function.update (Function.update lists j (some (.empty 0))) i (some l))
      | _, _ => .error .notReady
  | .moveAssign i j =>
      match lists i, lists j with
      | some _, some l =>
          if i = j then .ok lists
          else .ok (Function.update (Function.update lists j (some (.empty 0))) i (some l))
      | _, _ => .error .notReady
  | .addOrder i order =>
      match lists i with
      | some l => .ok (Function.update lists i (some (l.add order)))
      | none => .error .notReady
  | .destroy i =>
      match lists i with
      | some _ => .ok (Function.update lists i none)
      | none => .error .notReady

end Orders

/-! ### One buffer -/

/-- The buffer holds the orders of the list. -/
structure Holds (m : Memory T) (b : OrderBookBuffer) (l : Orders T) : Prop where
  size : b.size = l.orders.length
  capacity : b.capacity = l.capacity
  null : b.buffer = none → l.capacity = 0
  block : ∀ a, b.buffer = some a → m a = some ⟨l.capacity, fun k => l.orders[k]?⟩

namespace Holds

variable {m : Memory T} {b : OrderBookBuffer} {l : Orders T}

theorem moved : Holds m .empty (.empty 0) := ⟨rfl, rfl, fun _ => rfl, nofun⟩

/-- A change of another block is none of its concern. -/
theorem frame (h : Holds m b l) {a : Nat} (ha : b.buffer ≠ some a) (block : Option (Block T)) :
    Holds (Function.update m a block) b l := by
  refine ⟨h.size, h.capacity, h.null, fun a' ha' => ?_⟩
  have hne : a' ≠ a := fun heq => ha (heq ▸ ha')
  rw [Function.update_of_ne hne, h.block a' ha']

theorem orders_nil (h : Holds m b l) (hnull : b.buffer = none) : l.orders = [] := by
  have hbounded := l.bounded
  rw [h.null hnull] at hbounded
  exact List.length_eq_zero_iff.mp (Nat.le_zero.mp hbounded)

/-- The orders from the last one down are destroyed, each once. -/
theorem destructAll_take {a : Nat} {capacity : Nat} (orders : List T) {n : Nat}
    (hn : n ≤ orders.length) (hm : m a = some ⟨capacity, fun k => (orders.take n)[k]?⟩) :
    OrderBookBuffer.destructAll (some a) n m =
      .ok (Function.update m a (some ⟨capacity, fun _ => none⟩)) := by
  induction n generalizing m with
  | zero =>
      have hslots : (fun k => (orders.take 0)[k]?) = fun _ : Nat => (none : Option T) := by
        funext k
        simp
      rw [hslots] at hm
      rw [OrderBookBuffer.destructAll, ← hm, Function.update_eq_self]
  | succ n ih =>
      have hlast : ((orders.take (n + 1))[n]?).isSome := by
        rw [List.getElem?_take_of_lt (Nat.lt_succ_self n), List.getElem?_eq_getElem hn]
        rfl
      have hless : Function.update (fun k => (orders.take (n + 1))[k]?) n none =
          fun k => (orders.take n)[k]? := by
        funext k
        by_cases hk : k = n
        · subst hk
          rw [Function.update_self, List.getElem?_take_eq_none (Nat.le_refl k)]
        · rw [Function.update_of_ne hk, List.getElem?_take, List.getElem?_take]
          split
          · rw [if_pos (by omega)]
          · rw [if_neg (by omega)]
      have hdestruct : m.destruct (some a) n =
          .ok (Function.update m a (some ⟨capacity, fun k => (orders.take n)[k]?⟩)) := by
        simp only [Memory.destruct, hm, hlast, if_true, hless]
      have hrest := ih (m := Function.update m a (some ⟨capacity, fun k => (orders.take n)[k]?⟩))
        (Nat.le_of_succ_le hn) (Function.update_self ..)
      rw [Function.update_idem] at hrest
      rw [OrderBookBuffer.destructAll, hdestruct]
      exact hrest

/-- The block is given back empty. -/
theorem release (h : Holds m b l) : b.release m =
    .ok (match b.buffer with
      | some a => Function.update m a none
      | none => m) := by
  cases hbuffer : b.buffer with
  | none =>
      have hsize : b.size = 0 := by
        rw [h.size, h.orders_nil hbuffer]
        rfl
      rw [OrderBookBuffer.release, hbuffer, hsize]
      rfl
  | some a =>
      have hblock := h.block a hbuffer
      have hall : OrderBookBuffer.destructAll (some a) b.size m =
          .ok (Function.update m a (some ⟨l.capacity, fun _ => none⟩)) := by
        rw [h.size]
        refine destructAll_take l.orders (Nat.le_refl _) ?_
        rw [List.take_length]
        exact hblock
      have hfree : Memory.deallocate a
          (Function.update m a (some (⟨l.capacity, fun _ => none⟩ : Block T))) =
            .ok (Function.update m a none) := by
        simp [Memory.deallocate]
      rw [OrderBookBuffer.release, hbuffer, hall]
      exact hfree

theorem addOrder (h : Holds m b l) (order : T) : ∃ success b' m',
    b.addOrder order m = .ok (success, b', m') ∧ b'.buffer = b.buffer ∧
      Holds m' b' (l.add order) ∧
        (m' = m ∨ ∃ a block, b.buffer = some a ∧ m' = Function.update m a (some block)) := by
  by_cases hroom : l.orders.length < l.capacity
  · cases hbuffer : b.buffer with
    | none =>
        rw [h.null hbuffer] at hroom
        exact absurd hroom (Nat.not_lt_zero _)
    | some a =>
        have hless : ¬ b.size ≥ b.capacity := by
          rw [h.size, h.capacity]
          omega
        have hslots : Function.update (fun k => l.orders[k]?) l.orders.length (some order) =
            fun k => (l.orders ++ [order])[k]? := by
          funext k
          by_cases hk : k = l.orders.length
          · subst hk
            simp
          · rw [Function.update_of_ne hk]
            rcases Nat.lt_or_gt_of_ne hk with hlt | hgt
            · rw [List.getElem?_append_left hlt]
            · rw [List.getElem?_eq_none (by omega), List.getElem?_eq_none (by simp; omega)]
        have hconstruct : m.construct (some a) b.size order = .ok (Function.update m a
            (some ⟨l.capacity, fun k => (l.orders ++ [order])[k]?⟩)) := by
          simp only [Memory.construct, h.block a hbuffer, h.size, List.getElem?_length, and_true,
            hroom, if_true, hslots]
        refine ⟨true, { b with size := b.size + 1 }, _, ?_, hbuffer, ?_,
          .inr ⟨a, ⟨l.capacity, fun k => (l.orders ++ [order])[k]?⟩, rfl, rfl⟩⟩
        · rw [OrderBookBuffer.addOrder, if_neg hless, hbuffer, hconstruct]
          rfl
        · rw [Orders.add, dif_pos hroom]
          refine ⟨?_, h.capacity, fun hnull => ?_, fun a' ha' => ?_⟩
          · rw [List.length_append, ← h.size]
            rfl
          · rw [hbuffer] at hnull
            cases hnull
          · rw [hbuffer] at ha'
            cases ha'
            exact Function.update_self ..
  · have hfull : b.size ≥ b.capacity := by
      rw [h.size, h.capacity]
      omega
    refine ⟨false, b, m, if_pos hfull, rfl, ?_, .inl rfl⟩
    rw [Orders.add, dif_neg hroom]
    exact h

end Holds

/-! ### All buffers -/

section Program

variable {ι : Type} [DecidableEq ι]

/-- A variable and the list it stands for. -/
inductive Stands (m : Memory T) : Option (Orders T) → Option OrderBookBuffer → Prop
  | none : Stands m none none
  | some {b : OrderBookBuffer} {l : Orders T} (h : Holds m b l) : Stands m (some l) (some b)

/-- The block of a variable. -/
def Buffers.held (s : Buffers ι T) (i : ι) : Option Nat := (s.buffers i).bind (·.buffer)

/-- The buffers hold the orders of the lists, and each block has one owner. -/
structure Refines (lists : ι → Option (Orders T)) (s : Buffers ι T) : Prop where
  stands : ∀ i, Stands s.memory (lists i) (s.buffers i)
  owned : Owned s.held fun a => (s.memory a).isSome = true

namespace Refines

variable {lists : ι → Option (Orders T)} {s : Buffers ι T} {i j : ι} {b : OrderBookBuffer}
  {l : Orders T}

omit [DecidableEq ι] in
theorem held_some (hb : s.buffers i = some b) : s.held i = b.buffer := by
  rw [Buffers.held, hb]
  rfl

theorem held_set (s : Buffers ι T) (i : ι) (b : Option OrderBookBuffer) :
    (s.set i b).held = Function.update s.held i (b.bind (·.buffer)) := by
  funext k
  exact Function.apply_update (fun _ b => Option.bind b (·.buffer)) s.buffers i b k

/-- A variable is set, the others stay. -/
theorem stands_update {m : Memory T} {buffers : ι → Option OrderBookBuffer}
    {list : Option (Orders T)} {b : Option OrderBookBuffer} (hset : Stands m list b)
    (hothers : ∀ k, k ≠ i → Stands m (lists k) (buffers k)) (k : ι) :
    Stands m (Function.update lists i list k) (Function.update buffers i b k) := by
  by_cases hk : k = i
  · subst hk
    rw [Function.update_self, Function.update_self]
    exact hset
  · rw [Function.update_of_ne hk, Function.update_of_ne hk]
    exact hothers k hk

omit [DecidableEq ι] in
/-- The block of one variable changes; the others have other blocks. -/
theorem stands_frame (h : Refines lists s) {a : Nat} (hi : s.held i = some a)
    (block : Option (Block T)) {k : ι} (hk : k ≠ i) :
    Stands (Function.update s.memory a block) (lists k) (s.buffers k) := by
  have hstands := h.stands k
  generalize lists k = list at hstands ⊢
  cases hb : s.buffers k with
  | none =>
      rw [hb] at hstands
      cases hstands
      exact .none
  | some b =>
      rw [hb] at hstands
      cases hstands with
      | some hholds =>
          refine .some (hholds.frame (fun hbuffer => hk ?_) block)
          exact h.owned.unique k i a ((held_some hb).trans hbuffer) hi

omit [DecidableEq ι] in
/-- Where the variable holds nothing that lives. -/
theorem lists_none (h : Refines lists s) (hb : s.buffers i = none) : lists i = none := by
  have hstands := h.stands i
  rw [hb] at hstands
  generalize lists i = list at hstands
  cases hstands
  rfl

omit [DecidableEq ι] in
theorem lists_some (h : Refines lists s) (hb : s.buffers i = some b) :
    ∃ l, lists i = some l ∧ Holds s.memory b l := by
  have hstands := h.stands i
  rw [hb] at hstands
  generalize lists i = list at hstands
  cases hstands with
  | some hholds => exact ⟨_, rfl, hholds⟩

/-- The operation is done and does the same to the lists, or it cannot be done now with either: it
is for a variable in the wrong state, or for an address that is in use. -/
def Does (lists : ι → Option (Orders T)) (s : Buffers ι T) (op : Buffers.Op ι T) : Prop :=
  (s.step op = .error .notReady ∧ (Orders.step op lists = .error .notReady ∨
    ∃ i capacity address, op = .construct i capacity address ∧
      (s.memory address).isSome = true)) ∨
  ∃ s' lists', s.step op = .ok s' ∧ Orders.step op lists = .ok lists' ∧ Refines lists' s'

/-- A variable is set and keeps its block. -/
theorem set_same (h : Refines lists s) {list : Option (Orders T)} {b : Option OrderBookBuffer}
    (hset : Stands s.memory list b) (hheld : b.bind (·.buffer) = s.held i) :
    Refines (Function.update lists i list) (s.set i b) := by
  refine ⟨stands_update hset fun k _ => h.stands k, ?_⟩
  rw [held_set, hheld, Function.update_eq_self]
  exact h.owned

/-- A variable takes a new block. -/
theorem allocated (h : Refines lists s) (hi : s.buffers i = none) {address : Nat}
    (hfree : ¬ (s.memory address).isSome = true) (capacity : Nat) :
    Refines (Function.update lists i (some (.empty capacity)))
      { s.set i (some ⟨some address, 0, capacity⟩) with
        memory := Function.update s.memory address (some ⟨capacity, fun _ => none⟩) } := by
  have hheld : s.held i = none := by
    rw [Buffers.held, hi]
    rfl
  refine ⟨stands_update (.some ⟨rfl, rfl, nofun, fun a ha => ?_⟩) fun k _ => ?_, ?_⟩
  · cases ha
    exact Function.update_self ..
  · have hstands := h.stands k
    generalize lists k = list at hstands ⊢
    cases hk : s.buffers k with
    | none =>
        rw [hk] at hstands
        cases hstands
        exact .none
    | some b =>
        rw [hk] at hstands
        cases hstands with
        | some hholds =>
            refine .some (hholds.frame (fun hbuffer => hfree ?_) _)
            exact (h.owned.live_iff address).mpr ⟨k, (held_some hk).trans hbuffer⟩
  · have hset := held_set s i (some ⟨some address, 0, capacity⟩)
    change Owned (s.set i (some ⟨some address, 0, capacity⟩)).held _
    rw [hset]
    refine (h.owned.acquire hheld hfree).congr fun a => ?_
    by_cases ha : a = address
    · simp [ha]
    · simp [ha]

theorem construct (h : Refines lists s) (i : ι) (capacity address : Nat) :
    Does lists s (.construct i capacity address) := by
  rw [Does]
  simp only [Buffers.step, Orders.step]
  unfold Buffers.construct
  cases hb : s.buffers i with
  | some b =>
      obtain ⟨l, hl, -⟩ := h.lists_some hb
      rw [hl]
      exact .inl ⟨rfl, .inl rfl⟩
  | none =>
      rw [h.lists_none hb]
      by_cases hpos : capacity > 0
      · by_cases hused : (s.memory address).isSome = true
        · exact .inl ⟨(if_pos hpos).trans (if_pos hused), .inr ⟨i, capacity, address, rfl, hused⟩⟩
        · exact .inr ⟨_, _, (if_pos hpos).trans (if_neg hused), rfl, h.allocated hb hused capacity⟩
      · have hset : Stands s.memory (some (.empty capacity)) (some ⟨none, 0, capacity⟩) :=
          .some ⟨rfl, rfl, fun _ => Nat.eq_zero_of_not_pos hpos, fun a ha => by cases ha⟩
        have hheld : s.held i = none := by
          rw [Buffers.held, hb]
          rfl
        exact .inr ⟨_, _, if_neg hpos, rfl, h.set_same hset hheld.symm⟩

/-- A buffer is given up with its block. -/
theorem released (h : Refines lists s) (hb : s.buffers i = some b) : ∃ memory,
    b.release s.memory = .ok memory ∧
      Refines (Function.update lists i none) { s.set i none with memory } := by
  obtain ⟨l, -, hholds⟩ := h.lists_some hb
  have hheld : s.held i = b.buffer := held_some hb
  have hrelease := hholds.release
  cases hbuffer : b.buffer with
  | none =>
      rw [hbuffer] at hrelease hheld
      exact ⟨s.memory, hrelease, h.set_same .none hheld.symm⟩
  | some a =>
      rw [hbuffer] at hrelease hheld
      refine ⟨_, hrelease, stands_update .none fun k hk => h.stands_frame hheld none hk, ?_⟩
      have hset := held_set s i none
      change Owned (s.set i none).held _
      rw [hset]
      refine (h.owned.release hheld).congr fun a' => ?_
      by_cases ha : a' = a
      · simp [ha]
      · simp [ha]

/-- A buffer goes to a variable that has none. -/
theorem moved (h : Refines lists s) (hi : s.buffers i = none) {o : OrderBookBuffer}
    (hj : s.buffers j = some o) (hl : lists j = some l) :
    Refines (Function.update (Function.update lists j (some (.empty 0))) i (some l))
      ((s.set j (some .empty)).set i (some o)) := by
  have hij : i ≠ j := fun heq => by
    rw [heq, hj] at hi
    cases hi
  have hheld : s.held i = none := by
    rw [Buffers.held, hi]
    rfl
  have hholds : Holds s.memory o l := by
    obtain ⟨l', hl', hholds⟩ := h.lists_some hj
    cases hl.symm.trans hl'
    exact hholds
  constructor
  · refine stands_update (.some hholds) fun k _ => ?_
    exact stands_update (.some .moved) (fun k _ => h.stands k) k
  · have hmoved := h.owned.move (j := j) hheld
    rw [held_some hj] at hmoved
    rw [held_set, held_set]
    exact hmoved

theorem moveConstruct (h : Refines lists s) (i j : ι) : Does lists s (.moveConstruct i j) := by
  rw [Does]
  simp only [Buffers.step, Orders.step]
  unfold Buffers.moveConstruct
  cases hi : s.buffers i with
  | some b =>
      obtain ⟨l, hl, -⟩ := h.lists_some hi
      rw [hl]
      exact .inl ⟨rfl, .inl rfl⟩
  | none =>
      rw [h.lists_none hi]
      cases hj : s.buffers j with
      | none =>
          rw [h.lists_none hj]
          exact .inl ⟨rfl, .inl rfl⟩
      | some o =>
          obtain ⟨l, hl, -⟩ := h.lists_some hj
          rw [hl]
          exact .inr ⟨_, _, rfl, rfl, h.moved hi hj hl⟩

theorem moveAssign (h : Refines lists s) (i j : ι) : Does lists s (.moveAssign i j) := by
  rw [Does]
  simp only [Buffers.step, Orders.step]
  unfold Buffers.moveAssign
  cases hi : s.buffers i with
  | none =>
      rw [h.lists_none hi]
      exact .inl ⟨rfl, .inl rfl⟩
  | some b =>
      obtain ⟨l, hl, -⟩ := h.lists_some hi
      rw [hl]
      cases hj : s.buffers j with
      | none =>
          rw [h.lists_none hj]
          exact .inl ⟨rfl, .inl rfl⟩
      | some o =>
          obtain ⟨l', hl', -⟩ := h.lists_some hj
          rw [hl']
          by_cases hij : i = j
          · exact .inr ⟨s, lists, if_pos hij, if_pos hij, h⟩
          · obtain ⟨memory, hrelease, hreleased⟩ := h.released hi
            have hmoved := hreleased.moved (i := i) (j := j) (o := o) (l := l')
              (Function.update_self ..)
              ((Function.update_of_ne (Ne.symm hij) _ _).trans hj)
              ((Function.update_of_ne (Ne.symm hij) _ _).trans hl')
            refine .inr ⟨{ (s.set j (some .empty)).set i (some o) with memory }, _, ?_,
              if_neg hij, ?_⟩
            · simp only [if_neg hij, hrelease]
              rfl
            · -- the release of `i` is overwritten by what comes from `j`
              rw [Function.update_comm hij, Function.update_idem] at hmoved
              have hset : ((({ s.set i none with memory } : Buffers ι T).set j (some .empty)).set i
                  (some o)) = { (s.set j (some .empty)).set i (some o) with memory } := by
                simp only [Buffers.set]
                rw [Function.update_comm hij, Function.update_idem]
              rwa [hset] at hmoved

theorem addOrder (h : Refines lists s) (i : ι) (order : T) :
    Does lists s (.addOrder i order) := by
  rw [Does]
  simp only [Buffers.step, Orders.step]
  unfold Buffers.addOrder
  cases hi : s.buffers i with
  | none =>
      rw [h.lists_none hi]
      exact .inl ⟨rfl, .inl rfl⟩
  | some b =>
      obtain ⟨l, hl, hholds⟩ := h.lists_some hi
      obtain ⟨success, b', m', hadd, hbuffer, hholds', hm⟩ := hholds.addOrder order
      have hheld : s.held i = b.buffer := held_some hi
      rw [hl]
      refine .inr ⟨{ s.set i (some b') with memory := m' }, _, ?_, rfl, ?_⟩
      · simp only [hadd]
        rfl
      · rcases hm with hm | ⟨a, block, ha, hm⟩
        · subst hm
          exact h.set_same (.some hholds') (hbuffer.trans hheld.symm)
        · subst hm
          rw [ha] at hheld
          refine ⟨stands_update (.some hholds') fun k hk => h.stands_frame hheld _ hk, ?_⟩
          have hset := held_set s i (some b')
          change Owned (s.set i (some b')).held _
          rw [hset, Option.bind_some, hbuffer, ha, ← hheld, Function.update_eq_self]
          have hlive : (s.memory a).isSome = true := (h.owned.live_iff a).mpr ⟨i, hheld⟩
          refine h.owned.congr fun a' => ?_
          by_cases ha' : a' = a
          · simp [ha', hlive]
          · simp [ha']

theorem destroy (h : Refines lists s) (i : ι) : Does lists s (.destroy i) := by
  rw [Does]
  simp only [Buffers.step, Orders.step]
  unfold Buffers.destroy
  cases hi : s.buffers i with
  | none =>
      rw [h.lists_none hi]
      exact .inl ⟨rfl, .inl rfl⟩
  | some b =>
      obtain ⟨l, hl, -⟩ := h.lists_some hi
      obtain ⟨memory, hrelease, hreleased⟩ := h.released hi
      rw [hl]
      simp only [hrelease]
      exact .inr ⟨_, _, rfl, rfl, hreleased⟩

theorem step (h : Refines lists s) (op : Buffers.Op ι T) : Does lists s op := by
  cases op with
  | construct i capacity address => exact h.construct i capacity address
  | moveConstruct i j => exact h.moveConstruct i j
  | moveAssign i j => exact h.moveAssign i j
  | addOrder i order => exact h.addOrder i order
  | destroy i => exact h.destroy i

omit [DecidableEq ι] in
theorem start : Refines (fun _ => none) (Buffers.start : Buffers ι T) :=
  ⟨fun _ => .none, ⟨nofun, fun _ => ⟨nofun, fun ⟨_, hi⟩ => nomatch hi⟩⟩⟩

/-- A run of the buffers is one of the lists. -/
theorem run {ops : List (Buffers.Op ι T)} (h : Run.run Buffers.step ops Buffers.start = .ok s) :
    ∃ lists, Run.run Orders.step ops (fun _ => none) = .ok lists ∧ Refines lists s := by
  refine Run.run_simulates (fun op lists s s' hrefines hstep => ?_) start h
  rcases hrefines.step op with ⟨hnot, -⟩ | ⟨t, lists', ht, hlists', hrefines'⟩
  · rw [hnot] at hstep
    cases hstep
  · rw [ht] at hstep
    cases hstep
    exact ⟨lists', hlists', hrefines'⟩

end Refines

/-- A buffer with an order is assigned over one with two, whose block goes. -/
def assigned : List (Buffers.Op Bool Nat) :=
  [.construct true 2 40, .addOrder true 7, .addOrder true 8, .addOrder true 9,
    .construct false 3 50, .addOrder false 5, .moveAssign true false, .addOrder false 6,
    .addOrder true 1]

end Program

end HftProject.Week4
