import HftProject.Lib.BoundedFifo
import HftProject.Week7.QueueInvariant

/-!
The `ConcurrentQueue` in the hands of one thread, with counters of 64 bits. It is a bounded
FIFO queue as long as a queue of one cell is not pushed to while it holds an item
(`calls_agree_iff`): there the sequence number of a published cell is that of a free one.
-/

namespace HftProject.Week7

variable {T : Type} {C : Nat} [NeZero C]

namespace ConcurrentQueue

/-! ### Calls to their end -/

section Finish

variable {n : Counters} {q : ConcurrentQueue T C}

/-- The queue after a push has claimed, written and published `tail`. -/
def appended (n : Counters) (q : ConcurrentQueue T C) (item : T) : ConcurrentQueue T C :=
  { q with tail := n.add q.tail 1 }.setCell q.tail ⟨n.add q.tail 1, item⟩

/-- The queue after a pop has claimed, copied and freed `head`. -/
def removed (n : Counters) (q : ConcurrentQueue T C) : ConcurrentQueue T C :=
  { q with head := n.add q.head 1 }.setCell q.head ⟨n.add q.head C, (q.cell q.head).data⟩

theorem finish_ready (fuel failures : Nat) {loc : Local T} (h : loc.ready = true) :
    finish n (fuel + 1) failures q loc = .ok (q, loc) := by
  rw [finish, if_pos h]

theorem finish_step {fuel failures failures' : Nat} {q' : ConcurrentQueue T C}
    {loc loc' : Local T} {event : Option (Event T)} (hloc : loc.ready = false)
    (hfailures : (if loc.exchanging then failures - 1 else failures) = failures')
    (h : q.advance n (decide (0 < failures)) loc = .ok (q', loc', event)) :
    finish n (fuel + 1) failures q loc = finish n fuel failures' q' loc' := by
  rw [finish, if_neg (by simp [hloc]), h, ← hfailures]
  rfl

/-- The cell is ready for the push: it goes through once the exchange does. -/
theorem finish_push_ready (item : T) (hdif : n.dif (q.cell q.tail).seq q.tail = .ok 0)
    (failures : Nat) :
    finish n (2 * failures + 5) failures q (.pushSeq item q.tail) =
      .ok (q.appended n item, .pushed true) := by
  have hseq : ∀ spuriously, q.advance n spuriously (.pushSeq item q.tail) =
      .ok (q, .pushExchange item q.tail, none) := by
    intro spuriously
    rw [advance, hdif]
    rfl
  induction failures with
  | zero =>
      apply (finish_step rfl rfl (hseq _)).trans
      apply (finish_step rfl rfl (by rw [advance, if_pos ⟨rfl, rfl⟩])).trans
      apply (finish_step rfl rfl rfl).trans
      apply (finish_step rfl rfl rfl).trans
      apply (finish_ready 0 0 rfl).trans
      simp [appended, setCell, cell]
  | succ failures ih =>
      apply (finish_step rfl rfl (hseq _)).trans
      apply (finish_step rfl rfl (by rw [advance, if_neg (by simp [Local.exchanging])])).trans
      exact ih

/-- The cell holds the item for the pop: it goes through once the exchange does. -/
theorem finish_pop_ready (hdif : n.dif (q.cell q.head).seq (n.add q.head 1) = .ok 0)
    (failures : Nat) :
    finish n (2 * failures + 5) failures q (.popSeq q.head) =
      .ok (q.removed n, .popped (some (q.cell q.head).data)) := by
  have hseq : ∀ spuriously, q.advance n spuriously (.popSeq q.head) =
      .ok (q, .popExchange q.head, none) := by
    intro spuriously
    rw [advance, hdif]
    rfl
  induction failures with
  | zero =>
      apply (finish_step rfl rfl (hseq _)).trans
      apply (finish_step rfl rfl (by rw [advance, if_pos ⟨rfl, rfl⟩])).trans
      apply (finish_step rfl rfl rfl).trans
      apply (finish_step rfl rfl rfl).trans
      apply (finish_ready 0 0 rfl).trans
      rfl
  | succ failures ih =>
      apply (finish_step rfl rfl (hseq _)).trans
      apply (finish_step rfl rfl (by rw [advance, if_neg (by simp [Local.exchanging])])).trans
      exact ih

theorem push_ready (item : T) (failures : Nat)
    (hdif : n.dif (q.cell q.tail).seq q.tail = .ok 0) :
    q.push n item failures = .ok (q.appended n item, .pushed true) := by
  apply (finish_step rfl rfl rfl).trans
  exact finish_push_ready item hdif failures

theorem push_full (item : T) (failures : Nat) {d : Int} (hd : d < 0)
    (hdif : n.dif (q.cell q.tail).seq q.tail = .ok d) :
    q.push n item failures = .ok (q, .pushed false) := by
  have hne : d ≠ 0 := by omega
  have hseq : q.advance n (decide (0 < failures)) (.pushSeq item q.tail) =
      .ok (q, .pushed false, none) := by
    rw [advance, hdif]
    change (if _ then _ else if _ then _ else _) = _
    rw [if_neg hne, if_pos hd]
    rfl
  apply (finish_step rfl rfl rfl).trans
  apply (finish_step rfl rfl hseq).trans
  exact finish_ready _ _ rfl

theorem pop_ready (failures : Nat)
    (hdif : n.dif (q.cell q.head).seq (n.add q.head 1) = .ok 0) :
    q.pop n failures = .ok (q.removed n, .popped (some (q.cell q.head).data)) := by
  apply (finish_step rfl rfl rfl).trans
  exact finish_pop_ready hdif failures

theorem pop_empty (failures : Nat) {d : Int} (hd : d < 0)
    (hdif : n.dif (q.cell q.head).seq (n.add q.head 1) = .ok d) :
    q.pop n failures = .ok (q, .popped none) := by
  have hne : d ≠ 0 := by omega
  have hseq : q.advance n (decide (0 < failures)) (.popSeq q.head) =
      .ok (q, .popped none, none) := by
    rw [advance, hdif]
    change (if _ then _ else if _ then _ else _) = _
    rw [if_neg hne, if_pos hd]
    rfl
  apply (finish_step rfl rfl rfl).trans
  apply (finish_step rfl rfl hseq).trans
  exact finish_ready _ _ rfl

end Finish

end ConcurrentQueue

/-! ### The queue and the items it holds -/

/-- A call of the one thread, with the number of times its exchange fails spuriously. -/
inductive Call (T : Type) where
  | push (item : T) (failures : Nat)
  | pop (failures : Nat)
  | reset
deriving DecidableEq, Repr

/-- The call, and where it leaves the thread. -/
def ConcurrentQueue.call (call : Call T) (q : ConcurrentQueue T C) :
    Except Fault (ConcurrentQueue T C × Local T) :=
  match call with
  | .push item failures => q.push .word item failures
  | .pop failures => q.pop .word failures
  | .reset => .ok (q.reset, .idle)

/-- The call on a bounded queue, and what it should return. -/
def fifoCall (call : Call T) (f : BoundedFifo T C) : BoundedFifo T C × Local T :=
  match call with
  | .push item _ => ((f.push item).2, .pushed (f.push item).1)
  | .pop _ => (f.pop.2, .popped f.pop.1)
  | .reset => (.empty, .idle)

/-- The code's queue and the queue it should be take the call together. -/
def stepBoth (call : Call T) (s : ConcurrentQueue T C × BoundedFifo T C) :
    Except Fault (ConcurrentQueue T C × BoundedFifo T C) := do
  let (q, _) ← s.1.call call
  return (q, (fifoCall call s.2).1)

/-- The call returns what it should, leaves the queue as it was when it returns false, and
the sizes are those of the queue it should be. -/
def Agrees (call : Call T) (s : ConcurrentQueue T C × BoundedFifo T C) : Prop :=
  ∃ q, s.1.call call = .ok (q, (fifoCall call s.2).2) ∧
    ((fifoCall call s.2).2 = .pushed false ∨ (fifoCall call s.2).2 = .popped none → q = s.1) ∧
    q.size = (fifoCall call s.2).1.items.length ∧
    q.clientSize = (fifoCall call s.2).1.items.length ∧
    (q.isEmpty = true ↔ (fifoCall call s.2).1.items = []) ∧
    (q.clientIsEmpty = true ↔ (fifoCall call s.2).1.items = [])

/-- A queue of one cell is pushed to only while it is empty. -/
def Room (call : Call T) (s : ConcurrentQueue T C × BoundedFifo T C) : Prop :=
  match call with
  | .push _ _ => 2 ≤ C ∨ s.2.items = []
  | .pop _ => True
  | .reset => True

/-- `push` is called while fewer than `2 ^ 63 - 2` items have been pushed since the last
`reset`. -/
def InRange (call : Call T) (s : ConcurrentQueue T C × BoundedFifo T C) : Prop :=
  match call with
  | .push _ _ => s.1.tail + 2 < 2 ^ 63
  | .pop _ => True
  | .reset => True

/-- The cells from `head` to `tail` hold the items, the others are free. -/
structure Holds (q : ConcurrentQueue T C) (items : List T) : Prop where
  tail : q.tail = q.head + items.length
  room : items.length ≤ C
  range : q.tail + 1 < 2 ^ 63
  stored : ∀ i (h : i < items.length), q.cell (q.head + i) = ⟨q.head + i + 1, items[i]⟩
  free : ∀ p, q.tail ≤ p → p < q.head + C → p < 2 ^ 64 → (q.cell p).seq = p

/-! ### Calls in range -/

theorem word_add {a b : Nat} (h : a + b < 2 ^ 64) : Counters.word.add a b = a + b :=
  Nat.mod_eq_of_lt h

theorem word_dif {a b : Nat} (ha : a < 2 ^ 63) (hb : b < 2 ^ 63) :
    Counters.word.dif a b = .ok (a - b) := by
  have hsigned : ∀ c < 2 ^ 63, Counters.toSigned c = c := fun c hc => if_pos hc
  change (if _ then _ else _) = _
  rw [hsigned a ha, hsigned b hb, if_pos (by omega)]

namespace Holds

variable {q : ConcurrentQueue T C} {items : List T}

theorem size (h : Holds q items) : q.size = items.length := by
  have htail := h.tail
  have hrange := h.range
  unfold ConcurrentQueue.size
  omega

theorem clientSize (h : Holds q items) : q.clientSize = items.length := by
  have htail := h.tail
  rw [ConcurrentQueue.clientSize, if_pos (by omega)]
  omega

theorem isEmpty (h : Holds q items) : q.isEmpty = true ↔ items = [] := by
  rw [ConcurrentQueue.isEmpty, h.size, decide_eq_true_iff, List.length_eq_zero_iff]

theorem clientIsEmpty (h : Holds q items) : q.clientIsEmpty = true ↔ items = [] := by
  have htail := h.tail
  rw [ConcurrentQueue.clientIsEmpty, decide_eq_true_iff, ← List.length_eq_zero_iff]
  omega

/-- The sequence number of the cell at `tail`, of a queue that is not full. -/
theorem seq_tail (h : Holds q items) (hroom : items.length < C) :
    (q.cell q.tail).seq = q.tail := by
  have htail := h.tail
  have hrange := h.range
  exact h.free _ (Nat.le_refl _) (by omega) (by omega)

/-- The sequence number of the cell at `tail`, of a full queue. -/
theorem seq_tail_full (h : Holds q items) (hfull : items.length = C) :
    (q.cell q.tail).seq = q.head + 1 := by
  have hC : 0 < items.length := by rw [hfull]; exact Nat.pos_of_ne_zero (NeZero.ne C)
  have hcell : q.cell q.tail = q.cell (q.head + 0) :=
    ConcurrentQueue.cell_congr (by rw [h.tail, hfull, Nat.add_mod_right]; rfl)
  rw [hcell, h.stored 0 hC]

theorem append (h : Holds q items) (hroom : items.length < C) (hrange : q.tail + 2 < 2 ^ 63)
    (item : T) : Holds (q.appended .word item) (items ++ [item]) := by
  have htail := h.tail
  have hnext : Counters.word.add q.tail 1 = q.tail + 1 := word_add (by omega)
  have hcell : ∀ p, (q.appended .word item).cell p =
      if p % C = q.tail % C then ⟨q.tail + 1, item⟩ else q.cell p := by
    intro p
    rw [ConcurrentQueue.appended, hnext]
    exact ConcurrentQueue.cell_setCell _ _ _
  refine ⟨?_, ?_, ?_, fun i hi => ?_, fun p hle hlt hword => ?_⟩
  · change Counters.word.add q.tail 1 = q.head + _
    rw [hnext, List.length_append]
    exact congrArg (· + 1) htail
  · rw [List.length_append]
    exact hroom
  · change Counters.word.add q.tail 1 + 1 < 2 ^ 63
    rw [hnext]
    exact hrange
  · change (q.appended .word item).cell (q.head + i) = _
    have hle : i < items.length ∨ i = items.length := by
      rw [List.length_append, List.length_singleton] at hi
      omega
    rcases hle with hlt | rfl
    · rw [hcell, if_neg, h.stored i hlt, List.getElem_append_left hlt]
      · rfl
      · intro hmod
        have := ConcurrentQueue.ticket_inj hmod (by omega) (by omega)
        omega
    · rw [hcell, ← htail, if_pos rfl, List.getElem_append_right (Nat.le_refl _)]
      simp only [Nat.sub_self, List.getElem_cons_zero, Cell.mk.injEq, and_true]
      change q.tail + 1 = q.head + items.length + 1
      omega
  · change Counters.word.add q.tail 1 ≤ p at hle
    change p < q.head + C at hlt
    rw [hnext] at hle
    rw [hcell, if_neg]
    · exact h.free p (by omega) hlt hword
    · intro hmod
      have := ConcurrentQueue.ticket_inj hmod (by omega) (by omega)
      omega

theorem remove {item : T} (h : Holds q (item :: items)) : Holds (q.removed .word) items := by
  have htail := h.tail
  have hroom := h.room
  have hrange := h.range
  rw [List.length_cons] at htail hroom
  have hnext : Counters.word.add q.head 1 = q.head + 1 := word_add (by omega)
  have hcell : ∀ p, (q.removed .word).cell p =
      if p % C = q.head % C then ⟨Counters.word.add q.head C, (q.cell q.head).data⟩
      else q.cell p := fun p => ConcurrentQueue.cell_setCell _ _ _
  refine ⟨?_, ?_, hrange, fun i hi => ?_, fun p hle hlt hword => ?_⟩
  · change q.tail = Counters.word.add q.head 1 + _
    omega
  · omega
  · change (q.removed .word).cell (Counters.word.add q.head 1 + i) =
      ⟨Counters.word.add q.head 1 + i + 1, _⟩
    rw [hnext, hcell, if_neg]
    · have hstored := h.stored (i + 1) (by rw [List.length_cons]; omega)
      rw [Nat.add_assoc, Nat.add_comm 1 i, hstored]
      rfl
    · intro hmod
      have := ConcurrentQueue.ticket_inj hmod (by omega) (by omega)
      omega
  · change q.tail ≤ p at hle
    change p < Counters.word.add q.head 1 + C at hlt
    rw [hnext] at hlt
    rw [hcell]
    by_cases hlast : p = q.head + C
    · rw [if_pos (by rw [hlast, Nat.add_mod_right])]
      change Counters.word.add q.head C = p
      rw [word_add (by omega), hlast]
    · rw [if_neg]
      · exact h.free p hle (by omega) hword
      · intro hmod
        have := ConcurrentQueue.ticket_inj hmod (by omega) (by omega)
        omega

theorem reset (q : ConcurrentQueue T C) : Holds q.reset [] where
  tail := rfl
  room := Nat.zero_le _
  range := by change 0 + 1 < 2 ^ 63; decide
  stored i hi := absurd hi (Nat.not_lt_zero i)
  free p _ hlt _ := by
    have hp : p < C := by simpa [ConcurrentQueue.reset] using hlt
    exact Nat.mod_eq_of_lt hp

theorem new [Inhabited T] : Holds (.new : ConcurrentQueue T C) [] where
  tail := rfl
  room := Nat.zero_le _
  range := by change 0 + 1 < 2 ^ 63; decide
  stored i hi := absurd hi (Nat.not_lt_zero i)
  free p _ hlt _ := by
    have hp : p < C := by simpa [ConcurrentQueue.new] using hlt
    exact Nat.mod_eq_of_lt hp

end Holds

/-! ### Runs of one thread -/

/-- A call that is in range and has room returns what it should. -/
theorem Holds.call {q : ConcurrentQueue T C} {f : BoundedFifo T C} (h : Holds q f.items)
    {call : Call T} (hrange : InRange call (q, f)) (hroom : Room call (q, f)) :
    ∃ q', q.call call = .ok (q', (fifoCall call f).2) ∧ Holds q' (fifoCall call f).1.items ∧
      ((fifoCall call f).2 = .pushed false ∨ (fifoCall call f).2 = .popped none → q' = q) := by
  cases call with
  | push item failures =>
      change q.tail + 2 < 2 ^ 63 at hrange
      rcases Nat.lt_or_eq_of_le h.room with hlt | hfull
      · obtain ⟨htrue, hitems⟩ := f.push_room item hlt
        refine ⟨q.appended .word item, ?_, ?_, ?_⟩
        · rw [fifoCall, htrue]
          apply ConcurrentQueue.push_ready
          rw [h.seq_tail hlt, word_dif (by omega) (by omega), Int.sub_self]
        · rw [fifoCall, hitems]
          exact h.append hlt hrange item
        · rw [fifoCall, htrue]
          rintro (hfalse | hfalse) <;> cases hfalse
      · have hC : 2 ≤ C := by
          rcases hroom with hC | hnil
          · exact hC
          · exact absurd (hfull.symm.trans (congrArg List.length hnil)) (NeZero.ne C)
        have htail := h.tail
        rw [fifoCall, f.push_full item hfull]
        refine ⟨q, ?_, h, fun _ => rfl⟩
        apply ConcurrentQueue.push_full item failures (d := (q.head + 1 : Nat) - (q.tail : Nat))
        · omega
        · rw [h.seq_tail_full hfull, word_dif (by omega) (by omega)]
  | pop failures =>
      have hhead := h.range
      have htail := h.tail
      have hC : 0 < C := Nat.pos_of_ne_zero (NeZero.ne C)
      have hnext : Counters.word.add q.head 1 = q.head + 1 := word_add (by omega)
      cases hf : f.items with
      | nil =>
          rw [fifoCall, f.pop_nil hf]
          rw [hf] at h htail
          refine ⟨q, ?_, by rw [hf]; exact h, fun _ => rfl⟩
          apply ConcurrentQueue.pop_empty failures (d := (q.head : Nat) - (q.head + 1 : Nat))
          · omega
          · have hseq : (q.cell q.head).seq = q.head :=
              h.free _ (Nat.le_of_eq htail) (by omega) (by omega)
            rw [hnext, hseq, word_dif (by omega) (by omega)]
      | cons item items =>
          obtain ⟨hsome, hitems⟩ := f.pop_cons hf
          rw [hf] at h htail
          have hcell : q.cell q.head = ⟨q.head + 1, item⟩ := h.stored 0 (Nat.zero_lt_succ _)
          rw [List.length_cons] at htail
          refine ⟨q.removed .word, ?_, ?_, ?_⟩
          · have hseq : (q.cell q.head).seq = q.head + 1 := by rw [hcell]
            have hdif : Counters.word.dif (q.cell q.head).seq (Counters.word.add q.head 1) =
                .ok 0 := by
              rw [hnext, hseq, word_dif (by omega) (by omega), Int.sub_self]
            rw [fifoCall, hsome]
            apply (ConcurrentQueue.pop_ready failures hdif).trans
            rw [hcell]
          · rw [fifoCall, hitems]
            exact h.remove
          · rw [fifoCall, hsome]
            rintro (hfalse | hfalse) <;> cases hfalse
  | reset =>
      refine ⟨q.reset, rfl, Holds.reset q, ?_⟩
      rintro (hfalse | hfalse) <;> cases hfalse

/-- A queue of one cell takes a second item. -/
theorem Holds.overwritten {q : ConcurrentQueue T 1} {items : List T} (h : Holds q items)
    (hitems : items ≠ []) (hrange : q.tail + 2 < 2 ^ 63) (item : T) (failures : Nat) :
    q.push .word item failures = .ok (q.appended .word item, .pushed true) := by
  have hfull : items.length = 1 :=
    Nat.le_antisymm h.room (List.length_pos_iff.mpr hitems)
  have htail := h.tail
  apply ConcurrentQueue.push_ready
  rw [h.seq_tail_full hfull, htail, hfull, word_dif (by omega) (by omega), Int.sub_self]

theorem Holds.agrees_iff {q : ConcurrentQueue T C} {f : BoundedFifo T C} (h : Holds q f.items)
    {call : Call T} (hrange : InRange call (q, f)) :
    Agrees call (q, f) ↔ Room call (q, f) := by
  constructor
  · rintro ⟨q', hcall, -⟩
    cases call with
    | push item failures =>
        by_contra hroom
        have hroom' : ¬ (2 ≤ C ∨ f.items = []) := hroom
        push Not at hroom'
        obtain ⟨hC, hitems⟩ := hroom'
        obtain rfl : C = 1 := by
          have := Nat.pos_of_ne_zero (NeZero.ne C)
          omega
        have hfull : f.items.length = 1 :=
          Nat.le_antisymm f.bounded (List.length_pos_iff.mpr hitems)
        change q.push .word item failures = _ at hcall
        rw [h.overwritten hitems hrange, fifoCall, f.push_full item hfull] at hcall
        cases hcall
    | pop failures => trivial
    | reset => trivial
  · intro hroom
    obtain ⟨q', hcall, hholds, hsame⟩ := h.call hrange hroom
    exact ⟨q', hcall, hsame, hholds.size, hholds.clientSize, hholds.isEmpty,
      hholds.clientIsEmpty⟩

/-- Every call of a run in range agrees with a bounded FIFO queue exactly if a queue of one
cell is never pushed to while it holds an item. -/
theorem calls_agree_iff [Inhabited T] (calls : List (Call T))
    (hrange : Run.Steps stepBoth calls ((.new : ConcurrentQueue T C), .empty) InRange) :
    Run.Steps stepBoth calls ((.new : ConcurrentQueue T C), .empty) Agrees ↔
      Run.Steps stepBoth calls ((.new : ConcurrentQueue T C), .empty) Room := by
  have hcongr : Run.Steps stepBoth calls ((.new : ConcurrentQueue T C), .empty)
        (fun call s => InRange call s ∧ Agrees call s) ↔
      Run.Steps stepBoth calls ((.new : ConcurrentQueue T C), .empty)
        (fun call s => InRange call s ∧ Room call s) := by
    refine Run.steps_congr (I := fun s => Holds s.1 s.2.items) ?_ ?_ Holds.new
    · intro call s h
      exact and_congr_right fun hcall => h.agrees_iff hcall
    · rintro call s s' h ⟨hcall, hagrees⟩ hstep
      obtain ⟨q', hq', hholds, -⟩ := h.call hcall ((h.agrees_iff hcall).mp hagrees)
      rw [stepBoth, hq'] at hstep
      cases hstep
      exact hholds
  rw [Run.steps_and, Run.steps_and] at hcongr
  constructor
  · intro h
    exact (hcongr.mp ⟨hrange, h⟩).2
  · intro h
    exact (hcongr.mpr ⟨hrange, h⟩).2

/-- Two cells: the third push is refused. -/
theorem calls_agree_iff_sample :
    Run.Steps stepBoth [.push 1 0, .push 2 1, .push 3 0, .pop 0]
      ((.new : ConcurrentQueue Nat 2), .empty) Agrees := by
  refine (calls_agree_iff _ ?_).mpr fun _ call _ _ _ => ?_
  · refine Run.steps_cons.mpr ⟨by change 0 + 2 < 2 ^ 63; decide, fun s hs => ?_⟩
    cases hs
    refine Run.steps_cons.mpr ⟨by change 1 + 2 < 2 ^ 63; decide, fun s hs => ?_⟩
    cases hs
    refine Run.steps_cons.mpr ⟨by change 2 + 2 < 2 ^ 63; decide, fun s hs => ?_⟩
    exact Run.steps_cons.mpr ⟨trivial, fun _ _ => Run.steps_nil⟩
  · cases call with
    | push item failures => exact .inl (Nat.le_refl 2)
    | pop failures => trivial
    | reset => trivial

/-- A queue of one cell takes a second item. -/
theorem second_item_taken :
    ¬ Run.Steps stepBoth [.push 1 0, .push 2 0] ((.new : ConcurrentQueue Nat 1), .empty)
      Agrees := by
  intro h
  obtain ⟨q, hcall, -⟩ := (Run.steps_cons.mp ((Run.steps_cons.mp h).2 _ rfl)).1
  cases hcall

end HftProject.Week7
