import HftProject.Lib.Heap
import Mathlib.Data.List.Induction
import Mathlib.Data.Multiset.AddSub
import Mathlib.Data.Int.Order.Basic
import Mathlib.Order.Lattice
import Mathlib.Order.RelClasses

/-!
`OrderPriorityQueue` of `hw_5`: a binary heap in a vector, with the greatest element for
`Compare` at the root. `push` and `pop` repair the heap along one path (`heapify_up`,
`heapify_down`), and the queue is a priority queue (`run_isPriorityQueue`).
-/

namespace HftProject.Week5.PriorityQueue

open Heap

structure Order (P : Type) where
  price : P
  timestamp : Int
  orderId : String
deriving DecidableEq, Repr

namespace Order

variable {P : Type} [LT P]

/-- `operator<`, which `std::less` uses. -/
def less (a b : Order P) : Prop := a.price < b.price

/-- `operator>`, which `std::greater` uses. -/
def greater (a b : Order P) : Prop := a.price > b.price

end Order

/-- The highest price first. -/
def OrderCompare {P : Type} [LT P] (a b : Order P) : Prop := a.price < b.price

section Instances

variable {P : Type}

instance [LT P] [DecidableLT P] : DecidableRel (Order.less (P := P)) :=
  fun a b => inferInstanceAs (Decidable (a.price < b.price))

instance [LT P] [DecidableLT P] : DecidableRel (Order.greater (P := P)) :=
  fun a b => inferInstanceAs (Decidable (b.price < a.price))

instance [LT P] [DecidableLT P] : DecidableRel (OrderCompare (P := P)) :=
  fun a b => inferInstanceAs (Decidable (a.price < b.price))

theorem isStrictWeakOrder_price [LinearOrder P] :
    IsStrictWeakOrder (Order P) fun a b => a.price < b.price where
  irrefl a := lt_irrefl a.price
  trans _ _ _ := lt_trans
  incomp_trans a b c hab hbc := by
    have hab : a.price = b.price := le_antisymm (not_lt.mp hab.2) (not_lt.mp hab.1)
    have hbc : b.price = c.price := le_antisymm (not_lt.mp hbc.2) (not_lt.mp hbc.1)
    rw [hab, hbc]
    exact ⟨lt_irrefl _, lt_irrefl _⟩

instance [LinearOrder P] : IsStrictWeakOrder (Order P) OrderCompare := isStrictWeakOrder_price

instance [LinearOrder P] : IsStrictWeakOrder (Order P) Order.less := isStrictWeakOrder_price

instance [LinearOrder P] : IsStrictWeakOrder (Order P) Order.greater where
  irrefl a := lt_irrefl a.price
  trans _ _ _ hab hbc := lt_trans hbc hab
  incomp_trans a b c hab hbc :=
    (isStrictWeakOrder_price.incomp_trans a b c hab.symm hbc.symm).symm

end Instances

structure RuntimeError where
  what : String
deriving DecidableEq, Repr

structure OrderPriorityQueue (T : Type) (compare : T → T → Prop) where
  heap : Array T

namespace OrderPriorityQueue

variable {T : Type} {compare : T → T → Prop} [DecidableRel compare]

def leftChild (index : Nat) : Nat := 2 * index + 1

def rightChild (index : Nat) : Nat := 2 * index + 2

variable (compare) in
def heapifyUp (index : Nat) (heap : Array T) (h : index < heap.size) : Array T :=
  if hpos : 0 < index then
    let parentIdx := parent index
    have hlt : parentIdx < index := parent_lt hpos
    if compare heap[parentIdx] heap[index] then
      heapifyUp parentIdx (heap.swap parentIdx index) (by rw [Array.size_swap]; omega)
    else heap
  else heap
termination_by index

variable (compare) in
/-- The greater child of a position that has a child. -/
def maxChild (index : Nat) (heap : Array T) (h : leftChild index < heap.size) :
    { c : Nat // IsChild c index ∧ c < heap.size } :=
  if hright : rightChild index < heap.size then
    if compare heap[leftChild index] heap[rightChild index] then
      ⟨rightChild index, isChild_iff.mpr (.inr rfl), hright⟩
    else ⟨leftChild index, isChild_iff.mpr (.inl rfl), h⟩
  else ⟨leftChild index, isChild_iff.mpr (.inl rfl), h⟩

variable (compare) in
def heapifyDown (index : Nat) (heap : Array T) : Array T :=
  if h : leftChild index < heap.size then
    let ⟨max, hchild, hmax⟩ := maxChild compare index heap h
    have hlt : index < max := hchild.lt
    have hindex : index < heap.size := hlt.trans hmax
    if ¬ compare heap[index] heap[max] then heap
    else heapifyDown max (heap.swap index max)
  else heap
termination_by heap.size - index
decreasing_by
  rw [Array.size_swap]
  omega

omit [DecidableRel compare] in
def new : OrderPriorityQueue T compare := ⟨#[]⟩

omit [DecidableRel compare] in
def empty (q : OrderPriorityQueue T compare) : Bool := q.heap.isEmpty

def push (value : T) (q : OrderPriorityQueue T compare) : OrderPriorityQueue T compare :=
  ⟨heapifyUp compare q.heap.size (q.heap.push value) (by rw [Array.size_push]; omega)⟩

/-- The last element moves to the root. -/
def pop (q : OrderPriorityQueue T compare) :
    Except RuntimeError Unit × OrderPriorityQueue T compare :=
  if h : 0 < q.heap.size then
    let heap := (q.heap.set 0 q.heap.back).pop
    (.ok (), ⟨if heap.isEmpty then heap else heapifyDown compare 0 heap⟩)
  else (.error ⟨"Priority queue is empty"⟩, q)

omit [DecidableRel compare] in
def top (q : OrderPriorityQueue T compare) : Except RuntimeError T :=
  if h : 0 < q.heap.size then .ok q.heap[0]
  else .error ⟨"Priority queue is empty"⟩

omit [DecidableRel compare] in
def clear (_ : OrderPriorityQueue T compare) : OrderPriorityQueue T compare := ⟨#[]⟩

/-! ### Repairing the heap -/

omit [DecidableRel compare] in
theorem above_iff {heap : Array T} {p c : Nat} (hp : p < heap.size) (hc : c < heap.size) :
    Above compare heap p c ↔ ¬ compare heap[p] heap[c] := by
  rw [Above, Array.getElem?_eq_getElem hp, Array.getElem?_eq_getElem hc]
  constructor
  · intro h
    exact h _ _ rfl rfl
  · intro h a b ha hb
    cases ha
    cases hb
    exact h

omit [DecidableRel compare] in
theorem above_of_ge {heap : Array T} {p c : Nat} (hc : heap.size ≤ c) : Above compare heap p c :=
  fun _ _ _ hb => absurd (Array.getElem?_eq_some_iff.mp hb).1 (Nat.not_lt.mpr hc)

theorem heapifyUp_perm (index : Nat) (heap : Array T) (h : index < heap.size) :
    (heapifyUp compare index heap h).Perm heap := by
  induction index, heap, h using @heapifyUp.induct T compare _ with
  | case1 index heap h hpos parentIdx hlt hcompare ih =>
      rw [heapifyUp, dif_pos hpos, if_pos hcompare]
      exact ih.trans (Array.swap_perm _ _)
  | case2 index heap h hpos parentIdx hlt hcompare =>
      rw [heapifyUp, dif_pos hpos, if_neg hcompare]
  | case3 index heap h hpos => rw [heapifyUp, dif_neg hpos]

theorem heapifyUp_ordered [IsStrictWeakOrder T compare] (index : Nat) (heap : Array T)
    (h : index < heap.size) (horder : UpOrder compare heap index) :
    Ordered compare (heapifyUp compare index heap h) := by
  induction index, heap, h using @heapifyUp.induct T compare _ with
  | case1 index heap h hpos parentIdx hlt hcompare ih =>
      rw [heapifyUp, dif_pos hpos, if_pos hcompare]
      have hparent : parentIdx < heap.size := hlt.trans h
      exact ih (horder.exchange (isChild_parent hpos) (Array.getElem?_eq_getElem hparent)
        (Array.getElem?_eq_getElem h) hcompare (exchanged_swap heap hparent h))
  | case2 index heap h hpos parentIdx hlt hcompare =>
      rw [heapifyUp, dif_pos hpos, if_neg hcompare]
      refine horder.ordered fun p hp => ?_
      obtain rfl := hp.2
      exact (above_iff (hlt.trans h) h).mpr hcompare
  | case3 index heap h hpos =>
      rw [heapifyUp, dif_neg hpos]
      exact horder.ordered fun p hp => absurd hp.1 hpos

/-- Neither child is above the greater one. -/
theorem maxChild_above [IsStrictWeakOrder T compare] {index : Nat} {heap : Array T}
    (h : leftChild index < heap.size) {c : Nat} (hc : IsChild c index) :
    Above compare heap (maxChild compare index heap h).1 c := by
  rcases Nat.lt_or_ge c heap.size with hsize | hsize
  swap
  · exact above_of_ge hsize
  have hcases := isChild_iff.mp hc
  rw [maxChild]
  split
  · rename_i hright
    split
    · rename_i hcompare
      rcases hcases with rfl | rfl
      · exact (above_iff hright hsize).mpr (asymm_of compare hcompare)
      · exact (above_iff hright hsize).mpr (irrefl_of compare _)
    · rename_i hcompare
      rcases hcases with rfl | rfl
      · exact (above_iff h hsize).mpr (irrefl_of compare _)
      · exact (above_iff h hsize).mpr hcompare
  · rename_i hright
    rcases hcases with rfl | rfl
    · exact (above_iff h hsize).mpr (irrefl_of compare _)
    · exact absurd hsize hright

theorem heapifyDown_perm (index : Nat) (heap : Array T) :
    (heapifyDown compare index heap).Perm heap := by
  induction index, heap using @heapifyDown.induct T compare _ with
  | case1 index heap h max hchild hmax heq hlt hindex hcompare =>
      rw [heapifyDown, dif_pos h, heq]
      simp only [if_pos hcompare, Array.Perm.refl]
  | case2 index heap h max hchild hmax heq hlt hindex hcompare ih =>
      rw [heapifyDown, dif_pos h, heq]
      simp only [if_neg hcompare]
      exact ih.trans (Array.swap_perm _ _)
  | case3 index heap h => rw [heapifyDown, dif_neg h]

theorem heapifyDown_ordered [IsStrictWeakOrder T compare] (index : Nat) (heap : Array T)
    (horder : DownOrder compare heap index) : Ordered compare (heapifyDown compare index heap) := by
  induction index, heap using @heapifyDown.induct T compare _ with
  | case1 index heap h max hchild hmax heq hlt hindex hcompare =>
      rw [heapifyDown, dif_pos h, heq]
      simp only [if_pos hcompare]
      refine horder.ordered fun c hc a b ha hb => ?_
      have habove : Above compare heap (maxChild compare index heap h).1 c := maxChild_above h hc
      rw [heq] at habove
      rw [Array.getElem?_eq_getElem hindex] at ha
      cases ha
      exact not_lt_trans hcompare (habove _ b (Array.getElem?_eq_getElem hmax) hb)
  | case2 index heap h max hchild hmax heq hlt hindex hcompare ih =>
      rw [heapifyDown, dif_pos h, heq]
      simp only [if_neg hcompare]
      refine ih (horder.exchange hchild (Array.getElem?_eq_getElem hindex)
        (Array.getElem?_eq_getElem hmax) (not_not.mp hcompare) (fun c hc => ?_)
        (exchanged_swap heap hindex hmax))
      have habove : Above compare heap (maxChild compare index heap h).1 c := maxChild_above h hc
      rwa [heq] at habove
  | case3 index heap h =>
      rw [heapifyDown, dif_neg h]
      refine horder.ordered fun c hc => above_of_ge ?_
      have hleft := Nat.not_lt.mp h
      unfold leftChild at hleft
      rcases isChild_iff.mp hc with rfl | rfl <;> omega

/-! ### The calls -/

omit [DecidableRel compare] in
/-- The elements of the queue, with their multiplicities. -/
def contents (q : OrderPriorityQueue T compare) : Multiset T := q.heap.toList

theorem contents_push (value : T) (q : OrderPriorityQueue T compare) :
    (q.push value).contents = value ::ₘ q.contents := by
  have hperm : (q.push value).heap.Perm (q.heap.push value) := heapifyUp_perm _ _ _
  rw [contents, Multiset.coe_eq_coe.mpr hperm.toList, Array.toList_push, contents,
    Multiset.cons_coe, Multiset.coe_eq_coe]
  exact List.perm_append_singleton value q.heap.toList

theorem ordered_push [IsStrictWeakOrder T compare] (value : T) {q : OrderPriorityQueue T compare}
    (h : Ordered compare q.heap) : Ordered compare (q.push value).heap :=
  heapifyUp_ordered _ _ _ (h.push value)

omit [DecidableRel compare] in
/-- With the last element at the root, the rest lacks the old root only. -/
theorem replaceRoot_perm {heap : Array T} (h : 0 < heap.size) :
    heap.toList.Perm (heap[0] :: (heap.set 0 heap.back).pop.toList) := by
  obtain ⟨list⟩ := heap
  cases list with
  | nil => simp at h
  | cons x rest =>
      rcases List.eq_nil_or_concat' rest with rfl | ⟨front, last, rfl⟩
      · simp
      · have hback : (Array.mk (x :: (front ++ [last]))).back h = last := by simp [Array.back]
        have hdrop : (last :: (front ++ [last])).dropLast = last :: front := by
          rw [← List.cons_append, List.dropLast_concat]
        rw [hback]
        refine List.Perm.cons x ?_
        change (front ++ [last]).Perm (last :: (front ++ [last])).dropLast
        rw [hdrop]
        exact List.perm_append_singleton last front

/-- Either the queue is empty, and `top` and `pop` throw, or `pop` removes the top. -/
theorem top_cases (q : OrderPriorityQueue T compare) :
    (q.contents = 0 ∧ q.top = .error ⟨"Priority queue is empty"⟩ ∧
      q.pop = (.error ⟨"Priority queue is empty"⟩, q)) ∨
    ∃ (x : T) (rest : OrderPriorityQueue T compare), q.top = .ok x ∧ q.pop = (.ok (), rest) ∧
      q.contents = x ::ₘ rest.contents := by
  rcases Nat.eq_zero_or_pos q.heap.size with hzero | hpos
  · have hempty : ¬ 0 < q.heap.size := by omega
    refine .inl ⟨?_, dif_neg hempty, dif_neg hempty⟩
    rw [contents, Array.eq_empty_of_size_eq_zero hzero]
    rfl
  · refine .inr ⟨q.heap[0], _, dif_pos hpos, dif_pos hpos, ?_⟩
    rw [contents, Multiset.coe_eq_coe.mpr (replaceRoot_perm hpos), ← Multiset.cons_coe, contents]
    congr 1
    split
    · rfl
    · exact (Multiset.coe_eq_coe.mpr (heapifyDown_perm _ _).toList).symm

theorem ordered_pop [IsStrictWeakOrder T compare] {q : OrderPriorityQueue T compare}
    (h : Ordered compare q.heap) : Ordered compare q.pop.2.heap := by
  rw [pop]
  split
  · rename_i hpos
    dsimp only
    split
    · rename_i hempty
      intro c p _
      exact above_of_ge (by rw [Array.isEmpty_iff.mp hempty]; exact Nat.zero_le c)
    · exact heapifyDown_ordered _ _ (h.replaceRoot hpos _)
  · exact h

omit [DecidableRel compare] in
/-- No element of the queue is above the top. -/
theorem top_greatest [IsStrictWeakOrder T compare] {q : OrderPriorityQueue T compare}
    (h : Ordered compare q.heap) {x : T} (htop : q.top = .ok x) {y : T} (hy : y ∈ q.contents) :
    ¬ compare x y := by
  rw [top] at htop
  split at htop
  · rename_i hpos
    cases htop
    obtain ⟨k, hk⟩ := List.mem_iff_getElem?.mp (Multiset.mem_coe.mp hy)
    rw [Array.getElem?_toList] at hk
    exact h.root (Array.getElem?_eq_getElem hpos) k hk
  · cases htop

/-! ### Runs -/

inductive Op (T : Type) where
  | push (value : T)
  | pop
  | clear
deriving DecidableEq, Repr

/-- A queue, with what was pushed and popped since it was cleared. -/
structure Trace (T : Type) (compare : T → T → Prop) where
  queue : OrderPriorityQueue T compare
  pushed : Multiset T
  popped : Multiset T

namespace Trace

omit [DecidableRel compare] in
def start : Trace T compare := ⟨new, 0, 0⟩

def step (s : Trace T compare) : Op T → Trace T compare
  | .push value => ⟨s.queue.push value, value ::ₘ s.pushed, s.popped⟩
  | .pop =>
      match s.queue.top with
      | .ok x => ⟨s.queue.pop.2, s.pushed, x ::ₘ s.popped⟩
      | .error _ => ⟨s.queue.pop.2, s.pushed, s.popped⟩
  | .clear => ⟨s.queue.clear, 0, 0⟩

/-- The queue holds what was pushed and not popped, in heap order, and its top is one of the
greatest elements. -/
structure IsPriorityQueue (s : Trace T compare) : Prop where
  contents : s.queue.contents + s.popped = s.pushed
  ordered : Ordered compare s.queue.heap
  top : ∀ x, s.queue.top = .ok x → x ∈ s.queue.contents ∧ ∀ y ∈ s.queue.contents, ¬ compare x y
  pop : ∀ x, s.queue.top = .ok x →
    s.queue.pop.1 = .ok () ∧ s.queue.contents = x ::ₘ s.queue.pop.2.contents
  nonempty : s.queue.contents ≠ 0 → ∃ x, s.queue.top = .ok x
  throws : s.queue.contents = 0 → s.queue.top = .error ⟨"Priority queue is empty"⟩ ∧
    s.queue.pop = (.error ⟨"Priority queue is empty"⟩, s.queue)

variable [IsStrictWeakOrder T compare] {s : Trace T compare}

theorem isPriorityQueue_of (hcontents : s.queue.contents + s.popped = s.pushed)
    (hordered : Ordered compare s.queue.heap) : s.IsPriorityQueue := by
  rcases top_cases s.queue with ⟨hempty, htop, hpop⟩ | ⟨x, rest, htop, hpop, hrest⟩
  · refine ⟨hcontents, hordered, ?_, ?_, fun hne => absurd hempty hne, fun _ => ⟨htop, hpop⟩⟩
    · intro x hx
      rw [htop] at hx
      cases hx
    · intro x hx
      rw [htop] at hx
      cases hx
  · refine ⟨hcontents, hordered, ?_, ?_, fun _ => ⟨x, htop⟩, fun hempty => ?_⟩
    · intro y hy
      obtain rfl := Except.ok.inj (htop.symm.trans hy)
      refine ⟨?_, fun z hz => top_greatest hordered htop hz⟩
      rw [hrest]
      exact Multiset.mem_cons_self x rest.contents
    · intro y hy
      obtain rfl := Except.ok.inj (htop.symm.trans hy)
      rw [hpop]
      exact ⟨rfl, hrest⟩
    · rw [hrest] at hempty
      exact absurd hempty (Multiset.cons_ne_zero)

theorem IsPriorityQueue.step (h : s.IsPriorityQueue) (op : Op T) :
    (s.step op).IsPriorityQueue := by
  cases op with
  | push value =>
      refine isPriorityQueue_of ?_ (ordered_push value h.ordered)
      simp only [Trace.step, contents_push, Multiset.cons_add, h.contents]
  | pop =>
      rw [Trace.step]
      rcases top_cases s.queue with ⟨hempty, htop, hpop⟩ | ⟨x, rest, htop, hpop, hrest⟩
      · rw [htop, hpop]
        exact h
      · rw [htop]
        refine isPriorityQueue_of ?_ (ordered_pop h.ordered)
        dsimp only
        rw [Multiset.add_cons, ← Multiset.cons_add, ← (h.pop x htop).2, h.contents]
  | clear =>
      refine isPriorityQueue_of rfl fun c p _ => above_of_ge (Nat.zero_le c)

end Trace

/-! ### Emptying the queue -/

def pushAll (values : List T) (q : OrderPriorityQueue T compare) : OrderPriorityQueue T compare :=
  values.foldl (fun q value => q.push value) q

theorem pop_size {q : OrderPriorityQueue T compare} (h : 0 < q.heap.size) :
    q.pop.2.heap.size < q.heap.size := by
  rcases top_cases q with ⟨hempty, -, -⟩ | ⟨x, rest, -, hpop, hrest⟩
  · have hsize : q.heap.size = 0 := by simpa [contents] using congrArg Multiset.card hempty
    omega
  · have hcard := congrArg Multiset.card hrest
    rw [Multiset.card_cons, contents, contents, Multiset.coe_card, Multiset.coe_card,
      Array.length_toList, Array.length_toList] at hcard
    rw [hpop]
    change rest.heap.size < q.heap.size
    omega

/-- The tops that a loop of `pop` while the queue is not empty removes, in order. -/
def popAll (q : OrderPriorityQueue T compare) : List T :=
  if h : 0 < q.heap.size then q.heap[0] :: popAll q.pop.2 else []
termination_by q.heap.size
decreasing_by exact pop_size h

theorem contents_pushAll (values : List T) (q : OrderPriorityQueue T compare) :
    (q.pushAll values).contents = values + q.contents := by
  induction values generalizing q with
  | nil => simp [pushAll]
  | cons value values ih =>
      have hcons : q.pushAll (value :: values) = (q.push value).pushAll values := rfl
      rw [hcons, ih, contents_push, Multiset.add_cons, ← Multiset.cons_add, Multiset.cons_coe]

theorem ordered_pushAll [IsStrictWeakOrder T compare] (values : List T)
    {q : OrderPriorityQueue T compare} (h : Ordered compare q.heap) :
    Ordered compare (q.pushAll values).heap := by
  induction values generalizing q with
  | nil => exact h
  | cons value values ih => exact ih (ordered_push value h)

/-- Emptying a heap gives its elements, none of them below a later one. -/
theorem popAll_sorted [IsStrictWeakOrder T compare] (q : OrderPriorityQueue T compare)
    (h : Ordered compare q.heap) :
    (q.popAll : Multiset T) = q.contents ∧ q.popAll.Pairwise fun a b => ¬ compare a b := by
  induction q using popAll.induct with
  | case1 q hpos ih =>
      obtain ⟨hrest, hpairwise⟩ := ih (ordered_pop h)
      have htop : q.top = .ok q.heap[0] := dif_pos hpos
      rcases top_cases q with ⟨-, hnone, -⟩ | ⟨x, rest, hx, hpop, hcontents⟩
      · rw [htop] at hnone
        cases hnone
      · obtain rfl := Except.ok.inj (htop.symm.trans hx)
        rw [hpop] at hrest hpairwise
        rw [popAll, dif_pos hpos, hpop]
        refine ⟨?_, List.pairwise_cons.mpr ⟨fun y hy => ?_, hpairwise⟩⟩
        · rw [← Multiset.cons_coe, hrest, hcontents]
        · refine top_greatest h htop ?_
          rw [hcontents, ← hrest]
          exact Multiset.mem_cons_of_mem hy
  | case2 q hempty =>
      rw [popAll, dif_neg hempty]
      refine ⟨?_, List.Pairwise.nil⟩
      rw [contents, Array.eq_empty_of_size_eq_zero (Nat.eq_zero_of_not_pos hempty)]

/-- **The heap is a priority queue.** It is one in every state of a run, and pushing a list and
popping until the queue is empty sorts it. -/
theorem run_isPriorityQueue [IsStrictWeakOrder T compare] :
    (∀ ops : List (Op T), (ops.foldl Trace.step (Trace.start : Trace T compare)).IsPriorityQueue) ∧
      ∀ values : List T,
        ((new : OrderPriorityQueue T compare).pushAll values).popAll.Perm values ∧
          ((new : OrderPriorityQueue T compare).pushAll values).popAll.Pairwise
            fun a b => ¬ compare a b := by
  have hnew : Ordered compare (new : OrderPriorityQueue T compare).heap :=
    fun c p _ => above_of_ge (Nat.zero_le c)
  constructor
  · intro ops
    induction ops using List.reverseRecOn with
    | nil => exact Trace.isPriorityQueue_of rfl hnew
    | append_singleton ops op ih =>
        rw [List.foldl_append]
        exact ih.step op
  · intro values
    obtain ⟨hperm, hsorted⟩ := popAll_sorted _ (ordered_pushAll values hnew)
    refine ⟨Multiset.coe_eq_coe.mp ?_, hsorted⟩
    rw [hperm, contents_pushAll]
    exact Multiset.add_zero _

theorem run_isPriorityQueue_orders :
    (∀ ops : List (Op (Order Int)),
        (ops.foldl Trace.step (Trace.start : Trace (Order Int) OrderCompare)).IsPriorityQueue) ∧
      ∀ values : List (Order Int),
        ((new : OrderPriorityQueue (Order Int) OrderCompare).pushAll values).popAll.Perm values ∧
          ((new : OrderPriorityQueue (Order Int) OrderCompare).pushAll values).popAll.Pairwise
            fun a b => ¬ OrderCompare a b :=
  run_isPriorityQueue

end OrderPriorityQueue

end HftProject.Week5.PriorityQueue
