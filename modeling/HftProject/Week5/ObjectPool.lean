import Mathlib.Data.List.Nodup
import Mathlib.Data.List.Perm.Subperm
import Mathlib.Data.List.Range

/-!
`ObjectPool<T>` (`week_5`; the same header in `hw_5` and `phase_5`): a vector of
objects whose indices are handed out first in, first out. A `T*` from the pool is the
index of its slot.

A slot whose object was destroyed holds nothing; reading it is undefined behaviour.
-/

namespace HftProject.Week5

/-- The source's behaviour is undefined from here on. -/
inductive Fault where
  | undefined
deriving DecidableEq, Repr

inductive Exception where
  /-- `std::runtime_error` -/
  | runtimeError (what : String)
  /-- `std::out_of_range`, from `std::map::at` -/
  | outOfRange
deriving DecidableEq, Repr

/-- A constructor or destructor of `T` that the pool ran on a slot. -/
inductive Lifetime where
  | constructed (slot : Nat)
  | destroyed (slot : Nat)
deriving DecidableEq, Repr

/-- The members, and beside them the constructor and destructor runs so far, newest
first, which no modelled function reads. -/
structure ObjectPool (T : Type) where
  pool : List (Option T)
  freeIndices : List Nat
  capacity : Nat
  usedCount : Nat
  lifetimes : List Lifetime
deriving DecidableEq, Repr

variable {T : Type}

namespace ObjectPool

/-! ### The code -/

/-- The constructor with its default argument. -/
def empty : ObjectPool T := ⟨[], [], 0, 0, []⟩

/-- `pool_.resize` fills the new slots with default-constructed objects. -/
def reserve (default : T) (newCapacity : Nat) (p : ObjectPool T) : ObjectPool T :=
  if newCapacity ≤ p.capacity then p
  else
    let indices := List.range' p.capacity (newCapacity - p.capacity)
    { p with
      pool := p.pool ++ indices.map fun _ => some default
      freeIndices := p.freeIndices ++ indices
      capacity := newCapacity
      lifetimes := (indices.map .constructed).reverse ++ p.lifetimes }

/-- Placement new in the slot at the front of the free list. -/
def allocate (obj : T) (p : ObjectPool T) : Except Exception (Nat × ObjectPool T) :=
  match p.freeIndices with
  | [] => .error (.runtimeError "ObjectPool: Out of memory. No free objects.")
  | index :: rest => .ok (index,
      { p with
        pool := p.pool.set index (some obj)
        freeIndices := rest
        usedCount := p.usedCount + 1
        lifetimes := .constructed index :: p.lifetimes })

/-- The object in a slot, if it is alive. -/
def object? (p : ObjectPool T) (index : Nat) : Option T := (p.pool[index]?).join

/-- A pointer from outside the pool is reported and otherwise ignored. -/
def deallocate (ptr : Option Nat) (p : ObjectPool T) : Except Fault (ObjectPool T) :=
  match ptr with
  | none => .ok p
  | some index =>
      if p.capacity = 0 then .error .undefined
      else if p.capacity ≤ index then .ok p
      else match p.object? index with
        | none => .error .undefined
        | some _ => .ok
            { p with
              pool := p.pool.set index none
              freeIndices := p.freeIndices ++ [index]
              usedCount := p.usedCount - 1
              lifetimes := .destroyed index :: p.lifetimes }

/-- Read through a pointer. -/
def deref (p : ObjectPool T) (index : Nat) : Except Fault T :=
  match p.object? index with
  | some obj => .ok obj
  | none => .error .undefined

/-- Assign to members of an object. -/
def assign (index : Nat) (f : T → T) (p : ObjectPool T) : Except Fault (ObjectPool T) :=
  match p.object? index with
  | some obj => .ok { p with pool := p.pool.set index (some (f obj)) }
  | none => .error .undefined

theorem deref_ok {p : ObjectPool T} {index : Nat} {obj : T} (h : p.object? index = some obj) :
    p.deref index = .ok obj := by
  simp [deref, h]

/-! ### The invariant of a pool -/

/-- Free indices are different slots, the other slots hold objects, and the counter
counts them. -/
structure Ok (p : ObjectPool T) : Prop where
  length : p.pool.length = p.capacity
  nodup : p.freeIndices.Nodup
  bound : ∀ i ∈ p.freeIndices, i < p.capacity
  alive : ∀ i < p.capacity, i ∉ p.freeIndices → ∃ obj, p.object? i = some obj
  count : p.usedCount + p.freeIndices.length = p.capacity

/-- Slot `i` is handed out. -/
def Used (p : ObjectPool T) (i : Nat) : Prop := i < p.capacity ∧ i ∉ p.freeIndices

variable {p : ObjectPool T}

theorem object?_set (pool : List (Option T)) (i j : Nat) (x : Option T) (hi : i < pool.length) :
    ((pool.set i x)[j]?).join = if j = i then x else (pool[j]?).join := by
  rw [List.getElem?_set]
  by_cases hij : i = j
  · subst hij
    simp [hi]
  · simp [hij, Ne.symm hij]

theorem reserve_ok (default : T) (n : Nat) :
    (empty.reserve default n).Ok ∧ (empty.reserve default n).capacity = n ∧
      (∀ i, ¬ (empty.reserve default n).Used i) ∧
      (empty.reserve default n).usedCount = 0 := by
  by_cases hn : n ≤ 0
  · obtain rfl : n = 0 := by omega
    exact ⟨⟨rfl, List.nodup_nil, by simp [empty, reserve], by simp [empty, reserve], rfl⟩, rfl,
      fun i hi => absurd hi.1 (Nat.not_lt_zero i), rfl⟩
  · have hreserve : empty.reserve default n =
        { pool := (List.range' 0 n).map fun _ => some default
          freeIndices := List.range' 0 n
          capacity := n
          usedCount := 0
          lifetimes := ((List.range' 0 n).map .constructed).reverse } := by
      simp [reserve, empty, show n ≠ 0 by omega]
    rw [hreserve]
    refine ⟨⟨by simp, List.nodup_range', by simp, fun i hi hfree => ?_, by simp⟩, rfl, ?_, rfl⟩
    · exact absurd (by simpa using hi) hfree
    · rintro i ⟨hi, hfree⟩
      exact hfree (by simpa using hi)

/-! ### What the operations do to it -/

/-- `p'` is `p` with `obj` in slot `i`, which was free. -/
structure Allocated (p p' : ObjectPool T) (i : Nat) (obj : T) : Prop where
  ok : p'.Ok
  capacity : p'.capacity = p.capacity
  free : ¬ p.Used i
  used : ∀ j, p'.Used j ↔ j = i ∨ p.Used j
  usedCount : p'.usedCount = p.usedCount + 1
  object : ∀ j, p'.object? j = if j = i then some obj else p.object? j

/-- `p'` is `p` without the object of slot `i`. -/
structure Deallocated (p p' : ObjectPool T) (i : Nat) : Prop where
  ok : p'.Ok
  capacity : p'.capacity = p.capacity
  used : ∀ j, p'.Used j ↔ j ≠ i ∧ p.Used j
  usedCount : p'.usedCount + 1 = p.usedCount
  object : ∀ j, p'.object? j = if j = i then none else p.object? j

/-- `p'` is `p` with `obj` in place of the object of slot `i`. -/
structure Assigned (p p' : ObjectPool T) (i : Nat) (obj : T) : Prop where
  ok : p'.Ok
  capacity : p'.capacity = p.capacity
  used : ∀ j, p'.Used j ↔ p.Used j
  usedCount : p'.usedCount = p.usedCount
  object : ∀ j, p'.object? j = if j = i then some obj else p.object? j

/-- With no free index `allocate` throws. -/
theorem allocate_nil (h : p.freeIndices = []) (obj : T) :
    p.allocate obj = .error (.runtimeError "ObjectPool: Out of memory. No free objects.") := by
  simp only [allocate, h]

/-- Otherwise it hands out the first free slot. -/
theorem Ok.allocate_cons (h : p.Ok) {i : Nat} {rest : List Nat} (hfree : p.freeIndices = i :: rest)
    (obj : T) : ∃ p', p.allocate obj = .ok (i, p') ∧ p.Allocated p' i obj := by
  have hi : i < p.capacity := h.bound i (by simp [hfree])
  have hnodup := h.nodup
  rw [hfree, List.nodup_cons] at hnodup
  have hobj : ∀ j, ((p.pool.set i (some obj))[j]?).join =
      if j = i then some obj else p.object? j := by
    intro j
    apply object?_set
    rwa [h.length]
  have hcount := h.count
  rw [hfree, List.length_cons] at hcount
  have hok : Ok { p with
      pool := p.pool.set i (some obj)
      freeIndices := rest
      usedCount := p.usedCount + 1
      lifetimes := .constructed i :: p.lifetimes } := by
    constructor
    · simp [h.length]
    · exact hnodup.2
    · intro j hj
      exact h.bound j (by simp [hfree, hj])
    · intro j hj hnot
      by_cases hji : j = i
      · exact ⟨obj, by rw [object?, hobj, if_pos hji]⟩
      · have hold : j ∉ p.freeIndices := by simp [hfree, hji, hnot]
        obtain ⟨obj', hobj'⟩ := h.alive j hj hold
        exact ⟨obj', by rw [object?, hobj, if_neg hji, hobj']⟩
    · change p.usedCount + 1 + rest.length = p.capacity
      omega
  refine ⟨_, by simp only [allocate, hfree], hok, rfl, ?_, ?_, rfl, hobj⟩
  · intro hused
    exact hused.2 (by simp [hfree])
  · intro j
    by_cases hji : j = i
    · subst hji
      simp [Used, hi, hnodup.1]
    · simp [Used, hfree, hji]

/-- An outstanding object is counted. -/
theorem Ok.usedCount_pos (h : p.Ok) {i : Nat} (hused : p.Used i) : 0 < p.usedCount := by
  obtain ⟨hi, hnot⟩ := hused
  have hslots : i :: p.freeIndices ⊆ List.range p.capacity := by
    intro j hj
    rcases List.mem_cons.mp hj with rfl | hj
    · exact List.mem_range.mpr hi
    · exact List.mem_range.mpr (h.bound j hj)
  have hnodup : (i :: p.freeIndices).Nodup := List.nodup_cons.mpr ⟨hnot, h.nodup⟩
  have hlen := (List.subperm_of_subset hnodup hslots).length_le
  have hcount := h.count
  simp only [List.length_cons, List.length_range] at hlen
  omega

/-- The slot of an outstanding object goes to the back of the free list. -/
theorem Ok.deallocate_used (h : p.Ok) {i : Nat} (hused : p.Used i) :
    ∃ p', p.deallocate (some i) = .ok p' ∧ p.Deallocated p' i := by
  have hpos := h.usedCount_pos hused
  obtain ⟨hi, hnot⟩ := hused
  obtain ⟨obj, hobj⟩ := h.alive i hi hnot
  have hset : ∀ j, ((p.pool.set i none)[j]?).join = if j = i then none else p.object? j := by
    intro j
    apply object?_set
    rwa [h.length]
  have hcount := h.count
  have hok : Ok { p with
      pool := p.pool.set i none
      freeIndices := p.freeIndices ++ [i]
      usedCount := p.usedCount - 1
      lifetimes := .destroyed i :: p.lifetimes } := by
    constructor
    · simp [h.length]
    · apply List.nodup_append.mpr
      refine ⟨h.nodup, List.nodup_singleton i, ?_⟩
      rintro a ha b hb rfl
      rw [List.mem_singleton.mp hb] at ha
      exact hnot ha
    · intro j hj
      rcases List.mem_append.mp hj with hj | hj
      · exact h.bound j hj
      · rw [List.mem_singleton.mp hj]
        exact hi
    · intro j hj hfree
      obtain ⟨hold, hji⟩ : j ∉ p.freeIndices ∧ j ≠ i := by simpa using hfree
      obtain ⟨obj', hobj'⟩ := h.alive j hj hold
      exact ⟨obj', by rw [object?, hset, if_neg hji, hobj']⟩
    · change p.usedCount - 1 + (p.freeIndices ++ [i]).length = p.capacity
      simp only [List.length_append, List.length_singleton]
      omega
  refine ⟨_, ?_, hok, rfl, ?_, ?_, hset⟩
  · simp only [deallocate, if_neg (show ¬ p.capacity = 0 by omega), if_neg (not_le.mpr hi), hobj]
  · intro j
    simp [Used]
    tauto
  · change p.usedCount - 1 + 1 = p.usedCount
    omega

/-- Assigning changes one object and nothing else. -/
theorem Ok.assign_used (h : p.Ok) {i : Nat} {obj : T} (hobj : p.object? i = some obj)
    (f : T → T) : ∃ p', p.assign i f = .ok p' ∧ p.Assigned p' i (f obj) := by
  have hi : i < p.pool.length := by
    by_contra hge
    simp [object?, List.getElem?_eq_none (not_lt.mp hge)] at hobj
  have hset : ∀ j, ((p.pool.set i (some (f obj)))[j]?).join =
      if j = i then some (f obj) else p.object? j := by
    intro j
    apply object?_set
    exact hi
  have hok : Ok { p with pool := p.pool.set i (some (f obj)) } := by
    constructor
    · simp [h.length]
    · exact h.nodup
    · exact h.bound
    · intro j hj hfree
      obtain ⟨obj', hobj'⟩ := h.alive j hj hfree
      by_cases hji : j = i
      · exact ⟨f obj, by rw [object?, hset, if_pos hji]⟩
      · exact ⟨obj', by rw [object?, hset, if_neg hji, hobj']⟩
    · exact h.count
  exact ⟨_, by simp only [assign, hobj], hok, rfl, fun j => Iff.rfl, rfl, hset⟩

end ObjectPool

end HftProject.Week5
