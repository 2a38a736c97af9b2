import Mathlib.Data.List.Nodup
import Mathlib.Tactic.Ring

/-!
A chunk of raw memory that holds typed objects. `Chunk α` gives the object that
starts at a byte offset, if any; an object `x` at offset `a` occupies the bytes
`a, …, a + size x - 1`. Storing an object ends every object it overlaps, so a
chunk whose slots are too small for what is put in them loses the neighbours.

`Chain` reads a linked list whose links lie in the chunk itself: from a head
pointer, through the link object at each node, down to the null pointer.
-/

namespace HftProject.Memory

/-- The objects in a chunk, by the offset at which each of them starts. -/
abbrev Chunk (α : Type) := Nat → Option α

variable {α : Type}

/-- Store `x` at offset `a`: the new object starts there, and every other object
that shares a byte with it is gone. -/
def Chunk.store (size : α → Nat) (m : Chunk α) (a : Nat) (x : α) : Chunk α := fun b =>
  if b = a then some x
  else match m b with
    | none => none
    | some y => if a < b + size y ∧ b < a + size x then none else some y

/-- End the lifetime of the object at `a`, leaving raw bytes. -/
def Chunk.clear (m : Chunk α) (a : Nat) : Chunk α := fun b => if b = a then none else m b

/-- Change the object at `a` in place. -/
def Chunk.update (m : Chunk α) (a : Nat) (f : α → α) : Chunk α := fun b =>
  if b = a then (m b).map f else m b

variable {size : α → Nat} {m : Chunk α}

@[simp] theorem store_same (a : Nat) (x : α) : m.store size a x a = some x := by
  simp [Chunk.store]

/-- An object clear of the stored one is left alone. -/
theorem store_disjoint {a b : Nat} {x : α} (hne : b ≠ a)
    (clear : ∀ y, m b = some y → b + size y ≤ a ∨ a + size x ≤ b) :
    m.store size a x b = m b := by
  cases hb : m b with
  | none => simp [Chunk.store, hne, hb]
  | some y =>
      have := clear y hb
      simp only [Chunk.store, hne, hb, if_false]
      rw [if_neg (by omega)]

@[simp] theorem clear_same (a : Nat) : m.clear a a = none := by simp [Chunk.clear]

@[simp] theorem clear_other {a b : Nat} (h : b ≠ a) : m.clear a b = m b := by
  simp [Chunk.clear, h]

@[simp] theorem update_same (a : Nat) (f : α → α) : m.update a f a = (m a).map f := by
  simp [Chunk.update]

@[simp] theorem update_other {a b : Nat} (h : b ≠ a) (f : α → α) : m.update a f b = m b := by
  simp [Chunk.update, h]

/-! ### Slots of one width -/

/-- Every object starts at one of the first `count` multiples of `width` and is
no longer than `width`. -/
def Slotted (size : α → Nat) (width count : Nat) (m : Chunk α) : Prop :=
  ∀ b y, m b = some y → (∃ i < count, b = i * width) ∧ size y ≤ width

/-- Offsets of two different slots are at least a width apart. -/
theorem slot_apart {width i j : Nat} (h : j * width ≠ i * width) :
    j * width + width ≤ i * width ∨ i * width + width ≤ j * width := by
  rcases Nat.lt_trichotomy j i with hlt | rfl | hgt
  · left
    calc j * width + width = (j + 1) * width := by ring
      _ ≤ i * width := Nat.mul_le_mul_right _ hlt
  · exact absurd rfl h
  · right
    calc i * width + width = (i + 1) * width := by ring
      _ ≤ j * width := Nat.mul_le_mul_right _ hgt

/-- In a slotted chunk an object that fits its slot disturbs no other slot. -/
theorem Slotted.store_other {width count i b : Nat} {x : α} (h : Slotted size width count m)
    (fits : size x ≤ width) (hne : b ≠ i * width) :
    m.store size (i * width) x b = m b := by
  apply store_disjoint hne
  intro y hy
  obtain ⟨⟨j, -, rfl⟩, hlen⟩ := h b y hy
  have := slot_apart hne
  omega

theorem Slotted.store {width count i : Nat} {x : α} (h : Slotted size width count m)
    (hi : i < count) (fits : size x ≤ width) :
    Slotted size width count (m.store size (i * width) x) := by
  intro b y hy
  by_cases hb : b = i * width
  · subst hb
    rw [store_same] at hy
    cases hy
    exact ⟨⟨i, hi, rfl⟩, fits⟩
  · rw [h.store_other fits hb] at hy
    exact h b y hy

theorem Slotted.clear {width count : Nat} (h : Slotted size width count m) (a : Nat) :
    Slotted size width count (m.clear a) := by
  intro b y hy
  by_cases hb : b = a
  · subst hb
    simp at hy
  · rw [clear_other hb] at hy
    exact h b y hy

theorem Slotted.update {width count : Nat} (h : Slotted size width count m) (a : Nat)
    {f : α → α} (same : ∀ y, size (f y) = size y) : Slotted size width count (m.update a f) := by
  intro b y hy
  by_cases hb : b = a
  · subst hb
    rw [update_same] at hy
    obtain ⟨x, hx, rfl⟩ := Option.map_eq_some_iff.mp hy
    rw [same]
    exact h b x hx
  · rw [update_other hb] at hy
    exact h b y hy

/-! ### Lists threaded through the chunk -/

/-- `Chain link m head nodes`: following `link` from `head` visits exactly
`nodes`, in order, and ends at the null pointer. -/
inductive Chain (link : α → Option (Option Nat)) (m : Chunk α) :
    Option Nat → List Nat → Prop where
  | nil : Chain link m none []
  | cons {a : Nat} {x : α} {next : Option Nat} {nodes : List Nat} :
      m a = some x → link x = some next → Chain link m next nodes →
        Chain link m (some a) (a :: nodes)

variable {link : α → Option (Option Nat)}

theorem Chain.nil_inv {nodes : List Nat} (h : Chain link m none nodes) : nodes = [] := by
  cases h
  rfl

theorem Chain.cons_inv {a : Nat} {nodes : List Nat} (h : Chain link m (some a) nodes) :
    ∃ x next rest, nodes = a :: rest ∧ m a = some x ∧ link x = some next ∧
      Chain link m next rest := by
  cases h with
  | cons hx hlink hrest => exact ⟨_, _, _, rfl, hx, hlink, hrest⟩

/-- The head pointer is that of the first node. -/
theorem Chain.head {head : Option Nat} {nodes : List Nat} (h : Chain link m head nodes) :
    head = nodes.head? := by
  cases h <;> rfl

/-- Every node of a chain holds a link object. -/
theorem Chain.node {head : Option Nat} {nodes : List Nat} (h : Chain link m head nodes) :
    ∀ a ∈ nodes, ∃ x next, m a = some x ∧ link x = some next := by
  induction h with
  | nil => simp
  | cons hx hlink _ ih =>
      intro b hb
      rcases List.mem_cons.mp hb with rfl | hb
      · exact ⟨_, _, hx, hlink⟩
      · exact ih b hb

/-- A chain reads only its own nodes. -/
theorem Chain.congr {m' : Chunk α} {head : Option Nat} {nodes : List Nat}
    (h : Chain link m head nodes) (same : ∀ a ∈ nodes, m' a = m a) :
    Chain link m' head nodes := by
  induction h with
  | nil => exact .nil
  | @cons a x next nodes hx hlink _ ih =>
      refine .cons ?_ hlink (ih fun b hb => same b (List.mem_cons_of_mem _ hb))
      rw [same a List.mem_cons_self]
      exact hx

/-- A head pointer determines the list. -/
theorem Chain.unique {head : Option Nat} {nodes nodes' : List Nat}
    (h : Chain link m head nodes) (h' : Chain link m head nodes') : nodes = nodes' := by
  induction h generalizing nodes' with
  | nil => exact h'.nil_inv.symm
  | cons hx hlink _ ih =>
      obtain ⟨x', next', rest, rfl, hx', hlink', hrest⟩ := h'.cons_inv
      rw [hx] at hx'
      cases hx'
      rw [hlink] at hlink'
      cases hlink'
      rw [ih hrest]

end HftProject.Memory
