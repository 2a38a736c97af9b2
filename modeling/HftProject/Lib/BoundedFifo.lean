import Mathlib.Data.List.Basic

/-!
Bounded queues: a list of items that never outgrows the capacity. `push` refuses when the
queue is full, `pop` when it is empty.
-/

namespace HftProject

structure BoundedFifo (T : Type) (capacity : Nat) where
  items : List T
  bounded : items.length ≤ capacity

namespace BoundedFifo

variable {T : Type} {capacity : Nat}

@[ext] theorem ext {f g : BoundedFifo T capacity} (h : f.items = g.items) : f = g := by
  cases f
  cases g
  cases h
  rfl

def empty : BoundedFifo T capacity := ⟨[], Nat.zero_le _⟩

def push (item : T) (f : BoundedFifo T capacity) : Bool × BoundedFifo T capacity :=
  if h : f.items.length = capacity then (false, f)
  else
    (true, ⟨f.items ++ [item], by
      rw [List.length_append]
      exact Nat.lt_of_le_of_ne f.bounded h⟩)

def pop (f : BoundedFifo T capacity) : Option T × BoundedFifo T capacity :=
  match f with
  | ⟨[], _⟩ => (none, f)
  | ⟨item :: items, h⟩ => (some item, ⟨items, Nat.le_of_succ_le h⟩)

variable {f : BoundedFifo T capacity}

theorem push_full (item : T) (h : f.items.length = capacity) : f.push item = (false, f) :=
  dif_pos h

theorem push_room (item : T) (h : f.items.length < capacity) :
    (f.push item).1 = true ∧ (f.push item).2.items = f.items ++ [item] := by
  rw [push, dif_neg (Nat.ne_of_lt h)]
  exact ⟨rfl, rfl⟩

theorem pop_nil (h : f.items = []) : f.pop = (none, f) := by
  obtain ⟨items, hitems⟩ := f
  cases h
  rfl

theorem pop_cons {item : T} {items : List T} (h : f.items = item :: items) :
    f.pop.1 = some item ∧ f.pop.2.items = items := by
  obtain ⟨_, hitems⟩ := f
  cases h
  exact ⟨rfl, rfl⟩

theorem items_of_pop {item : T} {g : BoundedFifo T capacity} (h : f.pop = (some item, g)) :
    f.items = item :: g.items := by
  cases hitems : f.items with
  | nil =>
      rw [pop_nil hitems] at h
      cases h
  | cons item' items =>
      obtain ⟨hsome, hrest⟩ := pop_cons hitems
      rw [h] at hsome hrest
      cases hsome
      rw [← hrest]

end BoundedFifo

end HftProject
