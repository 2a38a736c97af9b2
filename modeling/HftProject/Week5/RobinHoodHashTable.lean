import HftProject.Lib.Probing
import HftProject.Lib.Run
import Mathlib.Data.Finmap

/-!
`RobinHoodHashTable` of `hw_5`: open addressing over a vector of entries. `insert`
swaps the entry it carries with residents that are closer to home; it goes on comparing
with the key it was called with, and the probe distance it stores with an entry is its
own, not the entry's. `find` and `erase` stop at the first slot that is not occupied,
and `erase` leaves such a slot behind.

The hash function is any function to `Nat`. The load check is exact.
-/

namespace HftProject.Week5

/-- A slot of the table. A default entry is not occupied. -/
structure Entry (K V : Type) where
  key : K
  value : V
  occupied : Bool
  probeDistance : Nat
deriving DecidableEq, Repr

structure RobinHoodHashTable (K V : Type) where
  table : List (Entry K V)
  numElements : Nat
  capacity : Nat
deriving DecidableEq, Repr

namespace RobinHoodHashTable

open Probing

/-- Why a modelled function does not return. -/
inductive Fault where
  /-- An access outside the table. -/
  | outOfBounds
  /-- A loop or a recursion that did not end within the steps the model allows it. -/
  | diverged
deriving DecidableEq, Repr

variable {K V : Type} [DecidableEq K] [Inhabited K] [Inhabited V]

/-! ### The code -/

omit [DecidableEq K] in
def new (initialCapacity : Nat) : RobinHoodHashTable K V :=
  ⟨List.replicate initialCapacity ⟨default, default, false, 0⟩, 0, initialCapacity⟩

/-- The loop of `insert`. The fuel is a round through the table. -/
def place (capacity : Nat) (key : K) (value : V) : Nat → Nat → Nat → Entry K V →
    List (Entry K V) → Except Fault (Bool × List (Entry K V))
  | 0, _, _, _, _ => .error .diverged
  | fuel + 1, idx, probeDist, entry, table =>
      match table[idx]? with
      | none => .error .outOfBounds
      | some resident =>
          if resident.occupied = false then .ok (true, table.set idx entry)
          else if resident.key = key then
            .ok (false, table.set idx { resident with value := value })
          else if resident.probeDistance < probeDist then
            place capacity key value fuel ((idx + 1) % capacity) (probeDist + 1)
              { resident with probeDistance := probeDist + 1 } (table.set idx entry)
          else
            place capacity key value fuel ((idx + 1) % capacity) (probeDist + 1)
              { entry with probeDistance := probeDist + 1 } table

/-- `num_elements / capacity > max_load_factor` -/
def Overloaded (t : RobinHoodHashTable K V) : Prop := 7 * t.capacity < 10 * t.numElements

omit [DecidableEq K] [Inhabited K] [Inhabited V] in
instance (t : RobinHoodHashTable K V) : Decidable t.Overloaded :=
  inferInstanceAs (Decidable (_ < _))

/-- Enter the old entries into a table of twice the capacity. -/
def rehash (insert : K → V → RobinHoodHashTable K V → Except Fault (Bool × RobinHoodHashTable K V))
    (t : RobinHoodHashTable K V) : Except Fault (RobinHoodHashTable K V) :=
  t.table.foldlM (fun t entry =>
    if entry.occupied then (·.2) <$> insert entry.key entry.value t else .ok t)
    (new (t.capacity * 2))

/-- `insert`, which calls itself through `rehash` to the depth given. -/
def insertWithin (hash : K → Nat) : Nat → K → V → RobinHoodHashTable K V →
    Except Fault (Bool × RobinHoodHashTable K V)
  | 0, _, _, _ => .error .diverged
  | depth + 1, key, value, t => do
      let t ← if t.Overloaded then rehash (insertWithin hash depth) t else .ok t
      let (inserted, table) ← place t.capacity key value t.capacity (hash key % t.capacity) 0
        ⟨key, value, true, 0⟩ t.table
      return (inserted,
        { t with
          table := table
          numElements := if inserted then t.numElements + 1 else t.numElements })

/-- The calls from `rehash` find a table that is not overloaded. -/
def insert (hash : K → Nat) : K → V → RobinHoodHashTable K V →
    Except Fault (Bool × RobinHoodHashTable K V) := insertWithin hash 2

/-- The loop of `find` and `erase`: the slot of the key and its entry. The number is how
often the loop may go round before `probe_dist > capacity`. -/
def seek (key : K) (t : RobinHoodHashTable K V) : Nat → Nat → Except Fault (Option (Nat × Entry K V))
  | 0, _ => .ok none
  | left + 1, idx =>
      match t.table[idx]? with
      | none => .error .outOfBounds
      | some entry =>
          if entry.occupied = false then .ok none
          else if entry.key = key then .ok (some (idx, entry))
          else seek key t left ((idx + 1) % t.capacity)

/-- The slot found, probing from the home slot of the key. -/
def lookup (hash : K → Nat) (key : K) (t : RobinHoodHashTable K V) :
    Except Fault (Option (Nat × Entry K V)) :=
  t.seek key (t.capacity + 1) (hash key % t.capacity)

def erase (hash : K → Nat) (key : K) (t : RobinHoodHashTable K V) :
    Except Fault (Bool × RobinHoodHashTable K V) := do
  match ← t.lookup hash key with
  | none => return (false, t)
  | some (idx, entry) =>
      return (true,
        { t with
          table := t.table.set idx { entry with occupied := false }
          numElements := t.numElements - 1 })

def find (hash : K → Nat) (key : K) (t : RobinHoodHashTable K V) : Except Fault (Option V) :=
  (fun found => found.map (·.2.value)) <$> t.lookup hash key

omit [DecidableEq K] in
def clear (t : RobinHoodHashTable K V) : RobinHoodHashTable K V := new t.capacity

def size (t : RobinHoodHashTable K V) : Nat := t.numElements

/-- A call that may change a table. -/
inductive Op (K V : Type) where
  | insert (key : K) (value : V)
  | erase (key : K)
  | clear
deriving DecidableEq, Repr

def step (hash : K → Nat) (op : Op K V) (t : RobinHoodHashTable K V) :
    Except Fault (RobinHoodHashTable K V) :=
  match op with
  | .insert key value => (·.2) <$> t.insert hash key value
  | .erase key => (·.2) <$> t.erase hash key
  | .clear => .ok t.clear

end RobinHoodHashTable

end HftProject.Week5
