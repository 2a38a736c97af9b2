import HftProject.Lib.Levels
import HftProject.Week5.ObjectPool

/-!
What the order books of `week_5` have in common: the record of an order, the calls,
and what a call reports. `ActiveOrders` is the abstract book, a finite map from ids to
records; what a book's levels should hold follows from it.

Prices are an ordered type with a zero, quantities exact integers.
-/

namespace HftProject.Week5

/-- The members of `OrderOpt` and of both structures called `Order`. -/
structure Order (P : Type) where
  id : String
  price : P
  quantity : Int
  isBuy : Bool
deriving DecidableEq, Repr

/-- A line written to `std::cerr`. -/
inductive Warning (P : Type) where
  /-- `Invalid order parameters for ID …`, `Invalid parameters for modifying order ID …` -/
  | invalidParameters (id : String)
  /-- `Order ID … already exists. …` -/
  | alreadyExists (id : String)
  /-- `Error allocating memory for order …: …` -/
  | allocationFailed (id : String) (what : Exception)
  /-- `Order ID … found in lookup …, but its price level … was not found in orderLevels …` -/
  | missingLevel (id : String) (price : P)
  /-- `Attempted to modify` or `delete non-existent order with ID: …` -/
  | notFound (id : String)
  /-- `Empty order ID provided for deletion. Deletion cancelled.` -/
  | emptyId
deriving DecidableEq, Repr

/-- What a call wrote to `std::cerr`, and the exception it ended with, if any. -/
structure Outcome (P : Type) where
  warnings : List (Warning P)
  exception : Option Exception
deriving DecidableEq, Repr

namespace Outcome

variable {P : Type}

def silent : Outcome P := ⟨[], none⟩

def warned (w : Warning P) : Outcome P := ⟨[w], none⟩

end Outcome

/-- A call that may change a book. -/
inductive Op (P : Type) where
  | addOrder (id : String) (price : P) (quantity : Int) (isBuy : Bool)
  | modifyOrder (id : String) (newPrice : P) (newQuantity : Int)
  | deleteOrder (id : String)
deriving DecidableEq, Repr

variable {P : Type} [LinearOrder P] [Zero P]

/-- `id.empty() || quantity <= 0 || price <= 0` -/
def Invalid (id : String) (price : P) (quantity : Int) : Prop :=
  id = "" ∨ quantity ≤ 0 ∨ price ≤ 0

instance (id : String) (price : P) (quantity : Int) : Decidable (Invalid id price quantity) :=
  inferInstanceAs (Decidable (_ ∨ _))

abbrev PriceLevels (P V : Type) [LinearOrder P] : Type := Levels P String V compare compare

abbrev Lookup (V : Type) : Type := Std.ExtTreeMap String V

/-- The abstract book: the active orders by id. -/
abbrev ActiveOrders (P : Type) : Type := Lookup (Order P)

namespace ActiveOrders

def add (id : String) (price : P) (quantity : Int) (isBuy : Bool) (m : ActiveOrders P) :
    ActiveOrders P :=
  if Invalid id price quantity ∨ id ∈ m then m else m.insert id ⟨id, price, quantity, isBuy⟩

def modify (id : String) (newPrice : P) (newQuantity : Int) (m : ActiveOrders P) :
    ActiveOrders P :=
  match m[id]? with
  | some o => if Invalid id newPrice newQuantity then m
      else m.insert id { o with price := newPrice, quantity := newQuantity }
  | none => m

omit [LinearOrder P] [Zero P] in
def delete (id : String) (m : ActiveOrders P) : ActiveOrders P :=
  if id = "" then m else m.erase id

/-- What a call makes of the active orders. -/
def step : Op P → ActiveOrders P → ActiveOrders P
  | .addOrder id price quantity isBuy, m => m.add id price quantity isBuy
  | .modifyOrder id newPrice newQuantity, m => m.modify id newPrice newQuantity
  | .deleteOrder id, m => m.delete id

/-- What it makes of them when there is room for `n`: a call that needs more changes
nothing. -/
def stepWithin (n : Nat) (op : Op P) (m : ActiveOrders P) : ActiveOrders P :=
  if n < (m.step op).size then m else m.step op

/-- What a sequence of calls makes of them. -/
def runWithin (n : Nat) (ops : List (Op P)) (m : ActiveOrders P) : ActiveOrders P :=
  ops.foldl (fun m op => m.stepWithin n op) m

theorem stepWithin_of_le {n : Nat} {op : Op P} {m : ActiveOrders P} (h : (m.step op).size ≤ n) :
    m.stepWithin n op = m.step op := by
  rw [stepWithin, if_neg (Nat.not_lt.mpr h)]

theorem stepWithin_of_lt {n : Nat} {op : Op P} {m : ActiveOrders P} (h : n < (m.step op).size) :
    m.stepWithin n op = m := by
  rw [stepWithin, if_pos h]

/-- A call with nothing to do. -/
theorem stepWithin_of_eq {n : Nat} {op : Op P} {m : ActiveOrders P} (h : m.step op = m) :
    m.stepWithin n op = m := by
  unfold stepWithin
  split
  · rfl
  · exact h

theorem step_add_idle {m : ActiveOrders P} {id : String} {price : P} {quantity : Int}
    (h : Invalid id price quantity ∨ id ∈ m) (isBuy : Bool) :
    m.step (.addOrder id price quantity isBuy) = m := if_pos h

theorem step_add {m : ActiveOrders P} {id : String} {price : P} {quantity : Int}
    (hvalid : ¬ Invalid id price quantity) (hnew : id ∉ m) (isBuy : Bool) :
    m.step (.addOrder id price quantity isBuy) = m.insert id ⟨id, price, quantity, isBuy⟩ :=
  if_neg (not_or.mpr ⟨hvalid, hnew⟩)

theorem step_modify_idle {m : ActiveOrders P} {id : String} {newPrice : P} {newQuantity : Int}
    (h : Invalid id newPrice newQuantity ∨ m[id]? = none) :
    m.step (.modifyOrder id newPrice newQuantity) = m := by
  unfold step modify
  rcases h with hinvalid | hnone
  · simp only [if_pos hinvalid]
    split <;> rfl
  · simp only [hnone]

theorem step_modify {m : ActiveOrders P} {id : String} {newPrice : P} {newQuantity : Int}
    {o : Order P} (hvalid : ¬ Invalid id newPrice newQuantity) (ho : m[id]? = some o) :
    m.step (.modifyOrder id newPrice newQuantity) =
      m.insert id { o with price := newPrice, quantity := newQuantity } := by
  simp only [step, modify, ho, if_neg hvalid]

theorem step_delete_idle {m : ActiveOrders P} {id : String} (h : id = "" ∨ m[id]? = none) :
    m.step (.deleteOrder id) = m := by
  rcases h with hempty | hnone
  · exact if_pos hempty
  · simp only [step, delete, erase_eq_self hnone, ite_self]

theorem step_delete {m : ActiveOrders P} {id : String} (h : id ≠ "") :
    m.step (.deleteOrder id) = m.erase id := if_neg h

/-- Every record carries its id. -/
def Named (m : ActiveOrders P) : Prop := ∀ (id : String) o, m[id]? = some o → o.id = id

omit [LinearOrder P] [Zero P] in
theorem Named.insert {m : ActiveOrders P} (h : m.Named) {id : String} {o : Order P}
    (ho : o.id = id) : Named (m.insert id o) := by
  intro id' o' ho'
  rw [getElem?_insert_eq] at ho'
  split at ho'
  · rename_i heq
    cases ho'
    rw [← heq, ho]
  · exact h id' o' ho'

omit [LinearOrder P] [Zero P] in
theorem Named.erase {m : ActiveOrders P} (h : m.Named) (id : String) : Named (m.erase id) := by
  intro id' o' ho'
  rw [getElem?_erase_eq] at ho'
  split at ho'
  · cases ho'
  · exact h id' o' ho'

end ActiveOrders

end HftProject.Week5
