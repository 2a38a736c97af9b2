import HftProject.Phase4.OrderStates
import HftProject.Phase4.Execution
import Mathlib.Algebra.Order.Ring.Int

/-!
Fills that `OrderManager` accepts. `updateOrderFill` compares each fill with the whole quantity
of the order and keeps no sum, so fills add up to the state that is kept exactly as long as they
leave something of the order, or one fill takes all of it (`fills_add_up_iff`).
-/

namespace HftProject.Phase4

open Run

variable {P I : Type} [LinearOrder P] [LinearOrder I] {L : Layout}

/-- The system, and the fills of one order that were accepted. -/
structure Filling (P I : Type) [LinearOrder I] where
  system : System P I
  accepted : List Int

namespace Filling

/-- A call, with the fills of the order in view. -/
def step (L : Layout) (id : I) (op : Op P I) (f : Filling P I) : Except Fault (Filling P I) :=
  match op with
  | .updateOrderFill id' filledQuantity => do
      let (success, s) ← OrderManager.updateOrderFill L id' filledQuantity f.system
      return ⟨s, if success ∧ id' = id then f.accepted ++ [filledQuantity] else f.accepted⟩
  | op => do
      let s ← op.step L f.system
      return ⟨s, f.accepted⟩

/-- The fills of the order among the calls. -/
def fillsOf (id : I) (ops : List (Op P I)) : List Int :=
  ops.filterMap fun
    | .updateOrderFill id' filledQuantity => if id' = id then some filledQuantity else none
    | _ => none

/-- The accepted fills stay within the quantity of the order, and its state is that of their
sum; it has left the manager exactly if they reach the quantity. -/
structure AddUp (id : I) (quantity : Int) (f : Filling P I) : Prop where
  within : f.accepted.sum ≤ quantity
  new : f.accepted.sum = 0 → OrderManager.getState id f.system.manager = .new
  partially : 0 < f.accepted.sum → f.accepted.sum < quantity →
    OrderManager.getState id f.system.manager = .partiallyFilled
  filled : f.accepted.sum = quantity ↔
    OrderManager.getState id f.system.manager = .filled ∧ id ∉ f.system.manager.orders

/-- A call that is no fill of the order: it leaves the quantity of the order and what the
manager knows of it alone. -/
def Aside (L : Layout) (id : I) (op : Op P I) (f : Filling P I) : Prop :=
  (∀ n, op ≠ .updateOrderFill id n) → ∀ t, op.step L f.system = .ok t →
    t.manager.orders[id]? = f.system.manager.orders[id]? ∧
    t.manager.states[id]? = f.system.manager.states[id]? ∧
    ∀ q, f.system.manager.orders[id]? = some q → t.quantity q = f.system.quantity q

/-- The fills that take a part of the order, before any that takes all of it. -/
def parts (quantity : Int) (fills : List Int) : List Int :=
  (fills.takeWhile (· ≠ quantity)).filter fun n => 0 < n ∧ n < quantity

/-- The parts leave something of the order, and a fill of all of it comes before any part. -/
def Fit (quantity : Int) (fills : List Int) : Prop :=
  (parts quantity fills).sum < quantity ∧ (quantity ∈ fills → parts quantity fills = [])

/-! ### Fills after other fills -/

/-- Fills that fit after fills that come to `sum`. -/
def FitAfter (quantity sum : Int) (fills : List Int) : Prop :=
  sum + (parts quantity fills).sum < quantity ∧
    (quantity ∈ fills → sum = 0 ∧ parts quantity fills = [])

variable {quantity sum n : Int} {fills : List Int}

theorem fitAfter_zero : FitAfter quantity 0 fills ↔ Fit quantity fills := by
  simp [FitAfter, Fit]

theorem fitAfter_nil : FitAfter quantity sum [] ↔ sum < quantity := by
  simp [FitAfter, parts]

theorem parts_sum_nonneg : 0 ≤ (parts quantity fills).sum := by
  refine List.sum_nonneg fun n hn => ?_
  have hpart := (List.mem_filter.mp hn).2
  simp only [decide_eq_true_eq] at hpart
  omega

/-- No fill fits an order that is used up. -/
theorem FitAfter.less (h : FitAfter quantity sum fills) : sum < quantity := by
  have hnonneg : 0 ≤ (parts quantity fills).sum := parts_sum_nonneg
  have hless := h.1
  omega

/-- A fill of the whole order. -/
theorem fitAfter_whole (hpos : 0 < quantity) :
    FitAfter quantity sum (quantity :: fills) ↔ sum = 0 := by
  have hparts : parts quantity (quantity :: fills) = [] := by simp [parts]
  rw [FitAfter, hparts]
  constructor
  · rintro ⟨-, hwhole⟩
    exact (hwhole List.mem_cons_self).1
  · rintro rfl
    exact ⟨by simpa using hpos, fun _ => ⟨rfl, rfl⟩⟩

/-- A fill of a part of it. -/
theorem fitAfter_part (hsum : 0 ≤ sum) (hpos : 0 < n) (hless : n < quantity) :
    FitAfter quantity sum (n :: fills) ↔ FitAfter quantity (sum + n) fills := by
  have hparts : parts quantity (n :: fills) = n :: parts quantity fills := by
    simp [parts, hpos, hless, hless.ne]
  have hmem : quantity ∈ n :: fills ↔ quantity ∈ fills := by
    simp [hless.ne']
  rw [FitAfter, FitAfter, hparts, hmem, List.sum_cons, ← add_assoc]
  refine and_congr_right fun _ => ?_
  constructor
  · intro h hwhole
    exact absurd (h hwhole).2 (List.cons_ne_nil _ _)
  · intro h hwhole
    have hzero := (h hwhole).1
    omega

/-- A fill that takes nothing. -/
theorem fitAfter_none (hne : n ≠ quantity) (hn : n ≤ 0 ∨ quantity < n) :
    FitAfter quantity sum (n :: fills) ↔ FitAfter quantity sum fills := by
  have hnot : ¬ (0 < n ∧ n < quantity) := by omega
  have hparts : parts quantity (n :: fills) = parts quantity fills := by
    simp [parts, hne, hnot]
  have hmem : quantity ∈ n :: fills ↔ quantity ∈ fills := by
    simp [hne.symm]
  rw [FitAfter, FitAfter, hparts, hmem]

variable {id : I} {quantity n : Int} {f f' : Filling P I} {op : Op P I} {ops : List (Op P I)}

/-! ### The order while it is open -/

/-- The manager tracks the order, in the state of the sum of its fills. -/
structure Open (L : Layout) (id : I) (quantity : Int) (f : Filling P I) : Prop where
  ok : f.system.Ok L
  tracked : ∃ q, f.system.manager.orders[id]? = some q ∧ f.system.quantity q = quantity
  state : f.system.manager.states[id]? =
    some (if f.accepted.sum = 0 then .new else .partiallyFilled)
  nonneg : 0 ≤ f.accepted.sum

/-- The manager has forgotten the order as filled. -/
structure Closed (id : I) (f : Filling P I) : Prop where
  gone : id ∉ f.system.manager.orders
  state : f.system.manager.states[id]? = some .filled

theorem Open.mem (h : Open L id quantity f) : id ∈ f.system.manager.orders := by
  obtain ⟨q, hq, -⟩ := h.tracked
  exact System.mem_of_getElem? hq

/-- While the order is open its fills add up as long as they leave something of it. -/
theorem Open.addUp_iff (h : Open L id quantity f) :
    AddUp id quantity f ↔ f.accepted.sum < quantity := by
  have hget : OrderManager.getState id f.system.manager =
      if f.accepted.sum = 0 then .new else .partiallyFilled := by
    rw [OrderManager.getState, h.state]
    rfl
  constructor
  · intro hadd
    have hne : f.accepted.sum ≠ quantity := fun heq => (hadd.filled.mp heq).2 h.mem
    exact lt_of_le_of_ne hadd.within hne
  · intro hless
    refine ⟨hless.le, fun hzero => ?_, fun hpos _ => ?_, ?_⟩
    · rw [hget, if_pos hzero]
    · rw [hget, if_neg hpos.ne']
    · constructor
      · intro heq
        exact absurd heq hless.ne
      · rintro ⟨-, hgone⟩
        exact absurd h.mem hgone

omit [LinearOrder P] in
/-- Once it is closed they add up if they come to its quantity. -/
theorem Closed.addUp_iff (h : Closed id f) (hpos : 0 < quantity) :
    AddUp id quantity f ↔ f.accepted.sum = quantity := by
  have hget : OrderManager.getState id f.system.manager = .filled := by
    rw [OrderManager.getState, h.state]
    rfl
  constructor
  · intro hadd
    exact hadd.filled.mpr ⟨hget, h.gone⟩
  · intro hsum
    refine ⟨hsum.le, fun hzero => ?_, fun _ hless => ?_, fun _ => ⟨hget, h.gone⟩, fun _ => hsum⟩
    · omega
    · omega

/-! ### Steps -/

/-- A step is a step of the system. -/
theorem step_system (h : f.step L id op = .ok f') : op.step L f.system = .ok f'.system := by
  cases op with
  | updateOrderFill id' n =>
      obtain ⟨⟨success, s⟩, hfill, hret⟩ := except_bind_inv h
      cases hret
      rw [Op.step, hfill]
      rfl
  | _ =>
      obtain ⟨s, hstep, hret⟩ := except_bind_inv h
      cases hret
      exact hstep

/-- A call that is no fill of the order is not recorded. -/
theorem step_other (h : f.step L id op = .ok f') (hop : ∀ n, op ≠ .updateOrderFill id n) :
    f'.accepted = f.accepted := by
  cases op with
  | updateOrderFill id' n =>
      obtain ⟨⟨success, s⟩, hfill, hret⟩ := except_bind_inv h
      cases hret
      refine if_neg ?_
      rintro ⟨-, rfl⟩
      exact hop n rfl
  | _ =>
      obtain ⟨s, hstep, hret⟩ := except_bind_inv h
      cases hret
      rfl

/-- A fill of the order is recorded if it is accepted. -/
theorem step_fill {success : Bool} {s : System P I}
    (h : OrderManager.updateOrderFill L id n f.system = .ok (success, s)) :
    f.step L id (.updateOrderFill id n) =
      .ok ⟨s, if success then f.accepted ++ [n] else f.accepted⟩ := by
  rw [step, h]
  cases success <;> simp

/-- A call elsewhere leaves the order open. -/
theorem Open.aside (h : Open L id quantity f) (hop : ∀ n, op ≠ .updateOrderFill id n)
    (haside : Aside L id op f) (hstep : f.step L id op = .ok f') :
    Open L id quantity f' ∧ f'.accepted = f.accepted := by
  have hsystem := step_system hstep
  have haccepted := step_other hstep hop
  obtain ⟨horders, hstates, hquantity⟩ := haside hop _ hsystem
  obtain ⟨t, hstep', hdone⟩ := h.ok.step op
  obtain rfl := Except.ok.inj (hstep'.symm.trans hsystem)
  obtain ⟨q, hq, hquant⟩ := h.tracked
  refine ⟨⟨hdone.stays.ok, ⟨q, horders.trans hq, (hquantity q hq).trans hquant⟩, ?_, ?_⟩, haccepted⟩
  · rw [hstates, haccepted]
    exact h.state
  · rw [haccepted]
    exact h.nonneg

/-- The state of an open order is not final. -/
theorem Open.updateOrderFill_eq (h : Open L id quantity f) (n : Int) :
    ∃ q, f.system.manager.orders[id]? = some q ∧ f.system.quantity q = quantity ∧
      OrderManager.updateOrderFill L id n f.system =
        if n < 0 ∨ n > quantity then .ok (false, f.system)
        else if n = quantity then
          (fun t => (true, t)) <$> System.release L q
            (f.system.untracked id (f.system.manager.states.insert id .filled))
        else if n > 0 then
          .ok (true, { f.system with manager := { f.system.manager with
            states := f.system.manager.states.insert id .partiallyFilled } })
        else .ok (true, f.system) := by
  obtain ⟨q, hq, hquant⟩ := h.tracked
  obtain ⟨o, ho, -⟩ := h.ok.tracked id q hq
  refine ⟨q, hq, hquant, ?_⟩
  rw [← hquant, System.quantity_of_order ho]
  refine System.updateOrderFill_eq hq h.state ?_ ho
  split <;> simp

/-- A fill that takes nothing is refused, or accepted without effect. -/
theorem Open.none (h : Open L id quantity f) (hne : n ≠ quantity) (hn : n ≤ 0 ∨ quantity < n) :
    ∃ f', f.step L id (.updateOrderFill id n) = .ok f' ∧ Open L id quantity f' ∧
      f'.accepted.sum = f.accepted.sum := by
  obtain ⟨q, -, -, hfill⟩ := h.updateOrderFill_eq n
  by_cases hout : n < 0 ∨ n > quantity
  · rw [if_pos hout] at hfill
    exact ⟨f, step_fill hfill, h, rfl⟩
  · obtain rfl : n = 0 := by omega
    rw [if_neg hout, if_neg hne, if_neg (lt_irrefl _)] at hfill
    have hsum : (f.accepted ++ [0]).sum = f.accepted.sum := by simp
    refine ⟨_, step_fill hfill, ⟨h.ok, h.tracked, ?_, ?_⟩, hsum⟩
    · rw [if_pos rfl, hsum]
      exact h.state
    · rw [if_pos rfl, hsum]
      exact h.nonneg

/-- A fill of a part of the order. -/
theorem Open.part (h : Open L id quantity f) (hpos : 0 < n) (hless : n < quantity) :
    ∃ f', f.step L id (.updateOrderFill id n) = .ok f' ∧ Open L id quantity f' ∧
      f'.accepted.sum = f.accepted.sum + n := by
  obtain ⟨q, hq, hquant, hfill⟩ := h.updateOrderFill_eq n
  rw [if_neg (by omega), if_neg hless.ne, if_pos hpos] at hfill
  have hsum : (f.accepted ++ [n]).sum = f.accepted.sum + n := by simp
  have hnonneg := h.nonneg
  have hstep := step_fill hfill
  obtain ⟨t, hstep', hdone⟩ := h.ok.step (.updateOrderFill id n)
  obtain rfl := Except.ok.inj (hstep'.symm.trans (step_system hstep))
  refine ⟨_, hstep, ⟨hdone.stays.ok, ⟨q, hq, hquant⟩, ?_, ?_⟩, hsum⟩
  · rw [if_pos rfl, hsum, if_neg (by omega)]
    exact Std.ExtTreeMap.getElem?_insert_self
  · rw [if_pos rfl, hsum]
    omega

/-- A fill of all of it. -/
theorem Open.whole (h : Open L id quantity f) (hpos : 0 < quantity) :
    ∃ f', f.step L id (.updateOrderFill id quantity) = .ok f' ∧ Closed id f' ∧
      f'.accepted.sum = f.accepted.sum + quantity := by
  obtain ⟨q, hq, -, hfill⟩ := h.updateOrderFill_eq quantity
  obtain ⟨pool, hrelease, -⟩ := h.ok.untrack hq (f.system.manager.states.insert id .filled)
  rw [if_neg (by omega), if_pos rfl, hrelease] at hfill
  refine ⟨_, step_fill hfill, ⟨?_, ?_⟩, by simp⟩
  · change id ∉ f.system.manager.orders.erase id
    simp
  · exact Std.ExtTreeMap.getElem?_insert_self

/-- A closed order takes no more fills. -/
theorem Closed.stays (h : Closed id f) (haside : Aside L id op f)
    (hstep : f.step L id op = .ok f') : Closed id f' ∧ f'.accepted = f.accepted := by
  by_cases hop : ∀ n, op ≠ .updateOrderFill id n
  · obtain ⟨horders, hstates, -⟩ := haside hop _ (step_system hstep)
    refine ⟨⟨?_, hstates.trans h.state⟩, step_other hstep hop⟩
    rw [Std.ExtTreeMap.mem_iff_isSome_getElem?, horders, Std.ExtTreeMap.getElem?_eq_none h.gone]
    simp
  · simp only [ne_eq, not_forall, not_not] at hop
    obtain ⟨n, rfl⟩ := hop
    have hrefused := step_fill (f := f) (System.updateOrderFill_gone (L := L) (n := n) h.gone)
    obtain rfl := Except.ok.inj (hrefused.symm.trans hstep)
    exact ⟨h, rfl⟩

/-- A call returns. -/
theorem step_total (hs : f.system.Ok L) (id : I) (op : Op P I) :
    ∃ f', f.step L id op = .ok f' := by
  obtain ⟨t, hstep, -⟩ := hs.step op
  cases op with
  | updateOrderFill id' n =>
      obtain ⟨⟨success, s⟩, hfill, -⟩ := except_map_inv hstep
      exact ⟨_, by rw [step, hfill]; rfl⟩
  | _ => exact ⟨⟨t, f.accepted⟩, by simp only [step, hstep]; rfl⟩

/-! ### Runs -/

theorem Closed.always_iff (h : Closed id f) (hpos : 0 < quantity)
    (haside : Steps (Filling.step L id) ops f (Aside L id)) :
    Always (Filling.step L id) ops f (AddUp id quantity) ↔ f.accepted.sum = quantity := by
  constructor
  · intro hadd
    exact (h.addUp_iff hpos).mp (hadd [] List.nil_prefix f rfl)
  · intro hsum
    have hstay : Always (Filling.step L id) ops f fun g =>
        Closed id g ∧ g.accepted = f.accepted := by
      refine always_of_steps (fun op g g' hg hcond hstep => ?_) ⟨h, rfl⟩ haside
      obtain ⟨hclosed, hsame⟩ := hg.1.stays hcond hstep
      exact ⟨hclosed, hsame.trans hg.2⟩
    refine hstay.mono fun g hg => (hg.1.addUp_iff hpos).mpr ?_
    rw [hg.2]
    exact hsum

omit [LinearOrder P] in
theorem fillsOf_fill (id : I) (n : Int) (ops : List (Op P I)) :
    fillsOf id (.updateOrderFill id n :: ops) = n :: fillsOf id ops := by
  simp [fillsOf]

omit [LinearOrder P] in
theorem fillsOf_other (hop : ∀ n, op ≠ .updateOrderFill id n) :
    fillsOf id (op :: ops) = fillsOf id ops := by
  cases op with
  | updateOrderFill id' n =>
      have hne : id' ≠ id := by
        rintro rfl
        exact hop n rfl
      simp [fillsOf, hne]
  | _ => rfl

/-- The fills of an open order add up exactly if they fit what is left of it. -/
theorem Open.always_iff (h : Open L id quantity f) (hpos : 0 < quantity)
    (haside : Steps (Filling.step L id) ops f (Aside L id)) :
    Always (Filling.step L id) ops f (AddUp id quantity) ↔
      FitAfter quantity f.accepted.sum (fillsOf id ops) := by
  induction ops generalizing f with
  | nil => rw [always_nil, h.addUp_iff, fillsOf, List.filterMap_nil, fitAfter_nil]
  | cons op ops ih =>
      obtain ⟨hthis, hrest⟩ := steps_cons.mp haside
      by_cases hop : ∀ n, op ≠ .updateOrderFill id n
      · obtain ⟨t, hstep⟩ := step_total h.ok id op
        obtain ⟨hopen, hsame⟩ := h.aside hop hthis hstep
        rw [always_cons_ok hstep, h.addUp_iff, ih hopen (hrest _ hstep), hsame, fillsOf_other hop]
        exact and_iff_right_of_imp FitAfter.less
      · simp only [ne_eq, not_forall, not_not] at hop
        obtain ⟨n, rfl⟩ := hop
        rw [fillsOf_fill]
        by_cases hwhole : n = quantity
        · rw [hwhole] at hrest ⊢
          obtain ⟨f', hstep, hclosed, hsum⟩ := h.whole hpos
          rw [always_cons_ok hstep, h.addUp_iff, hclosed.always_iff hpos (hrest f' hstep), hsum,
            fitAfter_whole hpos]
          omega
        · by_cases hpart : 0 < n ∧ n < quantity
          · obtain ⟨f', hstep, hopen, hsum⟩ := h.part hpart.1 hpart.2
            rw [always_cons_ok hstep, h.addUp_iff, ih hopen (hrest f' hstep), hsum,
              ← fitAfter_part h.nonneg hpart.1 hpart.2]
            exact and_iff_right_of_imp FitAfter.less
          · have hnone : n ≤ 0 ∨ quantity < n := by omega
            obtain ⟨f', hstep, hopen, hsum⟩ := h.none hwhole hnone
            rw [always_cons_ok hstep, h.addUp_iff, ih hopen (hrest f' hstep), hsum,
              ← fitAfter_none hwhole hnone]
            exact and_iff_right_of_imp FitAfter.less

/-- Where the calls are fills of the order, nothing is done to it elsewhere. -/
theorem steps_aside_of_fills (id : I) (ns : List Int) (f : Filling P I) :
    Steps (Filling.step L id) (ns.map (.updateOrderFill id)) f (Aside L id) := by
  intro pre op hpre g _ hop
  obtain ⟨n, -, rfl⟩ := List.mem_map.mp (hpre.subset (List.mem_append_right pre List.mem_cons_self))
  exact absurd rfl (hop n)

/-- An order just added is tracked, in the state its id had before or else `New`. -/
theorem open_of_addOrder (s₀ : BookState L P I) {handle : Nat} {q : OrderPtr} {o : Order P I}
    (hq : s₀.1.handles[handle]? = some q) (ho : s₀.1.order? q = some o) {s : System P I}
    (hadd : OrderManager.addOrder (some q) s₀.1 = .ok (true, s)) :
    s.manager.states[o.id]? = some ((s₀.1.manager.states[o.id]?).getD .new) ∧
      ((s₀.1.manager.states[o.id]?).getD .new = .new → Open L o.id o.quantity ⟨s, []⟩) := by
  have hrefs : q ∈ s₀.1.refs := by
    obtain ⟨hlt, rfl⟩ := List.getElem?_eq_some_iff.mp hq
    exact System.mem_refs_of_handle (List.getElem_mem hlt)
  obtain ⟨o', ho', hcases⟩ := s₀.2.track hrefs
  obtain rfl := Option.some.inj (ho.symm.trans ho')
  rcases hcases with ⟨-, hrefused⟩ | ⟨hnew, t, hadd', hok, hbook, -, -, horders, hstates⟩
  · rw [hrefused] at hadd
    cases hadd
  obtain ⟨-, rfl⟩ := Prod.mk.inj (Except.ok.inj (hadd'.symm.trans hadd))
  have hstart : t.manager.states[o.id]? = some ((s₀.1.manager.states[o.id]?).getD .new) := by
    rw [hstates, Std.ExtTreeMap.getElem?_insertIfNew]
    cases hold : s₀.1.manager.states[o.id]? with
    | none => simp [Std.ExtTreeMap.mem_iff_isSome_getElem?, hold]
    | some state => simp [Std.ExtTreeMap.mem_iff_isSome_getElem?, hold]
  have hquant : t.quantity q = o.quantity := by
    refine System.quantity_of_order ?_
    rw [System.order?, hbook]
    exact ho
  refine ⟨hstart, fun hnone => ⟨hok, ⟨q, ?_, hquant⟩, ?_, le_refl _⟩⟩
  · rw [horders, getElem?_insertIfNew_new hnew, if_pos rfl]
  · rw [hstart, hnone]
    rfl

end Filling

open Filling

/-- **When fills add up.** After `addOrder` has taken over an order of positive quantity, and
as long as other calls leave that order alone, its fills add up to its state in every state of
a run exactly if no state of its id was left from before, the fills of parts leave something of
it, and a fill of all of it comes before any part. -/
theorem fills_add_up_iff (s₀ : BookState L P I) {handle : Nat} {q : OrderPtr} {o : Order P I}
    (hq : s₀.1.handles[handle]? = some q) (ho : s₀.1.order? q = some o) (hpos : 0 < o.quantity)
    {s : System P I} (hadd : OrderManager.addOrder (some q) s₀.1 = .ok (true, s))
    {ops : List (Op P I)}
    (haside : Steps (Filling.step L o.id) ops ⟨s, []⟩ (Filling.Aside L o.id)) :
    Always (Filling.step L o.id) ops ⟨s, []⟩ (AddUp o.id o.quantity) ↔
      (∀ state, s₀.1.manager.states[o.id]? = some state → state = .new) ∧
        Fit o.quantity (fillsOf o.id ops) := by
  obtain ⟨hstart, hopen⟩ := open_of_addOrder s₀ hq ho hadd
  have hunused : (∀ state, s₀.1.manager.states[o.id]? = some state → state = .new) ↔
      (s₀.1.manager.states[o.id]?).getD .new = .new := by
    cases s₀.1.manager.states[o.id]? with
    | none => simp
    | some state => simp
  rw [hunused]
  by_cases hnone : (s₀.1.manager.states[o.id]?).getD .new = .new
  · rw [(hopen hnone).always_iff hpos haside, List.sum_nil, fitAfter_zero]
    exact (and_iff_right hnone).symm
  · constructor
    · intro hadds
      -- The state left from before is not overwritten, and no fill has been made yet.
      have hstate := (hadds [] List.nil_prefix _ rfl).new List.sum_nil
      rw [OrderManager.getState, hstart] at hstate
      exact absurd hstate hnone
    · rintro ⟨hnew, -⟩
      exact absurd hnew hnone

theorem lp64_fits : Layout.lp64.sizeofOrder ≤ 56 := by decide

/-- A book with an order of ten units. -/
def tenUnits : BookState .lp64 Int Int :=
  (BookState.fresh lp64_fits (show 0 < 4 by decide)).step (.addOrder 1 "A" 100 10 true)

/-- Fills of four and five units. -/
theorem fills_add_up_iff_sample : ∃ s : System Int Int,
    OrderManager.addOrder (some ⟨0, 0⟩) tenUnits.1 = .ok (true, s) ∧
    (Always (Filling.step .lp64 1) ([4, 5].map (.updateOrderFill 1)) ⟨s, []⟩ (AddUp 1 10) ↔
      (∀ state, tenUnits.1.manager.states[(1 : Int)]? = some state → state = .new) ∧
        Fit 10 (fillsOf 1 ([4, 5].map (Op.updateOrderFill (P := Int) (I := Int) 1)))) :=
  ⟨_, rfl, fills_add_up_iff tenUnits (show tenUnits.1.handles[0]? = some ⟨0, 0⟩ from rfl)
    (o := ⟨1, "A", 100, 10, true⟩) rfl (by decide) rfl (steps_aside_of_fills 1 [4, 5] _)⟩

/-- Two fills of six of ten units are both accepted, and the order stays `PartiallyFilled`. -/
theorem fills_exceed_quantity : ∃ (s t : System Int Int) (f : Filling Int Int),
    OrderBook.fresh .lp64 56 4 = .ok s ∧
      run (Op.step .lp64) [.addOrder 1 "A" 100 10 true, .managerAddOrder 0] s = .ok t ∧
      run (Filling.step .lp64 1) [.updateOrderFill 1 6, .updateOrderFill 1 6] ⟨t, []⟩ = .ok f ∧
      f.accepted = [6, 6] ∧
      OrderManager.getState 1 f.system.manager = .partiallyFilled ∧ ¬ AddUp 1 10 f := by
  refine ⟨_, _, _, rfl, rfl, rfl, rfl, ?_, ?_⟩
  · decide +kernel
  · intro hadd
    exact absurd hadd.within (by decide)

end HftProject.Phase4
