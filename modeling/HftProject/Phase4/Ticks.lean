import HftProject.Phase4.Engine

/-!
What holds after every tick, and when a tick's orders are refused.

* `ticks_runInvariant_iff`: the run invariant of the engine holds after every tick on
  every pool that has a block. A pool of size zero is the exception: its free list
  starts past the chunk, so the first order is placed outside it.
* `refusals_justified_iff`: matching erases entries from the sides, but the index keeps
  their orders alive. A refused order stands against free capacity exactly if the pool
  is used up by orders of which some neither rest nor are tracked.
-/

namespace HftProject.Phase4

open Clearing

variable {P : Type} [LinearOrder P] {L : Layout}

namespace MatchingEngine

/-- A run of ticks on a fresh book. -/
def runTicks [OfNat P 100] (L : Layout) (blockSize poolSize : Nat) (currentId : Int)
    (ticks : List (MarketData P)) : Except Fault (MatchingEngine P) := do
  let e ← fresh L blockSize poolSize currentId
  Run.run (processMarketData L) ticks e

/-! ### The run invariant -/

/-- Bids lie below asks; every resting order has at least one unit and at most what it
was added with; within a price level ids increase from front to back; both sides have
lost the same number of units. -/
structure RunInvariant (e : MatchingEngine P) : Prop where
  uncrossed : ∀ x ∈ e.system.book.bids, ∀ y ∈ e.system.book.asks, x.1 < y.1
  quantities : ∀ q ∈ e.system.resting, ∃ before o, .addOrder before o (.ok q) ∈ e.history ∧
    1 ≤ e.system.quantity q ∧ e.system.quantity q ≤ o.quantity
  arrival : ∀ b, (e.system.book.side b).Pairwise fun x y => x.1 = y.1 →
    ∃ o o', e.system.order? x.2 = some o ∧ e.system.order? y.2 = some o' ∧ o.id < o'.id
  balance : Call.added true e.history - total (e.system.lots true) =
    Call.added false e.history - total (e.system.lots false)

variable {n : Nat} {e : MatchingEngine P}

theorem Ok.runInvariant (h : e.Ok L n) : e.RunInvariant where
  uncrossed := h.sound.ok.uncrossed_iff.mp h.uncrossed
  quantities := fun q hq => by
    obtain ⟨o, -, hindex⟩ := h.sound.ok.resting_indexed hq
    obtain ⟨before, o', hmem, -, hle⟩ := h.sound.recorded o.id q hindex
    exact ⟨before, o', hmem, h.sound.stocked q hq, hle⟩
  arrival := fun b => by
    refine (h.sound.ok.arrival b).imp_of_mem fun {x y} hx hy hctrl hprice => ?_
    obtain ⟨o, ho, -, -, hindex⟩ := h.sound.ok.placed b x.1 x.2 hx
    obtain ⟨o', ho', -, -, hindex'⟩ := h.sound.ok.placed b y.1 y.2 hy
    exact ⟨o, o', ho, ho', h.sound.aged o.id o'.id x.2 y.2 hindex hindex' (hctrl hprice)⟩
  balance := h.sound.balance

variable [OfNat P 100]

/-- Every run on a pool with a block returns and keeps the invariant. -/
theorem runTicks_ok {blockSize poolSize : Nat} (fits : L.sizeofOrder ≤ blockSize)
    (hpos : 0 < poolSize) (currentId : Int) (ticks : List (MarketData P)) :
    ∃ e, runTicks L blockSize poolSize currentId ticks = .ok e ∧ e.Ok L poolSize := by
  obtain ⟨e, hfresh, hok, -⟩ := fresh_ok (P := P) (L := L) fits hpos currentId
  obtain ⟨e', hrun, hok'⟩ := hok.run ticks
  refine ⟨e', ?_, hok'⟩
  simp only [runTicks, hfresh, bind, Except.bind]
  exact hrun

/-- On a pool without blocks the first tick reads a link that is not there. -/
theorem runTicks_empty_pool (blockSize : Nat) (currentId : Int) (data : MarketData P)
    (ticks : List (MarketData P)) :
    runTicks L blockSize 0 currentId (data :: ticks) = .error .undefined := by
  have hfresh : fresh L blockSize 0 currentId =
      .ok (⟨⟨⟨⟨blockSize, 0, fun _ => none, some 0⟩, [], [], ∅⟩, ⟨∅, ∅⟩, [], 0⟩, currentId,
        []⟩ : MatchingEngine P) := rfl
  simp only [runTicks, hfresh, bind, Except.bind]
  apply Run.run_cons_error
  simp [processMarketData, submitQuotes, addOrder, OrderBook.addOrder, MemoryPool.allocate, bind,
    Except.bind]

end MatchingEngine

open MatchingEngine

/-- **The run invariant of the engine.** It holds after every tick, whatever the prices
and whichever orders are refused, exactly if the pool has a block or there is no tick. -/
theorem ticks_runInvariant_iff [OfNat P 100] {blockSize : Nat} (fits : L.sizeofOrder ≤ blockSize)
    (poolSize : Nat) (currentId : Int) (ticks : List (MarketData P)) :
    (∀ pre, pre <+: ticks →
        ∃ e, runTicks L blockSize poolSize currentId pre = .ok e ∧ e.RunInvariant) ↔
      0 < poolSize ∨ ticks = [] := by
  constructor
  · intro hall
    by_contra hnot
    obtain ⟨hzero, hne⟩ := not_or.mp hnot
    obtain rfl : poolSize = 0 := by omega
    cases ticks with
    | nil => exact hne rfl
    | cons data ticks =>
        obtain ⟨e, hrun, -⟩ := hall (data :: ticks) (List.prefix_refl _)
        rw [runTicks_empty_pool] at hrun
        cases hrun
  · intro hcond pre hpre
    rcases Nat.eq_zero_or_pos poolSize with rfl | hpos
    · have hnil : pre = [] := by
        rcases hcond with hlt | rfl
        · exact absurd hlt (lt_irrefl 0)
        · exact List.prefix_nil.mp hpre
      subst hnil
      refine ⟨_, rfl, ?_⟩
      exact
        { uncrossed := fun x hx => by cases hx
          quantities := fun q hq => by cases hq
          arrival := fun b => by cases b <;> exact List.Pairwise.nil
          balance := rfl }
    · obtain ⟨e, hrun, hok⟩ := runTicks_ok fits hpos currentId pre
      exact ⟨e, hrun, hok.runInvariant⟩

theorem ticks_runInvariant_iff_sample :
    (∀ pre, pre <+: ([⟨"A", 90, 91⟩, ⟨"A", 80, 90⟩, ⟨"B", 80, 85⟩] : List (MarketData Int)) →
        ∃ e, runTicks .lp64 56 4 1 pre = .ok e ∧ e.RunInvariant) ↔
      0 < 4 ∨ ([⟨"A", 90, 91⟩, ⟨"A", 80, 90⟩, ⟨"B", 80, 85⟩] : List (MarketData Int)) = [] :=
  ticks_runInvariant_iff (by decide) 4 1 _

/-- A pool of size zero does not refuse the first order; the engine's behaviour is
undefined from there. -/
theorem empty_pool_undefined :
    runTicks .lp64 56 0 1 [(⟨"A", 90, 91⟩ : MarketData Int)] = .error .undefined ∧
      ¬ ∃ e, runTicks .lp64 56 0 1 [(⟨"A", 90, 91⟩ : MarketData Int)] = .ok e ∧
        e.RunInvariant := by
  refine ⟨runTicks_empty_pool 56 1 _ _, ?_⟩
  rintro ⟨e, hrun, -⟩
  rw [runTicks_empty_pool] at hrun
  cases hrun

/-! ### Refused orders -/

/-- The distinct orders that rest or are tracked. -/
def System.occupied (s : System P Int) : List OrderPtr :=
  (s.resting ++ s.manager.orders.toList.map (·.2)).dedup

/-- No order was refused while fewer than `n` distinct orders rested or were tracked. -/
def RefusalsJustified (n : Nat) (h : List (Call P)) : Prop :=
  Call.EachAdd (fun before _ result _ =>
    result = .error .poolExhausted → n ≤ before.occupied.length) h

/-- Every order was offered either before `n` orders had been offered, or while every
order accepted so far was still resting or tracked. -/
def NoneForgotten (n : Nat) (h : List (Call P)) : Prop :=
  Call.EachAdd (fun before _ _ earlier =>
    Call.offers earlier < n ∨
      ∀ b o q, .addOrder b o (.ok q) ∈ earlier → q ∈ before.occupied) h

omit [LinearOrder P] in
theorem System.mem_occupied {s : System P Int} {q : OrderPtr} :
    q ∈ s.occupied ↔ q ∈ s.resting ∨ ∃ id : Int, s.manager.orders[id]? = some q := by
  simp [System.occupied, Std.ExtTreeMap.mem_toList_iff_getElem?_eq_some]

/-- One call: with the pool used up, the resting and tracked orders fill it exactly if
no accepted order is missing from them. -/
theorem Offer.justified_iff {n : Nat} {before : System P Int}
    {result : Except (AddError Int) OrderPtr} {earlier : List (Call P)}
    (h : Offer L n before result earlier) :
    (result = .error .poolExhausted → n ≤ before.occupied.length) ↔
      (Call.offers earlier < n ∨
        ∀ b o q, .addOrder b o (.ok q) ∈ earlier → q ∈ before.occupied) := by
  have hsize := h.size
  rw [← System.indexed_length] at hsize
  have hsub : before.occupied ⊆ before.indexed := by
    intro q hq
    refine System.mem_indexed.mpr (h.kept q ?_)
    rcases System.mem_occupied.mp hq with hq | ⟨id, hq⟩
    · exact System.mem_refs_of_resting hq
    · exact System.mem_refs_of_tracked _ hq
  have hocc : before.occupied.Nodup := List.nodup_dedup _
  by_cases hless : Call.offers earlier < n
  · exact ⟨fun _ => Or.inl hless, fun _ hresult => absurd (h.refused.mp hresult) (not_le.mpr hless)⟩
  · have hresult := h.refused.mpr (not_lt.mp hless)
    constructor
    · intro hfull
      have hperm := (List.subperm_of_subset hocc hsub).perm_of_length_le
        (by have := hfull hresult; omega)
      exact Or.inr fun b o q hmem => hperm.mem_iff.mpr (h.accepted b o q hmem)
    · rintro (hlt | hall) _
      · exact absurd hlt hless
      · have hsub' : before.indexed ⊆ before.occupied := fun q hq => by
          obtain ⟨b, o, hmem⟩ := h.recorded q hq
          exact hall b o q hmem
        have hlen := (List.subperm_of_subset h.ok.indexed_nodup hsub').length_le
        omega

/-- **When matching gives its blocks back.** In a run of ticks no order is refused while
fewer than `poolSize` orders rest or are tracked, exactly if orders are offered only
before `poolSize` offers were made or while no accepted order has been forgotten. -/
theorem refusals_justified_iff [OfNat P 100] {blockSize poolSize : Nat}
    (fits : L.sizeofOrder ≤ blockSize) (hpos : 0 < poolSize) (currentId : Int)
    (ticks : List (MarketData P)) :
    ∃ e, runTicks L blockSize poolSize currentId ticks = .ok e ∧
      (RefusalsJustified poolSize e.history ↔ NoneForgotten poolSize e.history) := by
  obtain ⟨e, hrun, hok⟩ := runTicks_ok fits hpos currentId ticks
  exact ⟨e, hrun, Call.EachAdd.congr (fun _ _ _ _ h => h.justified_iff) hok.sound.offers⟩

theorem refusals_justified_iff_sample :
    ∃ e, runTicks .lp64 56 3 1 ([⟨"A", 90, 91⟩, ⟨"A", 80, 90⟩] : List (MarketData Int)) = .ok e ∧
      (RefusalsJustified 3 e.history ↔ NoneForgotten 3 e.history) :=
  refusals_justified_iff (by decide) (by decide) 1 _

/-- Two orders fill each other; the next one is refused on an empty book. -/
theorem refused_on_empty_book :
    ∃ e, runTicks .lp64 56 2 1 ([⟨"A", 100, 100⟩, ⟨"A", 100, 100⟩] : List (MarketData Int)) =
      .ok e ∧ ¬ RefusalsJustified 2 e.history := by
  refine ⟨_, rfl, fun hjustified => ?_⟩
  exact absurd (hjustified.1 rfl) (by decide +kernel)

end HftProject.Phase4
