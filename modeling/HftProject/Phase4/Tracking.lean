import HftProject.Phase4.Ticks

/-!
`OrderManager` against the book. The engine hands its own orders to the manager and
never calls `updateOrderFill`, so a tracked order stays `New` whatever is executed of
it. `states_agree_iff` says when this goes unnoticed: as long as no tracked order is hit,
that is, whenever the book is matched, the bids in front of every tracked order can take
everything that is asked at its price or less.
-/

namespace HftProject.Phase4

open Clearing

variable {P : Type} [LinearOrder P] {L : Layout}

/-! ### The property -/

/-- What has been executed of an order that was added as `o` and is known as `q`. -/
def System.executed (s : System P Int) (o : Order P Int) (q : OrderPtr) : Int :=
  o.quantity - s.quantity q

/-- The manager's state of every order the engine has passed to it is the one its
executions call for. -/
def StatesAgree (e : MatchingEngine P) : Prop :=
  ∀ q result, .track q result ∈ e.history → ∀ before o, .addOrder before o (.ok q) ∈ e.history →
    (e.system.executed o q = 0 → OrderManager.getState o.id e.system.manager = .new) ∧
    (0 < e.system.executed o q → e.system.executed o q < o.quantity →
      OrderManager.getState o.id e.system.manager = .partiallyFilled) ∧
    (e.system.executed o q = o.quantity →
      OrderManager.getState o.id e.system.manager = .filled ∧
        o.id ∉ e.system.manager.orders)

/-- The bids in front of every tracked order can take everything that is asked at its
price or less. -/
def Covered (s : System P Int) : Prop :=
  ∀ (id : Int) q, s.manager.orders[id]? = some q → ∀ k front back,
    s.book.bids = front ++ (k, q) :: back →
      supply k (s.lots false) ≤ total (front.map s.lot)

/-! ### What the engine knows of its own orders -/

/-- The tracked orders are the engine's own buy orders of one unit, and all are `New`. -/
structure Watched (s : System P Int) (h : List (Call P)) : Prop where
  passed : ∀ q b, .track q b ∈ h → ∃ id : Int, s.manager.orders[id]? = some q
  tracked : ∀ (id : Int) q, s.manager.orders[id]? = some q →
    (∃ b, .track q b ∈ h) ∧ s.manager.states[id]? = some .new ∧
      ∃ o, s.order? q = some o ∧ o.isBuy = true
  states : ∀ (id : Int) state, s.manager.states[id]? = some state → state = .new
  unit : ∀ (id : Int) q, s.manager.orders[id]? = some q →
    ∀ before o, .addOrder before o (.ok q) ∈ h → o.quantity = 1

/-- Nothing of any tracked order has been executed. -/
def Untouched (s : System P Int) : Prop :=
  ∀ (id : Int) q, s.manager.orders[id]? = some q → s.quantity q = 1

variable {n : Nat} {B : Int} {s t : System P Int} {h : List (Call P)} {e e' : MatchingEngine P}
  {o : Order P Int}

/-- An accepted order that is tracked is tracked under its id. -/
theorem id_of_tracked (hs : Sound L n B s h) {id : Int} {q : OrderPtr}
    (hq : s.manager.orders[id]? = some q) {before : System P Int}
    (hmem : .addOrder before o (.ok q) ∈ h) : o.id = id := by
  obtain ⟨o₁, ho₁, hid₁⟩ := hs.ok.indexed o.id q (hs.accepted before o q hmem)
  obtain ⟨o₂, ho₂, hid₂⟩ := hs.ok.tracked id q hq
  have heq : o₂ = o₁ := Option.some.inj (ho₂.symm.trans ho₁)
  rw [← hid₁, ← hid₂, heq]

/-- A tracked order has one unit or none. -/
theorem Watched.quantity (hw : Watched s h) (hs : Sound L n B s h) {id : Int} {q : OrderPtr}
    (hq : s.manager.orders[id]? = some q) :
    ∃ before o, .addOrder before o (.ok q) ∈ h ∧ o.id = id ∧ o.quantity = 1 ∧
      (s.quantity q = 0 ∨ s.quantity q = 1) := by
  obtain ⟨id', hid'⟩ := hs.kept q (System.mem_refs_of_tracked _ hq)
  obtain ⟨before, o, hmem, hnn, hle⟩ := hs.recorded id' q hid'
  have hunit := hw.unit id q hq before o hmem
  exact ⟨before, o, hmem, id_of_tracked hs hq hmem, hunit, by omega⟩

/-- The states agree exactly if no tracked order has been touched. -/
theorem Watched.statesAgree_iff (hw : Watched e.system e.history)
    (hs : Sound L n B e.system e.history) : StatesAgree e ↔ Untouched e.system := by
  constructor
  · intro hagree id q hq
    obtain ⟨before, o, hmem, hoid, hunit, hzero | hone⟩ := hw.quantity hs hq
    · obtain ⟨⟨b, htrack⟩, hnew, -⟩ := hw.tracked id q hq
      have hexecuted : e.system.executed o q = o.quantity := by
        simp [System.executed, hzero]
      have hfilled := ((hagree q b htrack before o hmem).2.2 hexecuted).1
      rw [OrderManager.getState, hoid, hnew] at hfilled
      cases hfilled
    · exact hone
  · intro huntouched q b htrack before o hmem
    obtain ⟨id, hq⟩ := hw.passed q b htrack
    obtain ⟨before', o', hmem', hoid', -, -⟩ := hw.quantity hs hq
    have hunit := hw.unit id q hq before o hmem
    have hone := huntouched id q hq
    have hexecuted : e.system.executed o q = 0 := by
      simp [System.executed, hunit, hone]
    have hoid := id_of_tracked hs hq hmem
    refine ⟨fun _ => ?_, fun hpos => ?_, fun hall => ?_⟩
    · rw [OrderManager.getState, hoid, (hw.tracked id q hq).2.1]
      rfl
    · omega
    · omega

/-! ### What a tick does to it -/

omit [LinearOrder P] in
theorem Watched.refuse (hw : Watched s h) (o : Order P Int) :
    Watched s (.addOrder s o (.error .poolExhausted) :: h) where
  passed := fun q b hmem => by
    rcases List.mem_cons.mp hmem with heq | hmem
    · cases heq
    · exact hw.passed q b hmem
  tracked := fun id q hq => by
    obtain ⟨⟨b, htrack⟩, hrest⟩ := hw.tracked id q hq
    exact ⟨⟨b, List.mem_cons_of_mem _ htrack⟩, hrest⟩
  states := hw.states
  unit := fun id q hq before o' hmem => by
    rcases List.mem_cons.mp hmem with heq | hmem
    · cases heq
    · exact hw.unit id q hq before o' hmem

section Accept

variable {q : OrderPtr} (ha : System.Accepted L s t q o)
include ha

/-- A tracked order is not the new one and keeps its record. -/
theorem System.Accepted.keeps_tracked {id : Int} {r : OrderPtr}
    (hr : s.manager.orders[id]? = some r) :
    r ≠ q ∧ t.quantity r = s.quantity r ∧ t.order? r = s.order? r := by
  have hrefs := System.mem_refs_of_tracked _ hr
  refine ⟨?_, ha.quantity_other hrefs, by rw [ha.order, if_neg (ha.fresh r hrefs)]⟩
  rintro rfl
  exact ha.fresh r hrefs rfl

/-- An order accepted for the market. -/
theorem Watched.accept (hw : Watched s h) (hmanager : t.manager = s.manager) :
    Watched t (.addOrder s o (.ok q) :: h) ∧ (Untouched t ↔ Untouched s) := by
  refine ⟨⟨fun r b hmem => ?_, fun id r hr => ?_, by rw [hmanager]; exact hw.states,
    fun id r hr before o' hmem => ?_⟩, ?_, ?_⟩
  · rw [hmanager]
    rcases List.mem_cons.mp hmem with heq | hmem
    · cases heq
    · exact hw.passed r b hmem
  · rw [hmanager] at hr ⊢
    obtain ⟨⟨b, htrack⟩, hnew, hbuy⟩ := hw.tracked id r hr
    rw [(ha.keeps_tracked hr).2.2]
    exact ⟨⟨b, List.mem_cons_of_mem _ htrack⟩, hnew, hbuy⟩
  · rw [hmanager] at hr
    rcases List.mem_cons.mp hmem with heq | hmem
    · cases heq
      exact absurd rfl (ha.keeps_tracked hr).1
    · exact hw.unit id r hr before o' hmem
  · intro hu id r hr
    rw [← (ha.keeps_tracked hr).2.1]
    exact hu id r (by rw [hmanager]; exact hr)
  · intro hu id r hr
    rw [hmanager] at hr
    rw [(ha.keeps_tracked hr).2.1]
    exact hu id r hr

/-- An order of the engine's own, accepted and handed to the manager. -/
theorem Watched.accept_own (hw : Watched s h) (hs : Sound L n B s h) (hid : B ≤ o.id)
    (hunit : o.quantity = 1) (hbuy : o.isBuy = true)
    (hmanager : t.manager = { orders := s.manager.orders.insertIfNew o.id q
                              states := s.manager.states.insertIfNew o.id .new }) :
    Watched t (.track q true :: .addOrder s o (.ok q) :: h) ∧ (Untouched t ↔ Untouched s) := by
  have horders : ∀ id : Int, t.manager.orders[id]? =
      if o.id = id then some q else s.manager.orders[id]? := fun id => by
    rw [hmanager]
    exact getElem?_insertIfNew_new (hs.not_tracked hid) id q
  obtain ⟨hself, hkept, hstates⟩ := insertIfNew_const hw.states o.id
  have hnew : t.manager.states = s.manager.states.insertIfNew o.id .new := by rw [hmanager]
  rw [← hnew] at hself hkept hstates
  have hother : ∀ (id : Int) r, t.manager.orders[id]? = some r →
      (id = o.id ∧ r = q) ∨ s.manager.orders[id]? = some r := by
    intro id r hr
    rw [horders] at hr
    split at hr
    · rename_i heq
      exact Or.inl ⟨heq.symm, (Option.some.inj hr).symm⟩
    · exact Or.inr hr
  have hold : ∀ (id : Int) r, s.manager.orders[id]? = some r →
      t.manager.orders[id]? = some r := by
    intro id r hr
    rw [horders, if_neg (ne_of_not_mem (hs.not_tracked hid) hr), hr]
  refine ⟨⟨fun r b hmem => ?_, fun id r hr => ?_, hstates, fun id r hr before o' hmem => ?_⟩,
    ?_, ?_⟩
  · rcases List.mem_cons.mp hmem with heq | hmem
    · cases heq
      exact ⟨o.id, by rw [horders, if_pos rfl]⟩
    · rcases List.mem_cons.mp hmem with heq | hmem
      · cases heq
      · obtain ⟨id, hr⟩ := hw.passed r b hmem
        exact ⟨id, hold id r hr⟩
  · rcases hother id r hr with ⟨rfl, rfl⟩ | hr
    · exact ⟨⟨true, List.mem_cons_self⟩, hself, o, by rw [ha.order, if_pos rfl], hbuy⟩
    · obtain ⟨⟨b, htrack⟩, hnew, hbuy'⟩ := hw.tracked id r hr
      rw [(ha.keeps_tracked hr).2.2]
      exact ⟨⟨b, List.mem_cons_of_mem _ (List.mem_cons_of_mem _ htrack)⟩, hkept id hnew, hbuy'⟩
  · rcases List.mem_cons.mp hmem with heq | hmem
    · cases heq
    · rcases List.mem_cons.mp hmem with heq | hearlier
      · cases heq
        exact hunit
      · have hin := System.mem_refs_of_indexed _ (hs.accepted before o' r hearlier)
        rcases hother id r hr with ⟨-, hrq⟩ | hr
        · exact absurd (by rw [hrq]) (ha.fresh r hin)
        · exact hw.unit id r hr before o' hearlier
  · intro hu id r hr
    rw [← (ha.keeps_tracked hr).2.1]
    exact hu id r (hold id r hr)
  · intro hu id r hr
    rcases hother id r hr with ⟨rfl, rfl⟩ | hr
    · rw [ha.quantity_self, hunit]
    · rw [(ha.keeps_tracked hr).2.1]
      exact hu id r hr

end Accept

/-- Offering an order touches no tracked order, and an own order starts untouched. -/
theorem Offered.watched {own : Bool} (ho : Offered L o own e e')
    (hs : Sound L n B e.system e.history) (hid : B ≤ o.id)
    (hown : own = true → o.quantity = 1 ∧ o.isBuy = true) (hw : Watched e.system e.history) :
    Watched e'.system e'.history ∧ (Untouched e'.system ↔ Untouched e.system) := by
  cases ho with
  | refused _ _ hsystem hhistory =>
      rw [hsystem, hhistory]
      exact ⟨hw.refuse o, Iff.rfl⟩
  | accepted _ _ ha hmanager hhistory =>
      rw [hhistory]
      cases own with
      | false => exact hw.accept ha hmanager
      | true =>
          obtain ⟨hunit, hbuy⟩ := hown rfl
          exact hw.accept_own ha hs hid hunit hbuy hmanager

/-- Matching touches a tracked order exactly if it is not covered. -/
theorem Watched.run (hw : Watched s h) (hs : Sound L n B s h) (hrun : System.MatchRun L s t)
    (hu : Untouched s) :
    Watched t (.matchOrders s :: h) ∧ (Untouched t ↔ Covered s) := by
  have hmanager := hrun.rest.manager
  refine ⟨⟨fun q b hmem => ?_, fun id q hq => ?_, by rw [hmanager]; exact hw.states,
    fun id q hq before o hmem => ?_⟩, ?_, ?_⟩
  · rw [hmanager]
    rcases List.mem_cons.mp hmem with heq | hmem
    · cases heq
    · exact hw.passed q b hmem
  · obtain ⟨o', ho', -⟩ := hrun.target.tracked id q hq
    obtain ⟨o, ho, heq⟩ := hrun.order ho'
    rw [hmanager] at hq ⊢
    obtain ⟨⟨b, htrack⟩, hnew, o₁, ho₁, hbuy⟩ := hw.tracked id q hq
    rw [ho] at ho₁
    cases ho₁
    exact ⟨⟨b, List.mem_cons_of_mem _ htrack⟩, hnew, o', ho', by rw [heq]; exact hbuy⟩
  · rw [hmanager] at hq
    rcases List.mem_cons.mp hmem with heq | hmem
    · cases heq
    · exact hw.unit id q hq before o hmem
  · intro hu' id q hq k front back hside
    rw [← hrun.spares_iff hs.stocked hside, hu id q hq]
    exact hu' id q (by rw [hmanager]; exact hq)
  · intro hcovered id q hq
    obtain ⟨o', ho', -⟩ := hrun.target.tracked id q hq
    rw [hmanager] at hq
    obtain ⟨-, -, o, ho, hbuy⟩ := hw.tracked id q hq
    rw [← hu id q hq]
    by_cases hrest : q ∈ s.resting
    · obtain ⟨b, k, hmem⟩ := System.mem_resting.mp hrest
      obtain ⟨o₁, ho₁, -, hb, -⟩ := hs.ok.placed b k q hmem
      rw [ho] at ho₁
      cases ho₁
      rw [← hb, hbuy] at hmem
      obtain ⟨front, back, hside⟩ := List.append_of_mem hmem
      exact (hrun.spares_iff hs.stocked hside).mpr (hcovered id q hq k front back hside)
    · have hidle : ∀ r ∈ s.resting, r.ptr ≠ q.ptr := by
        intro r hr hptr
        have hrq := hs.ok.inj r (System.mem_refs_of_resting hr) q
          (System.mem_refs_of_tracked _ hq) hptr
        exact hrest (hrq ▸ hr)
      rw [System.quantity_of_order ho', System.quantity_of_order (hrun.idle hidle ho')]

namespace MatchingEngine

variable {data : MarketData P}

/-- A tick that starts with the tracked orders untouched leaves them so exactly if they
are covered when the book is matched. -/
theorem Tick.watched (ht : Tick L data e e') (he : e.Ok L n) (hw : Watched e.system e.history)
    (hu : Untouched e.system) :
    Watched e'.system e'.history ∧ ∃ q, e.submitQuotes L data = .ok q ∧
      (Untouched e'.system ↔ Covered q.system) := by
  cases ht with
  | @intro b q m hbuy hsell hquotes hrun hid hhistory hown =>
      obtain ⟨hb, hq, hm⟩ := sound_of_quotes he hbuy hsell hrun hid hhistory
      obtain ⟨hwb, hub⟩ :=
        hbuy.watched (B := e.currentId) he.sound (le_refl _) (fun h => by cases h) hw
      obtain ⟨hwq, huq⟩ := hsell.watched hb (le_refl _) (fun h => by cases h) hwb
      obtain ⟨hwm, hum⟩ := hwq.run hq hrun (huq.mpr (hub.mpr hu))
      rw [← hhistory] at hwm
      rcases hown with rfl | ⟨bestBid, -, hown⟩
      · exact ⟨hwm, q, hquotes, hum⟩
      · obtain ⟨hw', hu'⟩ :=
          hown.watched (B := m.currentId) hm (le_refl _) (fun _ => ⟨rfl, rfl⟩) hwm
        exact ⟨hw', q, hquotes, hu'.trans hum⟩

end MatchingEngine

open MatchingEngine

/-- **When the manager's states agree with the book.** Along a run of ticks they do after
every tick exactly if, whenever the book is matched, every tracked order is covered. -/
theorem states_agree_iff [OfNat P 100] {blockSize poolSize : Nat}
    (fits : L.sizeofOrder ≤ blockSize) (hpos : 0 < poolSize) (currentId : Int)
    (ticks : List (MarketData P)) :
    ∃ e, fresh L blockSize poolSize currentId = .ok e ∧
      (Run.Always (processMarketData L) ticks e StatesAgree ↔
        Run.Steps (processMarketData L) ticks e fun data e =>
          ∀ q, e.submitQuotes L data = .ok q → Covered q.system) := by
  obtain ⟨e, hfresh, hok, hhistory, horders, hstates⟩ :=
    fresh_ok (P := P) (L := L) fits hpos currentId
  have hnone : ∀ (id : Int) q, e.system.manager.orders[id]? ≠ some q := by
    intro id q hq
    rw [horders] at hq
    simp at hq
  have hw : Watched e.system e.history :=
    { passed := fun q b hmem => by rw [hhistory] at hmem; cases hmem
      tracked := fun id q hq => absurd hq (hnone id q)
      states := fun id state hstate => by rw [hstates] at hstate; simp at hstate
      unit := fun id q hq => absurd hq (hnone id q) }
  refine ⟨e, hfresh, Run.always_iff_steps
    (I := fun e => e.Ok L poolSize ∧ Watched e.system e.history) ?_ ?_ ⟨hok, hw⟩
    ((hw.statesAgree_iff hok.sound).mpr fun id q hq => absurd hq (hnone id q))⟩
  · rintro data e e' ⟨he, hwe⟩ hagree hcovered hstep
    obtain ⟨e₁, hstep₁, htick⟩ := he.tick data
    have heq : e₁ = e' := Except.ok.inj (hstep₁.symm.trans hstep)
    subst heq
    have hok' := htick.ok he
    obtain ⟨hw', q, hquotes, hiff⟩ :=
      htick.watched he hwe ((hwe.statesAgree_iff he.sound).mp hagree)
    exact ⟨⟨hok', hw'⟩,
      (hw'.statesAgree_iff hok'.sound).mpr (hiff.mpr (hcovered q hquotes))⟩
  · rintro data e ⟨he, hwe⟩ hagree hnot
    obtain ⟨e', hstep, htick⟩ := he.tick data
    obtain ⟨hw', q, hquotes, hiff⟩ :=
      htick.watched he hwe ((hwe.statesAgree_iff he.sound).mp hagree)
    refine ⟨e', hstep, fun hagree' => hnot fun q' hquotes' => ?_⟩
    have heq : q' = q := Except.ok.inj (hquotes'.symm.trans hquotes)
    subst heq
    exact hiff.mp ((hw'.statesAgree_iff (htick.ok he).sound).mp hagree')

theorem states_agree_iff_sample :
    ∃ e, fresh .lp64 56 8 1 = .ok e ∧
      (Run.Always (processMarketData .lp64)
          ([⟨"A", 90, 91⟩, ⟨"A", 80, 90⟩] : List (MarketData Int)) e StatesAgree ↔
        Run.Steps (processMarketData .lp64)
          ([⟨"A", 90, 91⟩, ⟨"A", 80, 90⟩] : List (MarketData Int)) e fun data e =>
          ∀ q, e.submitQuotes .lp64 data = .ok q → Covered q.system) :=
  states_agree_iff (by decide) (by decide) 1 _

/-- The third tick's ask fills both of the engine's own bids; their state is still `New`. -/
theorem filled_order_stays_new :
    ∃ e, runTicks .lp64 56 20 1
        ([⟨"A", 90, 91⟩, ⟨"A", 80, 90⟩, ⟨"A", 80, 85⟩] : List (MarketData Int)) = .ok e ∧
      ¬ StatesAgree e := by
  refine ⟨_, rfl, fun hagree => ?_⟩
  have hthird := hagree ⟨2, 112⟩ true (List.mem_of_getElem? (i := 10) rfl) _
    ⟨3, "A", 90, 1, true⟩ (List.mem_of_getElem? (i := 11) rfl)
  exact absurd (hthird.2.2 (by decide +kernel)).1 (by decide +kernel)

end HftProject.Phase4
