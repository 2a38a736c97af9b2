import HftProject.Phase4.Index
import HftProject.Phase4.Ticks
import Mathlib.Data.Rat.Defs
import Mathlib.Algebra.Order.Ring.Rat

/-!
The program of `week_4/phase_4`: a `MarketDataFeed` draws ticks on a thread of its own and hands
them to the engine, while `main` starts and stops it. Prices are exact rationals, and the draws of
the random generator are chosen by the environment.

Every tick that is handed on is well formed, and the engine is that of a run of these ticks. The
engine never takes an order out of `ordersById`, so each tick uses up two blocks of the pool at
least; once half as many ticks have come as the pool has blocks, no tick changes the book any more
(`simulation_freezes`).
-/

namespace HftProject.Phase4

open Clearing

variable {L : Layout} {n : Nat}

/-! ### The engine on a pool that is used up -/

section Exhausted

variable {P : Type} [LinearOrder P] {B : Int} {e e' : MatchingEngine P} {o : Order P Int}
  {own : Bool} {data : MarketData P}

omit [LinearOrder P] in
theorem Call.offers_addOrder (before : System P Int) (o : Order P Int)
    (result : Except (AddError Int) OrderPtr) (h : List (Call P)) :
    Call.offers (.addOrder before o result :: h) = Call.offers h + 1 :=
  List.countP_cons_of_pos rfl

omit [LinearOrder P] in
theorem Call.offers_matchOrders (before : System P Int) (h : List (Call P)) :
    Call.offers (.matchOrders before :: h) = Call.offers h := List.countP_cons_of_neg nofun

theorem Offered.offers (h : Offered L o own e e') :
    Call.offers e'.history = Call.offers e.history + 1 := by
  cases h with
  | refused _ _ _ hhistory => rw [hhistory, Call.offers_addOrder]
  | @accepted q _ _ _ _ hhistory =>
      rw [hhistory]
      cases own with
      | false => exact Call.offers_addOrder _ _ _ _
      | true =>
          have htrack : Call.offers (.track q true ::
              .addOrder e.system o (.ok q) :: e.history) =
                Call.offers (.addOrder e.system o (.ok q) :: e.history) :=
            List.countP_cons_of_neg nofun
          exact htrack.trans (Call.offers_addOrder _ _ _ _)

/-- With no block left the order is refused. -/
theorem Offered.frozen (h : Offered L o own e e') (hs : Sound L n B e.system e.history)
    (hfull : n ≤ Call.offers e.history) : e'.system = e.system := by
  cases h with
  | refused _ _ hsystem _ => exact hsystem
  | accepted _ hfree _ _ _ =>
      obtain ⟨a, rest, hpool⟩ := hfree
      have hcount := hs.free_length hpool
      rw [hs.size, Nat.min_eq_right hfull, List.length_cons] at hcount
      omega

namespace MatchingEngine

theorem Tick.offers (h : Tick L data e e') :
    Call.offers e.history + 2 ≤ Call.offers e'.history := by
  cases h with
  | @intro b q m hbuy hsell _ _ _ hhistory hown =>
      have hbuys : Call.offers b.history = Call.offers e.history + 1 := hbuy.offers
      have hsells := hsell.offers
      have hmatch : Call.offers m.history = Call.offers q.history := by
        rw [hhistory, Call.offers_matchOrders]
      rcases hown with rfl | ⟨_, _, hown⟩
      · omega
      · have howns : Call.offers e'.history = Call.offers m.history + 1 := hown.offers
        omega

theorem Tick.frozen (h : Tick L data e e') (he : e.Ok L n)
    (hfull : n ≤ Call.offers e.history) : e'.system = e.system := by
  cases h with
  | @intro b q m hbuy hsell hquotes hrun hid hhistory hown =>
      obtain ⟨hb, -, hm⟩ := sound_of_quotes he hbuy hsell hrun hid hhistory
      have hbuys : Call.offers b.history = Call.offers e.history + 1 := hbuy.offers
      have hsells := hsell.offers
      have hbook : b.system = e.system := hbuy.frozen (B := e.currentId) he.sound hfull
      have hquote : q.system = e.system := (hsell.frozen hb (by omega)).trans hbook
      have hmatch : m.system = e.system := by
        rw [← hquote]
        exact hrun.eq_of_uncrossed (by rw [hquote]; exact he.uncrossed)
      rcases hown with rfl | ⟨_, _, hown⟩
      · exact hmatch
      · have hless : n ≤ Call.offers m.history := by
          rw [hhistory, Call.offers_matchOrders]
          omega
        exact (hown.frozen (B := m.currentId) hm hless).trans hmatch

end MatchingEngine

end Exhausted

/-! ### The feed and the program -/

/-- Where the thread of the simulation is. -/
inductive FeedThread where
  /-- At `while (m_running)`. -/
  | loop
  /-- Before it draws a tick. -/
  | generating
  | ended
deriving DecidableEq, Repr

/-- `MarketDataFeed`. `simulationThread` is `none` while the thread is not joinable. -/
structure MarketDataFeed where
  symbols : List String
  currentPrices : String → ℚ × ℚ
  running : Bool
  simulationThread : Option FeedThread

namespace MarketDataFeed

/-- The starting prices of the symbols, ten apart. -/
def startPrices : List String → ℚ → (String → ℚ × ℚ) → String → ℚ × ℚ
  | [], _, prices => prices
  | sym :: symbols, startPrice, prices =>
      startPrices symbols (startPrice + 10)
        (Function.update prices sym (startPrice, startPrice + 1 / 10))

/-- The constructor. -/
def new (symbols : List String) : MarketDataFeed :=
  ⟨symbols, startPrices symbols 100 fun _ => (0, 0), false, none⟩

/-- The prices after a draw. -/
def drift (bidChange askChange : ℚ) (prices : ℚ × ℚ) : ℚ × ℚ :=
  let bid := max (1 / 100) (prices.1 + bidChange)
  (bid, max (bid + 1 / 100) (prices.2 + askChange))

end MarketDataFeed

/-- The feed, and whether `main` waits in `stop` for its thread. `ticks` are those that the
callback was given. -/
structure Simulation where
  feed : MarketDataFeed
  joining : Bool
  engine : MatchingEngine ℚ
  ticks : List (MarketData ℚ)

namespace Simulation

/-- What `main` calls next, and the next step of the simulation thread with its draws. -/
inductive Action where
  | start
  | stop
  | join
  | simulate (index : Nat) (bidChange askChange : ℚ)

inductive Fault where
  | notReady
  /-- `std::terminate`: a thread is assigned to a joinable one. -/
  | terminate
  /-- Undefined behaviour. -/
  | undefined
  | engine (fault : Phase4.Fault)
deriving DecidableEq, Repr

def start (s : Simulation) : Except Fault Simulation :=
  if s.joining then .error .notReady
  else if s.feed.running then .ok s
  else if s.feed.simulationThread.isSome then .error .terminate
  else .ok { s with feed := { s.feed with running := true, simulationThread := some .loop } }

/-- `stop`, up to the `join` if there is a thread to be joined. -/
def stop (s : Simulation) : Except Fault Simulation :=
  if s.joining then .error .notReady
  else
    .ok { s with
      feed := { s.feed with running := false }
      joining := s.feed.simulationThread.isSome }

/-- The `join` returns. -/
def join (s : Simulation) : Except Fault Simulation :=
  if s.joining ∧ s.feed.simulationThread = some .ended then
    .ok { s with feed := { s.feed with simulationThread := none }, joining := false }
  else .error .notReady

/-- The tick goes to `handleTick`. -/
def callback (L : Layout) (tick : MarketData ℚ) (s : Simulation) : Except Fault Simulation :=
  match s.engine.processMarketData L tick with
  | .error fault => .error (.engine fault)
  | .ok engine => .ok { s with engine := engine, ticks := s.ticks ++ [tick] }

/-- A step of `runSimulation`. -/
def simulate (L : Layout) (index : Nat) (bidChange askChange : ℚ) (s : Simulation) :
    Except Fault Simulation :=
  match s.feed.simulationThread with
  | some .loop =>
      let next := if s.feed.running then FeedThread.generating else .ended
      .ok { s with feed := { s.feed with simulationThread := some next } }
  | some .generating =>
      match s.feed.symbols[index]? with
      | some symbol =>
          let prices := MarketDataFeed.drift bidChange askChange (s.feed.currentPrices symbol)
          callback L ⟨symbol, prices.1, prices.2⟩ { s with
            feed := { s.feed with
              currentPrices := Function.update s.feed.currentPrices symbol prices
              simulationThread := some .loop } }
      -- without symbols the largest index that is drawn is `0 - 1`
      | none => if s.feed.symbols = [] then .error .undefined else .error .notReady
  | _ => .error .notReady

def step (L : Layout) (action : Action) (s : Simulation) : Except Fault Simulation :=
  match action with
  | .start => s.start
  | .stop => s.stop
  | .join => s.join
  | .simulate index bidChange askChange => s.simulate L index bidChange askChange

/-- The feed and the engine on a fresh book. -/
def launch (L : Layout) (blockSize poolSize : Nat) (currentId : Int) (symbols : List String) :
    Except Fault Simulation :=
  match MatchingEngine.fresh L blockSize poolSize currentId with
  | .error fault => .error (.engine fault)
  | .ok engine => .ok ⟨.new symbols, false, engine, []⟩

/-- A run of the program. -/
def run (L : Layout) (blockSize poolSize : Nat) (currentId : Int) (symbols : List String)
    (actions : List Action) : Except Fault Simulation := do
  let s ← launch L blockSize poolSize currentId symbols
  Run.run (step L) actions s

/-! ### What holds in a run -/

/-- The bid is at least a cent, and the ask a cent above it. -/
def WellFormed (tick : MarketData ℚ) : Prop :=
  1 / 100 ≤ tick.bidPrice ∧ tick.bidPrice + 1 / 100 ≤ tick.askPrice

theorem drift_wellFormed (symbol : String) (bidChange askChange : ℚ) (prices : ℚ × ℚ) :
    WellFormed ⟨symbol, (MarketDataFeed.drift bidChange askChange prices).1,
      (MarketDataFeed.drift bidChange askChange prices).2⟩ :=
  ⟨le_max_left _ _, le_max_left _ _⟩

/-- The engine has seen the ticks, and `main` waits only for a thread that has been told to stop. -/
structure Inv (L : Layout) (blockSize poolSize : Nat) (currentId : Int) (s : Simulation) :
    Prop where
  symbols : s.feed.symbols ≠ []
  thread : s.joining = false → s.feed.running = s.feed.simulationThread.isSome
  joining : s.joining = true → s.feed.running = false
  wellFormed : ∀ tick ∈ s.ticks, WellFormed tick
  engine : s.engine.Ok L poolSize
  ticks : MatchingEngine.runTicks L blockSize poolSize currentId s.ticks = .ok s.engine
  offers : 2 * s.ticks.length ≤ Call.offers s.engine.history

namespace Inv

variable {blockSize poolSize : Nat} {currentId : Int} {s s' : Simulation}

theorem callback (h : s.Inv L blockSize poolSize currentId) {tick : MarketData ℚ}
    (htick : WellFormed tick) : ∃ engine, s.callback L tick =
        .ok { s with engine := engine, ticks := s.ticks ++ [tick] } ∧
      MatchingEngine.Tick L tick s.engine engine ∧
      Inv L blockSize poolSize currentId
        { s with engine := engine, ticks := s.ticks ++ [tick] } := by
  obtain ⟨engine, hprocess, hengine⟩ := h.engine.tick tick
  refine ⟨engine, ?_, hengine, ?_⟩
  · rw [Simulation.callback, hprocess]
  · refine ⟨h.symbols, h.thread, h.joining, fun other hother => ?_, hengine.ok h.engine, ?_, ?_⟩
    · rcases List.mem_append.mp hother with hold | hnew
      · exact h.wellFormed other hold
      · rw [List.mem_singleton.mp hnew]
        exact htick
    · obtain ⟨e, hfresh, hrun⟩ := Run.except_bind_inv h.ticks
      rw [MatchingEngine.runTicks, hfresh]
      exact Run.run_append.mpr ⟨s.engine, hrun, by rw [Run.run_cons_ok hprocess]; rfl⟩
    · have hoffers := h.offers
      have hmore := hengine.offers
      change 2 * (s.ticks ++ [tick]).length ≤ Call.offers engine.history
      rw [List.length_append, List.length_singleton]
      omega

/-- The step keeps the invariant, and on a pool that is used up also the book. -/
structure Goes (L : Layout) (blockSize poolSize : Nat) (currentId : Int) (s s' : Simulation) :
    Prop where
  inv : s'.Inv L blockSize poolSize currentId
  offers : Call.offers s.engine.history ≤ Call.offers s'.engine.history
  frozen : poolSize ≤ Call.offers s.engine.history → s'.engine.system = s.engine.system

theorem simulate (h : s.Inv L blockSize poolSize currentId) (index : Nat)
    (bidChange askChange : ℚ) :
    s.simulate L index bidChange askChange = .error .notReady ∨
      ∃ s', s.simulate L index bidChange askChange = .ok s' ∧
        Goes L blockSize poolSize currentId s s' := by
  have hthread := h.thread
  unfold Simulation.simulate
  cases hplace : s.feed.simulationThread with
  | none => exact .inl rfl
  | some place =>
      rw [hplace] at hthread
      cases place with
      | loop =>
          exact .inr ⟨_, rfl, { h with thread := hthread }, Nat.le_refl _, fun _ => rfl⟩
      | ended => exact .inl rfl
      | generating =>
          cases hsymbol : s.feed.symbols[index]? with
          | none =>
              left
              simp [h.symbols]
          | some symbol =>
              right
              have hmoved : Inv L blockSize poolSize currentId { s with
                  feed := { s.feed with
                    currentPrices := Function.update s.feed.currentPrices symbol
                      (MarketDataFeed.drift bidChange askChange (s.feed.currentPrices symbol))
                    simulationThread := some .loop } } := { h with thread := hthread }
              obtain ⟨engine, hcallback, htick, hinv⟩ :=
                hmoved.callback (drift_wellFormed symbol bidChange askChange _)
              have hmore : Call.offers s.engine.history + 2 ≤ Call.offers engine.history :=
                htick.offers
              exact ⟨_, hcallback, hinv, by change _ ≤ Call.offers engine.history; omega,
                fun hfull => htick.frozen h.engine hfull⟩

/-- A step does nothing wrong. -/
theorem step (h : s.Inv L blockSize poolSize currentId) (action : Action) :
    s.step L action = .error .notReady ∨
      ∃ s', s.step L action = .ok s' ∧ Goes L blockSize poolSize currentId s s' := by
  cases action with
  | start =>
      change s.start = _ ∨ ∃ s', s.start = _ ∧ _
      unfold Simulation.start
      cases hjoining : s.joining with
      | true => exact .inl rfl
      | false =>
          have hthread := h.thread hjoining
          cases hrunning : s.feed.running with
          | true => exact .inr ⟨s, rfl, h, Nat.le_refl _, fun _ => rfl⟩
          | false =>
              rw [hrunning] at hthread
              rw [← hthread]
              exact .inr ⟨_, rfl, { h with thread := fun _ => rfl, joining := nofun },
                Nat.le_refl _, fun _ => rfl⟩
  | stop =>
      change s.stop = _ ∨ ∃ s', s.stop = _ ∧ _
      unfold Simulation.stop
      cases hjoining : s.joining with
      | true => exact .inl rfl
      | false =>
          exact .inr ⟨_, rfl, { h with thread := fun hnone => hnone.symm, joining := fun _ => rfl },
            Nat.le_refl _, fun _ => rfl⟩
  | join =>
      change s.join = _ ∨ ∃ s', s.join = _ ∧ _
      unfold Simulation.join
      split
      · rename_i hended
        exact .inr ⟨_, rfl, { h with thread := fun _ => h.joining hended.1, joining := nofun },
          Nat.le_refl _, fun _ => rfl⟩
      · exact .inl rfl
  | simulate index bidChange askChange => exact h.simulate index bidChange askChange

theorem step_ok (h : s.Inv L blockSize poolSize currentId) {action : Action}
    (hstep : s.step L action = .ok s') : Goes L blockSize poolSize currentId s s' := by
  rcases h.step action with hnone | ⟨t, ht, hgoes⟩
  · rw [hnone] at hstep
    cases hstep
  · rw [ht] at hstep
    cases hstep
    exact hgoes

end Inv

variable {blockSize poolSize : Nat}

theorem launch_inv (fits : L.sizeofOrder ≤ blockSize) (hpos : 0 < poolSize) (currentId : Int)
    {symbols : List String} (hsymbols : symbols ≠ []) :
    ∃ s, launch L blockSize poolSize currentId symbols = .ok s ∧
      s.Inv L blockSize poolSize currentId := by
  obtain ⟨e, hfresh, hok, -⟩ := MatchingEngine.fresh_ok (P := ℚ) (L := L) fits hpos currentId
  refine ⟨⟨.new symbols, false, e, []⟩, by rw [launch, hfresh], hsymbols, fun _ => rfl, nofun,
    nofun, hok, ?_, Nat.zero_le _⟩
  rw [MatchingEngine.runTicks, hfresh]
  rfl

/-- In a run of the program no step assigns to a joinable thread or is undefined, and after `stop`
no tick comes. The ticks that came are well formed, the engine is that of a run of these ticks, and
once there are half as many as the pool has blocks the book never changes again. -/
theorem simulation_freezes (fits : L.sizeofOrder ≤ blockSize) (hpos : 0 < poolSize)
    (currentId : Int) {symbols : List String} (hsymbols : symbols ≠ []) (actions : List Action)
    {s : Simulation} (hrun : run L blockSize poolSize currentId symbols actions = .ok s) :
    (∀ action fault, s.step L action = .error fault → fault = .notReady) ∧
      (s.joining = false → s.feed.running = false → ∀ index bidChange askChange,
        s.simulate L index bidChange askChange = .error .notReady) ∧
      (∀ tick ∈ s.ticks, WellFormed tick) ∧
      MatchingEngine.runTicks L blockSize poolSize currentId s.ticks = .ok s.engine ∧
      s.engine.RunInvariant ∧
      (poolSize ≤ 2 * s.ticks.length → ∀ more s', Run.run (step L) more s = .ok s' →
        s'.engine.system = s.engine.system) := by
  obtain ⟨s₀, hlaunch, hinv⟩ := launch_inv fits hpos currentId hsymbols
  obtain ⟨t, ht, hrest⟩ := Run.except_bind_inv hrun
  obtain rfl : s₀ = t := Except.ok.inj (hlaunch.symm.trans ht)
  have h : s.Inv L blockSize poolSize currentId :=
    Run.run_invariant (fun _ _ _ h hstep => (h.step_ok hstep).inv) hinv hrest
  refine ⟨fun action fault hfault => ?_, fun hwaits hstopped index bidChange askChange => ?_,
    h.wellFormed, h.ticks, h.engine.runInvariant, fun hfull more s' hmore => ?_⟩
  · rcases h.step action with hnone | ⟨t, ht, -⟩
    · exact Except.error.inj (hfault.symm.trans hnone)
    · rw [ht] at hfault
      cases hfault
  · have hthread := h.thread hwaits
    rw [hstopped] at hthread
    cases hplace : s.feed.simulationThread with
    | none => rw [Simulation.simulate, hplace]
    | some place =>
        rw [hplace] at hthread
        cases hthread
  · have hkept : s'.Inv L blockSize poolSize currentId ∧
        poolSize ≤ Call.offers s'.engine.history ∧ s'.engine.system = s.engine.system := by
      refine Run.run_invariant (I := fun t => t.Inv L blockSize poolSize currentId ∧
        poolSize ≤ Call.offers t.engine.history ∧ t.engine.system = s.engine.system)
        (fun _ _ _ ⟨hinv, hused, hsame⟩ hstep => ?_) ⟨h, hfull.trans h.offers, rfl⟩ hmore
      have hgoes := hinv.step_ok hstep
      exact ⟨hgoes.inv, hused.trans hgoes.offers, (hgoes.frozen hused).trans hsame⟩
    exact hkept.2.2

/-- Two ticks use up a pool of four blocks. -/
def twoTicks : List Action :=
  [.start, .start, .simulate 0 0 0, .simulate 0 (1 / 20) (-1 / 20), .simulate 0 0 0,
    .simulate 0 (-1 / 20) (1 / 25), .stop]

theorem simulation_freezes_sample : ∃ s, run .lp64 56 4 1 ["PRIV"] twoTicks = .ok s ∧
    s.ticks.map (·.bidPrice) = [2001 / 20, 100] ∧
      ∀ more s', Run.run (step .lp64) more s = .ok s' → s'.engine.system = s.engine.system := by
  have hticks : (run .lp64 56 4 1 ["PRIV"] twoTicks).map (fun s => s.ticks.map (·.bidPrice)) =
      .ok [2001 / 20, 100] := by
    decide +kernel
  obtain ⟨s, hrun, hbids⟩ := Run.except_map_inv hticks
  have hlength : s.ticks.length = 2 := by
    rw [← List.length_map (·.bidPrice), hbids]
    rfl
  refine ⟨s, hrun, hbids, ?_⟩
  exact (simulation_freezes (by decide) (by decide) 1 (List.cons_ne_nil _ _) twoTicks
    hrun).2.2.2.2.2 (by omega)

end Simulation

end HftProject.Phase4
