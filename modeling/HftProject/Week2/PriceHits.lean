import HftProject.Lib.EventLog
import HftProject.Lib.Run
import HftProject.Week2.Phase2
import Mathlib.Data.Finset.Insert

/-!
Who is credited with a price. `broadcastPrices` gives out ids and the threads of `handleClient`
credit them, all under `priceMutex`. A credited id has been broadcast and was not credited before,
in any order of the threads (`hits_known`). But what a message asks for is what `atoi` reads of
it, which finds a number in every text: the hits are those that clients asked for exactly if no
message that reads as an open price is anything but the text of its id (`hits_asked_for_iff`).
-/

namespace HftProject.Week2.Phase2

open EventLog Run

/-! ### The code -/

/-- Where a thread of `handleClient` is. -/
inductive Thread where
  | naming
  | receiving (name : Text)
  /-- Before the lock, with the message and what `atoi` has read of it. -/
  | hitting (name : Text) (message : Text) (receivedPriceId : Int)
  | closed
deriving DecidableEq

/-- What has happened under `priceMutex`. The message of a hit is not part of the line that
`handleClient` prints for it. -/
inductive Entry where
  | broadcast (id : Int)
  | hit (client : Nat) (name : Text) (id : Int) (message : Text)
deriving DecidableEq

/-- The globals, without the times, and the threads. -/
structure PriceServer where
  priceId : Int
  priceTimestamps : Finset Int
  priceAlreadyHit : Finset Int
  threads : Nat → Thread
  log : List Entry

inductive Event where
  | broadcast
  | recv (client : Nat) (bytes : Text)
  | lock (client : Nat)
deriving DecidableEq

/-- `atoi` on a number that no `int` holds. -/
inductive Fault where
  | undefined
deriving DecidableEq, Repr

namespace PriceServer

def start : PriceServer := ⟨0, ∅, ∅, fun _ => .naming, []⟩

/-- A round of the loop of `broadcastPrices`; the counter wraps. -/
def broadcastPrices (s : PriceServer) : PriceServer :=
  { s with
    priceId := (s.priceId + 1).bmod (2 ^ 32)
    priceTimestamps := insert s.priceId s.priceTimestamps
    log := s.log ++ [.broadcast s.priceId] }

def goto (client : Nat) (thread : Thread) (s : PriceServer) : PriceServer :=
  { s with threads := Function.update s.threads client thread }

/-- What `recv` returns to the thread of a client; nothing at the end of the connection. -/
def recv (client : Nat) (bytes : Text) (s : PriceServer) : Except Fault PriceServer :=
  match s.threads client with
  | .naming =>
      if bytes = [] then .ok (s.goto client .closed)
      else .ok (s.goto client (.receiving (cString bytes)))
  | .receiving name =>
      if bytes = [] then .ok (s.goto client .closed)
      else
        match atoi (cString bytes) with
        | none => .error .undefined
        | some receivedPriceId => .ok (s.goto client (.hitting name bytes receivedPriceId))
  | .hitting _ _ _ => .ok s
  | .closed => .ok s

/-- The block under `priceMutex`. -/
def lock (client : Nat) (s : PriceServer) : PriceServer :=
  match s.threads client with
  | .hitting name message receivedPriceId =>
      let s := s.goto client (.receiving name)
      if receivedPriceId ∈ s.priceAlreadyHit then s
      else if receivedPriceId ∉ s.priceTimestamps then s
      else
        { s with
          priceAlreadyHit := insert receivedPriceId s.priceAlreadyHit
          log := s.log ++ [.hit client name receivedPriceId message] }
  | _ => s

/-- A thread that is somewhere else stays there. -/
def step (event : Event) (s : PriceServer) : Except Fault PriceServer :=
  match event with
  | .broadcast => .ok s.broadcastPrices
  | .recv client bytes => s.recv client bytes
  | .lock client => .ok (s.lock client)

/-! ### What a hit should be -/

/-- A hit is for a price that has been broadcast and has not been hit. -/
def Known (before : List Entry) : Entry → Prop
  | .broadcast _ => True
  | .hit _ _ id _ => .broadcast id ∈ before ∧ ∀ client name message,
      Entry.hit client name id message ∉ before

/-- The message is the decimal text of the id. -/
def Literal : Entry → Prop
  | .broadcast _ => True
  | .hit _ _ id message => message = putInt id

/-- Every hit was asked for. -/
def HitsAskedFor (s : PriceServer) : Prop :=
  EachAfter (fun before entry => Known before entry ∧ Literal entry) s.log

/-- The message of a client, if it reads as a price that is open, is the text of its id. -/
def Asks (event : Event) (s : PriceServer) : Prop :=
  match event with
  | .broadcast => True
  | .recv client bytes =>
      match s.threads client with
      | .receiving _ => bytes ≠ [] → (atoi (cString bytes)).isSome
      | _ => True
  | .lock client =>
      match s.threads client with
      | .hitting _ message receivedPriceId =>
          receivedPriceId ∈ s.priceTimestamps → receivedPriceId ∉ s.priceAlreadyHit →
            message = putInt receivedPriceId
      | _ => True

/-! ### The sets and the log -/

/-- The sets are those of the log, and the hits in it are known. -/
structure Tracks (s : PriceServer) : Prop where
  stamped : ∀ id, id ∈ s.priceTimestamps ↔ .broadcast id ∈ s.log
  hit : ∀ id, id ∈ s.priceAlreadyHit ↔ ∃ client name message, .hit client name id message ∈ s.log
  known : EachAfter Known s.log

/-- What one event does: it leaves globals and log alone, broadcasts, or credits an open price
to the message a thread holds. -/
inductive Effect (event : Event) (s s' : PriceServer) : Prop where
  | quiet : s'.priceTimestamps = s.priceTimestamps → s'.priceAlreadyHit = s.priceAlreadyHit →
      s'.log = s.log → (∀ client name message id, event = .lock client →
        s.threads client = .hitting name message id → id ∈ s.priceTimestamps →
        id ∈ s.priceAlreadyHit) → Effect event s s'
  | stamp : event = .broadcast → s'.priceTimestamps = insert s.priceId s.priceTimestamps →
      s'.priceAlreadyHit = s.priceAlreadyHit → s'.log = s.log ++ [.broadcast s.priceId] →
      Effect event s s'
  | credit {client : Nat} {name message : Text} {id : Int} : event = .lock client →
      s.threads client = .hitting name message id → id ∈ s.priceTimestamps →
      id ∉ s.priceAlreadyHit → s'.priceTimestamps = s.priceTimestamps →
      s'.priceAlreadyHit = insert id s.priceAlreadyHit →
      s'.log = s.log ++ [.hit client name id message] → Effect event s s'

variable {event : Event} {s s' : PriceServer}

theorem recv_effect {client : Nat} {bytes : Text} (h : s.recv client bytes = .ok s') :
    Effect (.recv client bytes) s s' := by
  have hquiet : s'.priceTimestamps = s.priceTimestamps ∧ s'.priceAlreadyHit = s.priceAlreadyHit ∧
      s'.log = s.log := by
    rw [recv] at h
    split at h
    · split at h <;> cases h <;> exact ⟨rfl, rfl, rfl⟩
    · split at h
      · cases h
        exact ⟨rfl, rfl, rfl⟩
      · split at h <;> cases h
        exact ⟨rfl, rfl, rfl⟩
    · cases h
      exact ⟨rfl, rfl, rfl⟩
    · cases h
      exact ⟨rfl, rfl, rfl⟩
  exact .quiet hquiet.1 hquiet.2.1 hquiet.2.2 fun _ _ _ _ hevent => by cases hevent

theorem lock_effect (client : Nat) : Effect (.lock client) s (s.lock client) := by
  rw [lock]
  cases hthread : s.threads client with
  | hitting name message id =>
      dsimp only
      split_ifs with hhit hknown
      · refine .quiet rfl rfl rfl ?_
        rintro client' name' message' id' ⟨⟩ hthread' -
        obtain ⟨-, -, rfl⟩ := Thread.hitting.inj (hthread.symm.trans hthread')
        exact hhit
      · exact .credit rfl hthread hknown hhit rfl rfl rfl
      · refine .quiet rfl rfl rfl ?_
        rintro client' name' message' id' ⟨⟩ hthread' hstamped
        obtain ⟨-, -, rfl⟩ := Thread.hitting.inj (hthread.symm.trans hthread')
        exact absurd hstamped hknown
  | naming => exact .quiet rfl rfl rfl (by rintro _ _ _ _ ⟨⟩ h; rw [hthread] at h; cases h)
  | receiving name => exact .quiet rfl rfl rfl (by rintro _ _ _ _ ⟨⟩ h; rw [hthread] at h; cases h)
  | closed => exact .quiet rfl rfl rfl (by rintro _ _ _ _ ⟨⟩ h; rw [hthread] at h; cases h)

theorem step_effect (h : step event s = .ok s') : Effect event s s' := by
  cases event with
  | broadcast =>
      cases h
      exact .stamp rfl rfl rfl rfl
  | recv client bytes => exact recv_effect h
  | lock client =>
      cases h
      exact lock_effect client

theorem Tracks.effect (h : s.Tracks) (heffect : Effect event s s') : s'.Tracks := by
  cases heffect with
  | quiet hstamped hhit hlog _ =>
      refine ⟨fun id => ?_, fun id => ?_, ?_⟩
      · rw [hstamped, hlog, h.stamped]
      · rw [hhit, hlog, h.hit]
      · rw [hlog]
        exact h.known
  | stamp _ hstamped hhit hlog =>
      refine ⟨fun id => ?_, fun id => ?_, ?_⟩
      · rw [hstamped, hlog, Finset.mem_insert, h.stamped]
        simp [or_comm]
      · rw [hhit, hlog, h.hit]
        simp
      · rw [hlog]
        exact eachAfter_snoc.mpr ⟨h.known, trivial⟩
  | @credit client name message id _ _ hopen hnew hstamped hhit hlog =>
      refine ⟨fun id' => ?_, fun id' => ?_, ?_⟩
      · rw [hstamped, hlog, h.stamped]
        simp
      · rw [hhit, hlog, Finset.mem_insert, h.hit]
        simp only [List.mem_append, List.mem_singleton, Entry.hit.injEq]
        constructor
        · rintro (rfl | ⟨c, n, m, hmem⟩)
          · exact ⟨client, name, message, .inr ⟨rfl, rfl, rfl, rfl⟩⟩
          · exact ⟨c, n, m, .inl hmem⟩
        · rintro ⟨c, n, m, hmem | ⟨-, -, hid, -⟩⟩
          · exact .inr ⟨c, n, m, hmem⟩
          · exact .inl hid
      · rw [hlog]
        refine eachAfter_snoc.mpr ⟨h.known, (h.stamped id).mp hopen, fun c n m hmem => ?_⟩
        exact hnew ((h.hit id).mpr ⟨c, n, m, hmem⟩)

theorem start_tracks : start.Tracks :=
  ⟨by simp [start], by simp [start], eachAfter_nil⟩

/-- In any order of events a hit is for a price that has been broadcast and has not been hit. -/
theorem hits_known (events : List Event) :
    Always step events start fun s => EachAfter Known s.log := by
  intro pre _ t ht
  exact (run_invariant (fun _ _ _ h hstep => h.effect (step_effect hstep)) start_tracks ht).known

/-! ### Hits that were asked for -/

theorem Effect.asked (h : Effect event s s') (hasked : s.HitsAskedFor) (htracks : s'.Tracks)
    (hasks : Asks event s) : s'.HitsAskedFor := by
  cases h with
  | quiet _ _ hlog _ => rwa [HitsAskedFor, hlog]
  | stamp _ _ _ hlog =>
      rw [HitsAskedFor, hlog]
      exact eachAfter_snoc.mpr ⟨hasked, trivial, trivial⟩
  | credit hevent hthread hopen hnew _ _ hlog =>
      have hknown := htracks.known
      rw [hlog, eachAfter_snoc] at hknown
      rw [HitsAskedFor, hlog]
      refine eachAfter_snoc.mpr ⟨hasked, hknown.2, ?_⟩
      subst hevent
      simp only [Asks, hthread] at hasks
      exact hasks hopen hnew

/-- Nothing is defined where `atoi` reads a number that no `int` holds. -/
def Defined (event : Event) (s : PriceServer) : Prop := ∃ s', step event s = .ok s'

theorem recv_defined {client : Nat} {bytes : Text} :
    Defined (.recv client bytes) s ↔ Asks (.recv client bytes) s := by
  rw [Defined, step, recv, Asks]
  cases s.threads client with
  | naming => by_cases hbytes : bytes = [] <;> simp [hbytes]
  | receiving name =>
      by_cases hbytes : bytes = []
      · simp [hbytes]
      · cases atoi (cString bytes) <;> simp [hbytes]
  | hitting _ _ _ => simp
  | closed => simp

/-- An event that is not as it should be but defined credits a message that is not the text of
the id. -/
theorem not_asked {s : PriceServer} (hnot : ¬ Asks event s) (hdefined : Defined event s) :
    ∃ s', step event s = .ok s' ∧ ¬ s'.HitsAskedFor := by
  obtain ⟨s', hstep⟩ := hdefined
  refine ⟨s', hstep, ?_⟩
  cases event with
  | broadcast => exact absurd trivial hnot
  | recv client bytes => exact absurd (recv_defined.mp ⟨s', hstep⟩) hnot
  | lock client =>
      cases hthread : s.threads client with
      | hitting name message id =>
          simp only [Asks, hthread] at hnot
          push Not at hnot
          obtain ⟨hopen, hnew, hmessage⟩ := hnot
          cases step_effect hstep with
          | quiet _ _ _ hquiet =>
              exact absurd (hquiet client name message id rfl hthread hopen) hnew
          | stamp hevent => cases hevent
          | credit hevent hthread' _ _ _ _ hlog =>
              cases hevent
              obtain ⟨-, rfl, rfl⟩ := Thread.hitting.inj (hthread.symm.trans hthread')
              rw [HitsAskedFor, hlog, eachAfter_snoc]
              exact fun hall => hmessage hall.2.2
      | naming => simp [Asks, hthread] at hnot
      | receiving _ => simp [Asks, hthread] at hnot
      | closed => simp [Asks, hthread] at hnot

/-- Every order of events is defined and credits prices only to messages that ask for them
exactly if every message that reads as an open price is the text of its id. -/
theorem hits_asked_for_iff (events : List Event) :
    ((∃ t, run step events start = .ok t) ∧ Always step events start HitsAskedFor) ↔
      Steps step events start Asks := by
  constructor
  · rintro ⟨hrun, hall⟩ pre event hpre s hs
    have hdefined : Defined event s := run_ok_iff_steps.mp hrun pre event hpre s hs
    by_contra hnot
    obtain ⟨s', hstep, hbad⟩ := not_asked hnot hdefined
    have hnext : run step (pre ++ [event]) start = .ok s' :=
      run_append.mpr ⟨s, hs, by rw [run_cons_ok hstep]; rfl⟩
    exact hbad (hall (pre ++ [event]) hpre s' hnext)
  · intro hasks
    constructor
    · refine run_ok_iff_steps.mpr fun pre event hpre s hs => ?_
      have hcond := hasks pre event hpre s hs
      cases event with
      | broadcast => exact ⟨_, rfl⟩
      | recv client bytes => exact recv_defined.mpr hcond
      | lock client => exact ⟨_, rfl⟩
    · have hkept := always_of_steps (I := fun s => s.Tracks ∧ s.HitsAskedFor)
        (fun event s s' h hcond hstep => by
          have heffect := step_effect hstep
          have htracks := h.1.effect heffect
          exact ⟨htracks, heffect.asked h.2 htracks hcond⟩)
        ⟨start_tracks, eachAfter_nil⟩ hasks
      exact hkept.mono fun t h => h.2

/-- A message without a number is a hit for price 0. -/
theorem price_zero_for_any_text :
    ∃ t, run step [.recv 0 ['A'], .broadcast, .recv 0 ['x'], .lock 0] start = .ok t ∧
      t.log = [.broadcast 0, .hit 0 ['A'] 0 ['x']] ∧ ¬ t.HitsAskedFor := by
  refine ⟨_, rfl, rfl, fun hasked => ?_⟩
  have hliteral : ['x'] = putInt 0 := (hasked [.broadcast 0] (.hit 0 ['A'] 0 ['x']) [] rfl).2
  exact absurd hliteral (by decide)

end PriceServer

end HftProject.Week2.Phase2
