import HftProject.Week7.QueueInvariant

/-!
`size` of `ConcurrentQueue` while other threads push and pop. It loads one counter, then the
other, and any number of steps may lie between: `week_7` loads `head` first, so that `tail` may
have run ahead of it by more than the capacity; the challenge client loads `tail` first and takes
what `head` is beyond it from the capacity, in `size_t`.

What is returned is at most the capacity exactly if few enough tickets are claimed between the
loads (`sizes_le_capacity_iff`). The counters are unbounded, and below `2 ^ 64` where that is said.
-/

namespace HftProject.Week7

/-- The two definitions of `size`. -/
inductive Version where
  | week7
  | challenge
deriving DecidableEq, Repr

namespace ConcurrentQueue

variable {T : Type} {C : Nat}

/-- The counter that `size` loads first. -/
def firstLoad (q : ConcurrentQueue T C) : Version → Nat
  | .week7 => q.head
  | .challenge => q.tail

/-- The other load, and what `size` returns. -/
def secondLoad (q : ConcurrentQueue T C) (first : Nat) : Version → Nat
  | .week7 => (q.tail + 2 ^ 64 - first) % 2 ^ 64
  | .challenge =>
      if q.head ≤ first then first - q.head else (C + 2 ^ 64 - (q.head - first)) % 2 ^ 64

/-- If nothing happens between the loads. -/
theorem secondLoad_firstLoad (q : ConcurrentQueue T C) :
    q.secondLoad (q.firstLoad .week7) .week7 = q.size ∧
      q.secondLoad (q.firstLoad .challenge) .challenge = q.clientSize := ⟨rfl, rfl⟩

end ConcurrentQueue

/-- Where the thread that calls `size` is, again and again. `mark` is how long the log was at the
first load. -/
inductive Reader where
  | idle
  | loaded (first mark : Nat)
  | returned (value : Nat)
deriving DecidableEq, Repr

structure Observed (Thread T : Type) (C : Nat) where
  system : System Thread T C
  reader : Reader

inductive Observing (Thread T : Type) where
  | other (action : Action Thread T)
  /-- A load of the thread that calls `size`. -/
  | load
deriving DecidableEq, Repr

namespace Observed

variable {Thread T : Type} {C : Nat}

def new [Inhabited T] : Observed Thread T C := ⟨.new, .idle⟩

def load (version : Version) (s : Observed Thread T C) : Observed Thread T C :=
  match s.reader with
  | .loaded first _ =>
      { s with reader := .returned (s.system.queue.secondLoad first version) }
  | _ => { s with reader := .loaded (s.system.queue.firstLoad version) s.system.log.length }

def step [DecidableEq Thread] [NeZero C] (version : Version) (action : Observing Thread T)
    (s : Observed Thread T C) : Except Fault (Observed Thread T C) :=
  match action with
  | .other action => do
      let system ← s.system.step .unbounded action
      return { s with system := system }
  | .load => .ok (s.load version)

end Observed

variable {Thread T : Type} {C : Nat}

/-! ### Counting claims -/

def pushClaims (log : List (Thread × Event T)) : Nat := (pushTickets log).length

def popClaims (log : List (Thread × Event T)) : Nat := (popTickets log).length

/-- How many tickets are claimed for a push and not for a pop. -/
def occupancy (log : List (Thread × Event T)) : Nat := pushClaims log - popClaims log

/-- Few enough claims lie between the two loads: of pushes for the room that was left at the first
load, or of pops for what the queue held and its capacity. -/
def FewBetween (C : Nat) (version : Version) (before between : List (Thread × Event T)) : Prop :=
  match version with
  | .week7 => occupancy before + pushClaims between ≤ C
  | .challenge => popClaims between ≤ occupancy before + C

/-- The condition on a step: it concerns the second of the loads. -/
def FewClaims (version : Version) (action : Observing Thread T) (s : Observed Thread T C) : Prop :=
  match action with
  | .other _ => True
  | .load => ∀ first mark, s.reader = .loaded first mark →
      FewBetween C version (s.system.log.take mark) (s.system.log.drop mark)

/-- What `size` has returned is at most the capacity. -/
def SizeFits (s : Observed Thread T C) : Prop := ∀ value, s.reader = .returned value → value ≤ C

theorem pushClaims_split (log : List (Thread × Event T)) (mark : Nat) :
    pushClaims log = pushClaims (log.take mark) + pushClaims (log.drop mark) := by
  rw [pushClaims, pushClaims, pushClaims, ← List.length_append, ← pushTickets_append,
    List.take_append_drop]

theorem popClaims_split (log : List (Thread × Event T)) (mark : Nat) :
    popClaims log = popClaims (log.take mark) + popClaims (log.drop mark) := by
  rw [popClaims, popClaims, popClaims, ← List.length_append, ← popTickets_append,
    List.take_append_drop]

/-- The counter that was loaded first, in terms of the log. -/
def firstClaims (log : List (Thread × Event T)) : Version → Nat
  | .week7 => popClaims log
  | .challenge => pushClaims log

/-- What a thread between the loads knows of the time of the first. -/
structure Loaded (C : Nat) (version : Version) (log : List (Thread × Event T))
    (first mark : Nat) : Prop where
  mark_le : mark ≤ log.length
  first_eq : first = firstClaims (log.take mark) version
  le : popClaims (log.take mark) ≤ pushClaims (log.take mark)
  room : pushClaims (log.take mark) ≤ popClaims (log.take mark) + C

theorem Loaded.append {version : Version} {log : List (Thread × Event T)} {first mark : Nat}
    (h : Loaded C version log first mark) (log' : List (Thread × Event T)) :
    Loaded C version (log ++ log') first mark := by
  have htake : (log ++ log').take mark = log.take mark :=
    List.take_append_of_le_length h.mark_le
  refine ⟨?_, ?_, ?_, ?_⟩
  · rw [List.length_append]
    exact Nat.le_add_right_of_le h.mark_le
  · rw [htake]
    exact h.first_eq
  · rw [htake]
    exact h.le
  · rw [htake]
    exact h.room

/-! ### A step -/

variable [NeZero C]

section Counters

variable {s : System Thread T C} (h : Inv s)
include h

theorem Inv.tail_eq : s.queue.tail = pushClaims s.log := by
  rw [pushClaims, h.pushes, List.length_range]

theorem Inv.head_eq : s.queue.head = popClaims s.log := by
  rw [popClaims, h.pops, List.length_range]

theorem Inv.firstLoad (version : Version) :
    Loaded C version s.log (s.queue.firstLoad version) s.log.length where
  mark_le := le_refl _
  first_eq := by
    rw [List.take_length]
    cases version with
    | week7 => exact h.head_eq
    | challenge => exact h.tail_eq
  le := by
    rw [List.take_length, ← h.tail_eq, ← h.head_eq]
    exact h.cells.le
  room := by
    rw [List.take_length, ← h.tail_eq, ← h.head_eq]
    exact h.cells.room

end Counters

/-- What the second load makes of it. -/
theorem secondLoad_le_iff {version : Version} {s : System Thread T C} (h : Inv s)
    (hrange : s.queue.tail < 2 ^ 64) {first mark : Nat}
    (hloaded : Loaded C version s.log first mark) :
    s.queue.secondLoad first version ≤ C ↔
      FewBetween C version (s.log.take mark) (s.log.drop mark) := by
  have hle := hloaded.le
  have hroom := hloaded.room
  have htail := h.tail_eq
  have hhead := h.head_eq
  have hcells := h.cells.le
  rw [pushClaims_split _ mark] at htail
  rw [popClaims_split _ mark] at hhead
  cases version with
  | week7 =>
      have hfirst : first = popClaims (s.log.take mark) := hloaded.first_eq
      rw [ConcurrentQueue.secondLoad, FewBetween, occupancy]
      omega
  | challenge =>
      have hfirst : first = pushClaims (s.log.take mark) := hloaded.first_eq
      rw [ConcurrentQueue.secondLoad, FewBetween, occupancy]
      by_cases hbehind : s.queue.head ≤ first
      · rw [if_pos hbehind]
        omega
      · rw [if_neg hbehind]
        omega

section Steps

variable [DecidableEq Thread]

/-- A step appends to the log what it means. -/
theorem System.step_log {n : Counters} {action : Action Thread T} {s s' : System Thread T C}
    (h : s.step n action = .ok s') : ∃ log, s'.log = s.log ++ log := by
  have henter : ∀ thread start, s.enter thread start = .ok s' → ∃ log, s'.log = s.log ++ log := by
    intro thread start henter
    rw [System.enter] at henter
    split at henter
    · cases henter
      exact ⟨[], (List.append_nil s.log).symm⟩
    · cases henter
  cases action with
  | push thread item => exact henter thread _ h
  | pop thread => exact henter thread _ h
  | advance thread spuriously =>
      obtain ⟨⟨queue, loc, event⟩, -, hout⟩ := Run.except_bind_inv h
      cases hout
      exact ⟨_, rfl⟩

/-- What holds in every state, whatever `size` returns. -/
structure Watched (version : Version) (s : Observed Thread T C) : Prop where
  inv : Inv s.system
  loaded : ∀ first mark, s.reader = .loaded first mark →
    Loaded C version s.system.log first mark

namespace Watched

variable {version : Version} {s s' : Observed Thread T C}

omit [DecidableEq Thread] in
theorem new [Inhabited T] : Watched version (Observed.new : Observed Thread T C) where
  inv := new_inv
  loaded := by
    intro first mark hreader
    cases hreader

omit [DecidableEq Thread] in
theorem load (h : Watched version s) : Watched version (s.load version) := by
  rw [Observed.load]
  split
  · exact ⟨h.inv, fun first mark hreader => by cases hreader⟩
  · refine ⟨h.inv, fun first mark hreader => ?_⟩
    cases hreader
    exact h.inv.firstLoad version

theorem step (hC : 2 ≤ C) (h : Watched version s) {action : Observing Thread T}
    (hstep : s.step version action = .ok s') : Watched version s' := by
  cases action with
  | other action =>
      obtain ⟨system, hsystem, hs'⟩ := Run.except_bind_inv hstep
      cases hs'
      obtain ⟨log, hlog⟩ := System.step_log hsystem
      refine ⟨h.inv.step hC hsystem, fun first mark hreader => ?_⟩
      change Loaded C version system.log first mark
      rw [hlog]
      exact (h.loaded first mark hreader).append log
  | load =>
      cases hstep
      exact h.load

omit [DecidableEq Thread] in
/-- The load that returns. -/
theorem load_fits_iff (h : Watched version s) (hrange : s.system.queue.tail < 2 ^ 64) :
    SizeFits (s.load version) ↔ FewClaims version .load s := by
  have hbegins : (∀ first mark, s.reader ≠ .loaded first mark) →
      (s.load version).reader = .loaded (s.system.queue.firstLoad version) s.system.log.length →
      (SizeFits (s.load version) ↔ FewClaims version .load s) := by
    intro hnot hload
    refine ⟨fun _ first mark hreader => absurd hreader (hnot first mark), fun _ value hvalue => ?_⟩
    rw [hload] at hvalue
    cases hvalue
  cases hreader : s.reader with
  | idle =>
      exact hbegins (fun _ _ h => by rw [hreader] at h; cases h) (by rw [Observed.load, hreader])
  | returned value =>
      exact hbegins (fun _ _ h => by rw [hreader] at h; cases h) (by rw [Observed.load, hreader])
  | loaded first mark =>
      have hvalue : (s.load version).reader =
          .returned (s.system.queue.secondLoad first version) := by rw [Observed.load, hreader]
      have hiff := secondLoad_le_iff h.inv hrange (h.loaded first mark hreader)
      constructor
      · intro hfits first' mark' hreader'
        rw [hreader] at hreader'
        cases hreader'
        exact hiff.mp (hfits _ hvalue)
      · intro hfew value hvalue'
        rw [hvalue] at hvalue'
        cases hvalue'
        exact hiff.mpr (hfew first mark hreader)

end Watched

/-! ### Every interleaving -/

/-- In runs whose counters have not wrapped, `size` never returns more than the capacity exactly
if few enough claims lie between the two loads of each call. -/
theorem sizes_le_capacity_iff [Inhabited T] (hC : 2 ≤ C) (version : Version)
    (actions : List (Observing Thread T))
    (hrange : Run.Always (Observed.step version) actions (.new : Observed Thread T C)
      fun s => s.system.queue.tail < 2 ^ 64) :
    Run.Always (Observed.step version) actions (.new : Observed Thread T C) SizeFits ↔
      Run.Steps (Observed.step version) actions (.new : Observed Thread T C)
        (FewClaims version) := by
  refine Run.always_iff_steps_where (I := Watched version) ?_ ?_ hrange.steps Watched.new ?_
  · intro action s s' htail hwatched hfits hfew hstep
    refine ⟨hwatched.step hC hstep, ?_⟩
    cases action with
    | other action =>
        obtain ⟨system, -, hs'⟩ := Run.except_bind_inv hstep
        cases hs'
        exact hfits
    | load =>
        cases hstep
        exact (hwatched.load_fits_iff htail).mpr hfew
  · intro action s htail hwatched _ hmany
    cases action with
    | other action => exact absurd trivial hmany
    | load =>
        exact ⟨s.load version, rfl, fun hfits => hmany ((hwatched.load_fits_iff htail).mp hfits)⟩
  · intro value hreader
    cases hreader

end Steps

/-- A call of `size` with a `push` between its loads that has not claimed a ticket yet. -/
theorem sizes_le_capacity_iff_sample :
    Run.Always (Observed.step .week7) [.load, .other (.push false 7), .load]
      (.new : Observed Bool Nat 2) SizeFits := by
  have hzero : (0 : Nat) < 2 ^ 64 := by decide
  refine (sizes_le_capacity_iff (by decide) .week7 _ ?_).mpr ?_
  · refine (Run.always_cons_ok rfl).mpr ⟨hzero, ?_⟩
    refine (Run.always_cons_ok rfl).mpr ⟨hzero, ?_⟩
    refine (Run.always_cons_ok rfl).mpr ⟨hzero, ?_⟩
    exact Run.always_nil.mpr hzero
  · refine (Run.steps_cons_ok rfl).mpr ⟨fun _ _ hreader => (by cases hreader), ?_⟩
    refine (Run.steps_cons_ok rfl).mpr ⟨trivial, ?_⟩
    refine (Run.steps_cons_ok rfl).mpr ⟨fun first mark hreader => ?_, Run.steps_nil⟩
    cases hreader
    exact Nat.zero_le 2

def pushing (item : Nat) : List (Observing Bool Nat) :=
  .other (.push false item) :: List.replicate 5 (.other (.advance false false))

def popping : List (Observing Bool Nat) :=
  .other (.pop true) :: List.replicate 5 (.other (.advance true false))

/-- Three items pass through a queue of two cells between the loads. -/
def passingThrough : List (Observing Bool Nat) :=
  .load :: (pushing 7 ++ pushing 8 ++ popping ++ pushing 9 ++ popping ++ popping ++ [.load])

/-- `week_7` finds three items, and the challenge client the largest number there is. -/
theorem size_exceeds_capacity :
    (∃ s : Observed Bool Nat 2, Run.run (Observed.step .week7) passingThrough .new = .ok s ∧
      s.system.queue.tail = 3 ∧ s.reader = .returned 3 ∧ ¬ SizeFits s) ∧
    ∃ s : Observed Bool Nat 2, Run.run (Observed.step .challenge) passingThrough .new = .ok s ∧
      s.system.queue.tail = 3 ∧ s.reader = .returned (2 ^ 64 - 1) ∧ ¬ SizeFits s := by
  refine ⟨⟨_, rfl, rfl, rfl, fun hfits => ?_⟩, ⟨_, rfl, rfl, rfl, fun hfits => ?_⟩⟩
  · exact absurd (hfits 3 rfl) (by decide)
  · exact absurd (hfits (2 ^ 64 - 1) rfl) (by decide)

end HftProject.Week7
