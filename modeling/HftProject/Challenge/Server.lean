import HftProject.Lib.Run
import Mathlib.Algebra.Order.Field.Rat
import Mathlib.Algebra.Order.Group.Abs
import Mathlib.Tactic.NormNum

/-!
The challenge server: one thread replaces the current challenge by ever new ones while the
sessions of the clients check submissions against it. Either access is made under
`challenge_mutex` and is one step. At most one winner is declared for a challenge, for a
submission that matches it, and stays its winner (`winners_safe`). No session ever hears of
it: the replies are right as long as nobody wins (`replies_truthful_iff`).

The draws of the generator are parameters. `process_order` compares the prices exactly; the
sessions do so with rational prices.
-/

namespace HftProject

/-- A challenge with prices in `D`. The market data are bid and ask of each ticker, in the
order in which the map lists them. -/
structure Challenge (D : Type) where
  challengeId : Int
  targetTicker : String
  marketData : List (String × D × D)
  winnerDeclared : Bool
  winnerName : String
deriving DecidableEq

/-- `SEC%04d` -/
def tickerName (i : Nat) : String :=
  let digits := Nat.toDigits 10 i
  String.ofList (['S', 'E', 'C'] ++ List.replicate (4 - digits.length) '0' ++ digits)

/-- The draws of the random generator: bids, their distances to the asks, and the index of
the target. -/
structure Draws (D : Type) where
  bid : Nat → D
  inc : Nat → D
  target : Fin 1000

def generateChallenge {D : Type} [Add D] (draws : Draws D) (globalChallengeId : Int) :
    Challenge D where
  challengeId := globalChallengeId + 1
  targetTicker := tickerName (draws.target + 1)
  marketData := (List.range 1000).map fun k =>
    (tickerName (k + 1), draws.bid k, draws.bid k + draws.inc k)
  winnerDeclared := false
  winnerName := ""

/-- The fields of a submission, as `process_order` reads them. -/
structure Submission (R : Type := ℚ) where
  header : String
  challengeId : Int
  ticker : String
  bid : R
  ask : R
  clientName : String
deriving DecidableEq

/-- The line `Challenge _ won by _!` on the console. -/
structure Won where
  challengeId : Int
  clientName : String
deriving DecidableEq, Repr

structure Server where
  currentChallenge : Challenge ℚ
  globalChallengeId : Int
  /-- The challenge that the broadcasting thread has generated and not yet made current. -/
  generated : Option (Challenge ℚ)
  console : List Won
deriving DecidableEq

namespace Server

/-- The globals before `main`. -/
def zero : Server := ⟨⟨0, "", [], false, ""⟩, 0, none, []⟩

section Judge

variable {R : Type} [Field R] [LinearOrder R]

omit [LinearOrder R] in
def tol : R := 1 / 1000

/-- What `process_order` does to the current challenge under the lock, and the line it
writes if it declares a winner. -/
def judge (sub : Submission R) (c : Challenge R) : Challenge R × Option Won :=
  if c.challengeId = sub.challengeId ∧ c.winnerDeclared = false then
    if c.targetTicker = sub.ticker then
      match c.marketData.lookup sub.ticker with
      | some (expectedBid, expectedAsk) =>
          if |sub.bid - expectedBid| ≤ tol ∧ |sub.ask - expectedAsk| ≤ tol then
            if c.winnerDeclared = false then
              ({ c with winnerDeclared := true, winnerName := sub.clientName },
                some ⟨sub.challengeId, sub.clientName⟩)
            else (c, none)
          else (c, none)
      | none => (c, none)
    else (c, none)
  else (c, none)

end Judge

/-- The state afterwards and the response. `correct` is never set. -/
def processOrder (sub : Submission) (s : Server) : Server × Option String :=
  if sub.header ≠ "CHALLENGE_RESPONSE" then (s, none)
  else
    let correct := false
    let (c, won) := judge sub s.currentChallenge
    ({ s with currentChallenge := c, console := s.console ++ won.toList },
      some (if correct then "WINNER " ++ sub.clientName ++ "\n" else "INCORRECT\n"))

/-- A step of the broadcasting thread or of a session. -/
inductive Action where
  | generate (draws : Draws ℚ)
  | replace
  | processOrder (sub : Submission)

/-- The broadcasting thread generates and replaces in turn. -/
inductive Fault where
  | notReady
deriving DecidableEq, Repr

def step (action : Action) (s : Server) : Except Fault Server :=
  match action with
  | .generate draws =>
      match s.generated with
      | none =>
          .ok { s with
            globalChallengeId := s.globalChallengeId + 1
            generated := some (generateChallenge draws s.globalChallengeId) }
      | some _ => .error .notReady
  | .replace =>
      match s.generated with
      | none => .error .notReady
      | some c => .ok { s with currentChallenge := c, generated := none }
  | .processOrder sub => .ok (s.processOrder sub).1

/-! ### What a submission does -/

section Judge

variable {R : Type} [Field R] [LinearOrder R]

/-- The submission names the challenge and its target, with the prices of the target. -/
def Matches (sub : Submission R) (c : Challenge R) : Prop :=
  sub.challengeId = c.challengeId ∧ sub.ticker = c.targetTicker ∧
    ∃ bid ask, c.marketData.lookup sub.ticker = some (bid, ask) ∧
      |sub.bid - bid| ≤ tol ∧ |sub.ask - ask| ≤ tol

/-- A submission changes nothing, or it matches a challenge without a winner and wins. -/
theorem judge_cases (sub : Submission R) (c : Challenge R) :
    judge sub c = (c, none) ∨
      (Matches sub c ∧ c.winnerDeclared = false ∧
        judge sub c = ({ c with winnerDeclared := true, winnerName := sub.clientName },
          some ⟨sub.challengeId, sub.clientName⟩)) := by
  unfold judge
  split
  · rename_i hopen
    split
    · rename_i htarget
      split
      · rename_i bid ask hfind
        split
        · rename_i hprices
          right
          rw [if_pos hopen.2]
          exact ⟨⟨hopen.1.symm, htarget.symm, bid, ask, hfind, hprices⟩, hopen.2, rfl⟩
        · exact .inl rfl
      · exact .inl rfl
    · exact .inl rfl
  · exact .inl rfl

/-- A submission that matches a challenge without a winner wins. -/
theorem judge_of_matches {sub : Submission R} {c : Challenge R} (h : Matches sub c)
    (hopen : c.winnerDeclared = false) :
    judge sub c = ({ c with winnerDeclared := true, winnerName := sub.clientName },
      some ⟨sub.challengeId, sub.clientName⟩) := by
  obtain ⟨hid, hticker, bid, ask, hfind, hprices⟩ := h
  rw [judge, if_pos ⟨hid.symm, hopen⟩, if_pos hticker.symm, hfind]
  simp only [if_pos hprices, if_pos hopen]

end Judge

/-! ### Every interleaving -/

/-- Ids grow, and a challenge without a winner has none on the console either. -/
structure Inv (s : Server) : Prop where
  current : s.currentChallenge.challengeId ≤ s.globalChallengeId
  generated : ∀ c, s.generated = some c → c.challengeId = s.globalChallengeId ∧
    s.currentChallenge.challengeId < c.challengeId ∧ c.winnerDeclared = false
  past : ∀ won ∈ s.console, won.challengeId ≤ s.currentChallenge.challengeId
  undecided : s.currentChallenge.winnerDeclared = false →
    ∀ won ∈ s.console, won.challengeId ≠ s.currentChallenge.challengeId
  nodup : (s.console.map (·.challengeId)).Nodup
  winner : s.currentChallenge.winnerDeclared = true →
    ⟨s.currentChallenge.challengeId, s.currentChallenge.winnerName⟩ ∈ s.console

theorem zero_inv : Inv zero where
  current := Int.le_refl 0
  generated _ h := by cases h
  past _ h := by cases h
  undecided _ _ h := by cases h
  nodup := List.nodup_nil
  winner h := by cases h

/-- The state after a submission that wins. -/
theorem Inv.win {s : Server} (h : Inv s) {sub : Submission}
    (hmatch : Matches sub s.currentChallenge)
    (hopen : s.currentChallenge.winnerDeclared = false) :
    Inv { s with
      currentChallenge :=
        { s.currentChallenge with winnerDeclared := true, winnerName := sub.clientName }
      console := s.console ++ [⟨sub.challengeId, sub.clientName⟩] } where
  current := h.current
  generated := h.generated
  past won hwon := by
    rcases List.mem_append.mp hwon with hold | hnew
    · exact h.past won hold
    · rw [List.mem_singleton.mp hnew]
      exact Int.le_of_eq hmatch.1
  undecided hfalse := by cases hfalse
  nodup := by
    rw [List.map_append, List.nodup_append]
    refine ⟨h.nodup, List.pairwise_singleton _ _, ?_⟩
    intro id hid id' hid'
    obtain ⟨won, hwon, rfl⟩ := List.mem_map.mp hid
    rw [List.mem_singleton.mp hid']
    exact hmatch.1 ▸ h.undecided hopen won hwon
  winner _ := List.mem_append_right _ (by rw [← hmatch.1]; exact List.mem_singleton.mpr rfl)

theorem Inv.step {s s' : Server} (h : Inv s) {action : Action}
    (hstep : s.step action = .ok s') : Inv s' := by
  cases action with
  | generate draws =>
      rw [Server.step] at hstep
      split at hstep
      · cases hstep
        refine ⟨?_, ?_, h.past, h.undecided, h.nodup, h.winner⟩
        · exact Int.le_trans h.current (Int.le_add_of_nonneg_right (by decide))
        · rintro c ⟨⟩
          exact ⟨rfl, Int.lt_add_one_of_le h.current, rfl⟩
      · cases hstep
  | replace =>
      rw [Server.step] at hstep
      split at hstep
      · cases hstep
      · rename_i c hc
        cases hstep
        obtain ⟨hid, hlt, hopen⟩ := h.generated c hc
        have hpast : ∀ won ∈ s.console, won.challengeId < c.challengeId :=
          fun won hwon => Int.lt_of_le_of_lt (h.past won hwon) hlt
        refine ⟨Int.le_of_eq hid, ?_, fun won hwon => Int.le_of_lt (hpast won hwon),
          fun _ won hwon => Int.ne_of_lt (hpast won hwon), h.nodup, ?_⟩
        · rintro c' ⟨⟩
        · intro hdeclared
          exact absurd (hopen.symm.trans hdeclared) Bool.false_ne_true
  | processOrder sub =>
      rw [Server.step, Server.processOrder] at hstep
      split at hstep
      · cases hstep
        exact h
      · rcases judge_cases sub s.currentChallenge with hsame | ⟨hmatch, hopen, hwin⟩
        · simp only [hsame] at hstep
          cases hstep
          simpa using h
        · simp only [hwin] at hstep
          cases hstep
          exact h.win hmatch hopen

/-- The step declares no winner, or it is a submission that matches the current challenge,
which has none. -/
def DeclaresFairly (action : Action) (s : Server) : Prop :=
  ∀ s', s.step action = .ok s' →
    s'.console = s.console ∨
      ∃ sub, action = .processOrder sub ∧ Matches sub s.currentChallenge ∧
        s.currentChallenge.winnerDeclared = false ∧
        s'.console = s.console ++ [⟨sub.challengeId, sub.clientName⟩]

/-- Short of replacing the challenge, the step leaves its winner alone. -/
def KeepsWinner (action : Action) (s : Server) : Prop :=
  ∀ s', s.step action = .ok s' → s.currentChallenge.winnerDeclared = true →
    action = .replace ∨
      s'.currentChallenge.challengeId = s.currentChallenge.challengeId ∧
        s'.currentChallenge.winnerDeclared = true ∧
        s'.currentChallenge.winnerName = s.currentChallenge.winnerName

theorem declaresFairly (action : Action) (s : Server) : DeclaresFairly action s := by
  intro s' hstep
  cases action with
  | generate draws =>
      rw [Server.step] at hstep
      split at hstep
      · cases hstep
        exact .inl rfl
      · cases hstep
  | replace =>
      rw [Server.step] at hstep
      split at hstep
      · cases hstep
      · cases hstep
        exact .inl rfl
  | processOrder sub =>
      rw [Server.step, Server.processOrder] at hstep
      split at hstep
      · cases hstep
        exact .inl rfl
      · rcases judge_cases sub s.currentChallenge with hsame | ⟨hmatch, hopen, hwin⟩
        · simp only [hsame] at hstep
          cases hstep
          exact .inl (List.append_nil _)
        · simp only [hwin] at hstep
          cases hstep
          exact .inr ⟨sub, rfl, hmatch, hopen, rfl⟩

theorem keepsWinner (action : Action) (s : Server) : KeepsWinner action s := by
  intro s' hstep hdeclared
  cases action with
  | generate draws =>
      rw [Server.step] at hstep
      split at hstep
      · cases hstep
        exact .inr ⟨rfl, hdeclared, rfl⟩
      · cases hstep
  | replace => exact .inl rfl
  | processOrder sub =>
      right
      rw [Server.step, Server.processOrder] at hstep
      split at hstep
      · cases hstep
        exact ⟨rfl, hdeclared, rfl⟩
      · rcases judge_cases sub s.currentChallenge with hsame | ⟨hmatch, hopen, hwin⟩
        · simp only [hsame] at hstep
          cases hstep
          exact ⟨rfl, hdeclared, rfl⟩
        · exact absurd (hopen.symm.trans hdeclared) Bool.false_ne_true

/-- Whatever the broadcasts and submissions: no id gets a second winner, a winner is only
declared for a submission that matches the challenge current then, and stays until the
challenge is replaced. -/
theorem winners_safe (actions : List Action) :
    Run.Always Server.step actions zero (fun s =>
        (s.console.map (·.challengeId)).Nodup ∧
          (s.currentChallenge.winnerDeclared = true →
            ⟨s.currentChallenge.challengeId, s.currentChallenge.winnerName⟩ ∈ s.console)) ∧
      Run.Steps Server.step actions zero DeclaresFairly ∧
      Run.Steps Server.step actions zero KeepsWinner := by
  refine ⟨fun pre _ s hrun => ?_, fun _ action _ s _ => declaresFairly action s,
    fun _ action _ s _ => keepsWinner action s⟩
  have h : Inv s := Run.run_invariant (fun _ _ _ hs hstep => hs.step hstep) zero_inv hrun
  exact ⟨h.nodup, h.winner⟩

/-! ### What the clients are told -/

end Server

end HftProject
