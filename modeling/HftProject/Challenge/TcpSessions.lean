import HftProject.Challenge.OrderLines

/-!
The sessions of the challenge server on what their clients send, byte by byte. What a session
receives is appended to its `streambuf_` in pieces of any size; its handler takes one line out of it
at a time and gives it to `process_order`, unless it is empty. However the bytes are cut and the
sessions and the broadcasting thread take turns, the lines given to `process_order` are the lines
that were sent, and what becomes of the challenges is what the submissions do that these lines read
as (`sessions_refine`).
-/

namespace HftProject

open Lines

/-- The server with its sessions. What a session has been sent, and the lines that have been
handled, are kept for reference. -/
structure Sessions (S : Type) where
  server : Server
  streambuf : S → Text
  received : S → Text
  handled : List (S × Text)

namespace Sessions

variable {S : Type}

inductive Action (S : Type) where
  | generate (draws : Draws ℚ)
  | replace
  /-- `async_read_until` reads more. -/
  | receive (session : S) (chunk : Text)
  /-- The handler of `async_read_until`. -/
  | handle (session : S)

/-- Why a step is not taken. -/
inductive Fault where
  | notReady
  /-- A variable is read that has not been assigned. -/
  | unassigned (v : Unassigned)
deriving DecidableEq, Repr

/-- The globals before `main`, and sessions that have been sent nothing. -/
def zero : Sessions S := ⟨.zero, fun _ => [], fun _ => [], []⟩

variable [DecidableEq S]

def doRead (session : S) (s : Sessions S) : Except Fault (Sessions S) :=
  match getline '\n' (s.streambuf session) with
  | none => .error .notReady
  | some (line, rest) =>
      let s := { s with
        streambuf := Function.update s.streambuf session rest
        handled := s.handled ++ [(session, line)] }
      if line = [] then .ok s
      else
        match s.server.processLine line with
        | .ok (server, _) => .ok { s with server := server }
        | .error v => .error (.unassigned v)

def step (action : Action S) (s : Sessions S) : Except Fault (Sessions S) :=
  match action with
  | .generate draws =>
      match s.server.step (.generate draws) with
      | .ok server => .ok { s with server := server }
      | .error _ => .error .notReady
  | .replace =>
      match s.server.step .replace with
      | .ok server => .ok { s with server := server }
      | .error _ => .error .notReady
  | .receive session chunk =>
      .ok { s with
        streambuf := Function.update s.streambuf session (s.streambuf session ++ chunk)
        received := Function.update s.received session (s.received session ++ chunk) }
  | .handle session => s.doRead session

/-! ### What the sessions make of the bytes -/

/-- The lines that the session has handled. -/
def handledBy (session : S) (s : Sessions S) : List Text :=
  (s.handled.filter fun e => e.1 = session).map (·.2)

/-- What the step does to the server. -/
def serverAction (action : Action S) (s : Sessions S) : Option Server.Action :=
  match action with
  | .generate draws => some (.generate draws)
  | .replace => some .replace
  | .receive _ _ => none
  | .handle session =>
      match getline '\n' (s.streambuf session) with
      | some (line, _) =>
          if line = [] then none else (readSubmission line).map .processOrder
      | none => none

/-- The range of the bids and their distances to the asks. -/
structure InRange (draws : Draws ℚ) : Prop where
  bid : ∀ k, 10 ≤ draws.bid k ∧ draws.bid k < 100
  inc : ∀ k, 1 / 10 ≤ draws.inc k ∧ draws.inc k < 1

/-- The draws of a generated challenge are in their ranges. -/
def Drawn : Action S → Prop
  | .generate draws => InRange draws
  | _ => True

/-- What holds in every state. -/
structure Inv (s : Sessions S) : Prop where
  current : s.server.currentChallenge.Quoted
  generated : ∀ c, s.server.generated = some c → c.Quoted
  whole : ∀ session, ∀ line ∈ s.handledBy session, '\n' ∉ line
  bytes : ∀ session,
    s.received session = unlines '\n' (s.handledBy session) ++ s.streambuf session

omit [DecidableEq S] in
theorem generateChallenge_quoted {draws : Draws ℚ} (h : InRange draws) (globalChallengeId : Int) :
    (generateChallenge draws globalChallengeId).Quoted := by
  refine quoted_of_forall fun e he => ?_
  simp only [generateChallenge, List.mem_map] at he
  obtain ⟨k, -, rfl⟩ := he
  have hbid := (h.bid k).1
  have hinc := (h.inc k).1
  refine ⟨fun hname => ?_, ?_, ?_⟩
  · have hlength := congrArg String.toList hname
    rw [tickerName, String.toList_ofList] at hlength
    cases hlength
  · rw [Server.tol]
    linarith
  · rw [Server.tol]
    change 1 / 1000 < draws.bid k + draws.inc k
    linarith

variable {s s' : Sessions S}

/-- A line that does not stop short changes at most the winner. -/
theorem afterLine_frame (msg : Text) (server : Server) :
    (server.afterLine msg).currentChallenge.marketData = server.currentChallenge.marketData ∧
      (server.afterLine msg).generated = server.generated := by
  rw [Server.afterLine]
  cases (readSubmission msg : Option Submission) with
  | none => exact ⟨rfl, rfl⟩
  | some sub =>
      change ((server.processOrder sub).1.currentChallenge.marketData = _ ∧
        (server.processOrder sub).1.generated = _)
      rw [Server.processOrder]
      split
      · exact ⟨rfl, rfl⟩
      · rcases Server.judge_cases sub server.currentChallenge with hsame | ⟨-, -, hwin⟩
        · simp [hsame]
        · simp [hwin]

/-- The server's step for a line. -/
theorem run_afterLine (msg : Text) (server : Server) :
    Run.run Server.step ((readSubmission msg).map Server.Action.processOrder).toList server =
      .ok (server.afterLine msg) := by
  rw [Server.afterLine]
  cases (readSubmission msg : Option Submission) <;> rfl

/-- What a step does that succeeds. -/
theorem doRead_cases {session : S} (h : s.Inv) (hstep : s.doRead session = .ok s') :
    ∃ line rest, getline '\n' (s.streambuf session) = some (line, rest) ∧
      s' =
        { s with
          server := if line = [] then s.server else s.server.afterLine line
          streambuf := Function.update s.streambuf session rest
          handled := s.handled ++ [(session, line)] } := by
  rw [doRead] at hstep
  split at hstep
  · cases hstep
  · rename_i line rest hline
    refine ⟨line, rest, hline, ?_⟩
    dsimp only at hstep
    split at hstep
    · rename_i hempty
      cases hstep
      rw [if_pos hempty]
    · rename_i hne
      rw [if_neg hne]
      split at hstep
      · rename_i server response hserver
        cases hstep
        have hdefined := Server.process_line_defined h.current line
        have hshort : ∀ v, ¬ StopsShort line s.server.currentChallenge v := by
          intro v hv
          cases hserver.symm.trans ((hdefined.1 v).mpr hv)
        cases hserver.symm.trans (hdefined.2 hshort)
        rfl
      · cases hstep

/-- A step of the server keeps the quotes of its challenges good. -/
theorem quoted_generate {draws : Draws ℚ} {server server' : Server} (hdraws : InRange draws)
    (hstep : server.step (.generate draws) = .ok server') :
    server'.currentChallenge = server.currentChallenge ∧
      ∀ c, server'.generated = some c → c.Quoted := by
  rw [Server.step] at hstep
  split at hstep
  · cases hstep
    refine ⟨rfl, ?_⟩
    rintro c ⟨⟩
    exact generateChallenge_quoted hdraws _
  · cases hstep

theorem quoted_replace {server server' : Server}
    (hgenerated : ∀ c, server.generated = some c → c.Quoted)
    (hstep : server.step .replace = .ok server') :
    server'.currentChallenge.Quoted ∧ ∀ c, server'.generated = some c → c.Quoted := by
  rw [Server.step] at hstep
  split at hstep
  · cases hstep
  · rename_i c hc
    cases hstep
    exact ⟨hgenerated c hc, fun c' hc' => by cases hc'⟩

theorem handledBy_append (s : Sessions S) (server : Server) (streambuf : S → Text) (session : S)
    (line : Text) (other : S) :
    handledBy other { s with
      server := server
      streambuf := streambuf
      handled := s.handled ++ [(session, line)] } =
      s.handledBy other ++ if session = other then [line] else [] := by
  rw [handledBy, handledBy, List.filter_append, List.map_append]
  congr 1
  by_cases heq : session = other <;> simp [heq]

/-- Lines and what is left of the bytes, when the session has handled one more. -/
theorem Inv.handle (h : s.Inv) {session : S} {line rest : Text}
    (hline : getline '\n' (s.streambuf session) = some (line, rest)) (server : Server)
    (hcurrent : server.currentChallenge.Quoted)
    (hgenerated : ∀ c, server.generated = some c → c.Quoted) :
    Inv { s with
      server := server
      streambuf := Function.update s.streambuf session rest
      handled := s.handled ++ [(session, line)] } where
  current := hcurrent
  generated := hgenerated
  whole other l hl := by
    rw [handledBy_append] at hl
    rcases List.mem_append.mp hl with hold | hnew
    · exact h.whole other l hold
    · split at hnew
      · rw [List.mem_singleton.mp hnew]
        exact (getline_some hline).1
      · cases hnew
  bytes other := by
    rw [handledBy_append]
    change s.received other = _ ++ Function.update s.streambuf session rest other
    rw [h.bytes other, unlines_append]
    by_cases heq : session = other
    · rw [if_pos heq, ← heq, Function.update_self, (getline_some hline).2, unlines_cons]
      simp [unlines]
    · rw [if_neg heq, Function.update_of_ne (Ne.symm heq)]
      simp [unlines]

/-- A step keeps the invariant, and the server takes the step that is given out. -/
theorem Inv.step (h : s.Inv) {action : Action S} (hdrawn : Drawn action)
    (hstep : s.step action = .ok s') :
    s'.Inv ∧ Run.run Server.step (serverAction action s).toList s.server = .ok s'.server := by
  cases action with
  | generate draws =>
      rw [Sessions.step] at hstep
      split at hstep
      · rename_i server hserver
        cases hstep
        obtain ⟨hcurrent, hgenerated⟩ := quoted_generate hdrawn hserver
        exact ⟨⟨hcurrent ▸ h.current, hgenerated, h.whole, h.bytes⟩, Run.run_cons_ok hserver⟩
      · cases hstep
  | replace =>
      rw [Sessions.step] at hstep
      split at hstep
      · rename_i server hserver
        cases hstep
        obtain ⟨hcurrent, hgenerated⟩ := quoted_replace h.generated hserver
        exact ⟨⟨hcurrent, hgenerated, h.whole, h.bytes⟩, Run.run_cons_ok hserver⟩
      · cases hstep
  | receive session chunk =>
      cases hstep
      refine ⟨⟨h.current, h.generated, h.whole, fun other => ?_⟩, rfl⟩
      change Function.update s.received session _ other =
        _ ++ Function.update s.streambuf session _ other
      by_cases heq : other = session
      · rw [heq, Function.update_self, Function.update_self, h.bytes session, List.append_assoc]
        rfl
      · rw [Function.update_of_ne heq, Function.update_of_ne heq]
        exact h.bytes other
  | handle session =>
      obtain ⟨line, rest, hline, rfl⟩ := doRead_cases h hstep
      have hframe := afterLine_frame line s.server
      by_cases hempty : line = []
      · simp only [serverAction, hline, if_pos hempty]
        exact ⟨h.handle hline _ h.current h.generated, rfl⟩
      · simp only [serverAction, hline, if_neg hempty]
        refine ⟨h.handle hline _ ?_ ?_, run_afterLine line s.server⟩
        · rw [Challenge.Quoted, hframe.1]
          exact h.current
        · rw [hframe.2]
          exact h.generated

theorem zero_inv : (zero : Sessions S).Inv where
  current ticker expected hfind := by cases hfind
  generated c hc := by cases hc
  whole session line hline := by cases hline
  bytes _ := rfl

/-- The step that reads a variable without a value. -/
theorem Inv.unassigned_iff (h : s.Inv) (action : Action S) (v : Unassigned) :
    s.step action = .error (.unassigned v) ↔
      ∃ session line rest, action = .handle session ∧
        getline '\n' (s.streambuf session) = some (line, rest) ∧ line ≠ [] ∧
        StopsShort line s.server.currentChallenge v := by
  constructor
  · intro hstep
    cases action with
    | generate draws =>
        rw [Sessions.step] at hstep
        split at hstep <;> cases hstep
    | replace =>
        rw [Sessions.step] at hstep
        split at hstep <;> cases hstep
    | receive session chunk => cases hstep
    | handle session =>
        rw [Sessions.step, doRead] at hstep
        split at hstep
        · cases hstep
        · rename_i line rest hline
          dsimp only at hstep
          split at hstep
          · cases hstep
          · rename_i hne
            split at hstep
            · cases hstep
            · rename_i v' hserver
              cases hstep
              exact ⟨session, line, rest, rfl, hline, hne,
                ((Server.process_line_defined h.current line).1 v).mp hserver⟩
  · rintro ⟨session, line, rest, rfl, hline, hne, hshort⟩
    have hserver := ((Server.process_line_defined h.current line).1 v).mpr hshort
    simp only [Sessions.step, doRead, hline, if_neg hne, hserver]

/-- However the bytes are cut and the threads take turns: the server does what the submissions do
that the handled lines read as; the lines that a session has handled are those it was sent, short of
those it has still to take; and a variable without a value is read exactly at a line that stops
short. -/
theorem sessions_refine (actions : List (Action S)) (hdrawn : ∀ action ∈ actions, Drawn action)
    (hrun : Run.run step actions zero = .ok s) :
    Run.run Server.step (Run.outputs step serverAction actions (zero : Sessions S)) .zero =
        .ok s.server ∧
      (∀ session, lines '\n' (s.received session) =
        s.handledBy session ++ lines '\n' (s.streambuf session)) ∧
      ∀ action v, s.step action = .error (.unassigned v) ↔
        ∃ session line rest, action = .handle session ∧
          getline '\n' (s.streambuf session) = some (line, rest) ∧ line ≠ [] ∧
          StopsShort line s.server.currentChallenge v := by
  have kept : ∀ (action : Action S) (s s' : Sessions S), Drawn action → s.Inv →
      s.step action = .ok s' → s'.Inv ∧
        Run.run Server.step (serverAction action s).toList s.server = .ok s'.server :=
    fun action s s' hdrawn h hstep => h.step hdrawn hstep
  obtain ⟨hinv, hserver⟩ := Run.run_outputs kept hdrawn zero_inv hrun
  refine ⟨hserver, fun session => ?_, hinv.unassigned_iff⟩
  rw [hinv.bytes session, lines_unlines_append (hinv.whole session)]

/-- A bid of 10 and an ask of 10.5 for every ticker, and the first as the target. -/
def tenDraws : Draws ℚ := ⟨fun _ => 10, fun _ => 1 / 2, ⟨0, by decide⟩⟩

/-- Two sessions by turns, before the first challenge is current. The answer of one comes in two
pieces, and the last line of the other has no end. -/
def twoSessions : List (Action Bool) :=
  [.generate tenDraws, .receive true "CHALLENGE_RESPONSE 1 SEC00".toList,
    .receive false "\nhello\nCHALLENGE_RESP".toList, .handle false, .handle false,
    .receive true "01 10 10.5 A\n".toList, .handle true]

theorem tenDraws_inRange : InRange tenDraws :=
  ⟨fun _ => by norm_num [tenDraws], fun _ => by norm_num [tenDraws]⟩

theorem twoSessions_drawn : ∀ action ∈ twoSessions, Drawn action := by
  simp [twoSessions, Drawn, tenDraws_inRange]

theorem sessions_refine_sample : ∃ s : Sessions Bool, Run.run step twoSessions zero = .ok s ∧
    s.handledBy true = ["CHALLENGE_RESPONSE 1 SEC0001 10 10.5 A".toList] ∧
      lines '\n' (s.received false) = s.handledBy false ++ lines '\n' (s.streambuf false) :=
  ⟨_, rfl, rfl, (sessions_refine twoSessions twoSessions_drawn rfl).2.1 false⟩

end Sessions

end HftProject
