import HftProject.Challenge.Answers

/-!
The server and the trading clients on their networks. The broadcasting thread replaces the current
challenge and sends its fragments; those reach the workers of a client in any order, more than once
or never; what a worker sends is written to the client's socket, in any order, but each message as a
whole; and the session of the client takes the bytes as they come. The submissions that
`process_order` makes of them are what the clients have answered, with nothing lost, doubled or
changed on the way; none reads a variable without a value; and an answer to the current challenge
always finds a winner. As long as only one challenge has been broadcast, that is every line
(`exchange_sound`).
-/

namespace HftProject

open Lines

/-- The server with its sessions, the challenges whose fragments are on their way, and for each
client its workers and the responses it has written, with their places among those sent. -/
structure Exchange (K W : Type) where
  sessions : Sessions K
  broadcast : List (Challenge ℚ)
  clients : K → Workers W ℚ
  written : K → List (Nat × Response ℚ)

namespace Exchange

variable {K W : Type}

inductive Action (K W : Type) where
  | generate (draws : Draws ℚ)
  /-- The new challenge becomes current, and its fragments go out. -/
  | replace
  | work (client : K) (action : Section W)
  /-- `async_write` of a response. -/
  | write (client : K) (i : Nat)
  /-- The next bytes reach the server. -/
  | receive (client : K) (count : Nat)
  | handle (client : K)

/-- Why a step is not taken. -/
inductive Fault where
  | notReady
  /-- `global_challenge_id` cannot be counted up. -/
  | overflow
  | server (fault : Sessions.Fault)
deriving DecidableEq, Repr

def zero : Exchange K W := ⟨.zero, [], fun _ => .start .start, fun _ => []⟩

/-- What the client's socket has been given. -/
def wire (client : K) (s : Exchange K W) : Text :=
  (s.written client).flatMap fun e => responseMessage e.2

variable [DecidableEq K]

def serve (action : Sessions.Action K) (s : Exchange K W) : Except Fault (Exchange K W) :=
  match s.sessions.step action with
  | .ok sessions => .ok { s with sessions := sessions }
  | .error fault => .error (.server fault)

/-- A section of a worker. A packet comes only after its challenge. -/
def work [DecidableEq W] (deliveries : K → List Text) (client : K) (action : Section W)
    (s : Exchange K W) : Except Fault (Exchange K W) :=
  if ∀ packet ∈ (Workers.packetOf (deliveries client) action).toList,
      Carried streamFormat maxUdpPayload s.broadcast packet then
    match Workers.step streamFormat (deliveries client) action (s.clients client) with
    | .ok workers => .ok { s with clients := Function.update s.clients client workers }
    | .error _ => .error .notReady
  else .error .notReady

def write (client : K) (i : Nat) (s : Exchange K W) : Except Fault (Exchange K W) :=
  match (s.clients client).sent[i]? with
  | some r =>
      if i ∈ (s.written client).map (·.1) then .error .notReady
      else
        .ok { s with written := Function.update s.written client (s.written client ++ [(i, r)]) }
  | none => .error .notReady

/-- A step, given the packets that each client's network delivers. -/
def step [DecidableEq W] (deliveries : K → List Text) (action : Action K W) (s : Exchange K W) :
    Except Fault (Exchange K W) :=
  match action with
  | .generate draws =>
      if s.sessions.server.globalChallengeId + 1 < 2 ^ 31 then s.serve (.generate draws)
      else .error .overflow
  | .replace =>
      match s.sessions.server.generated with
      | some c => (s.serve .replace).map fun s => { s with broadcast := s.broadcast ++ [c] }
      | none => .error .notReady
  | .work client action => s.work deliveries client action
  | .write client i => s.write client i
  | .receive client count =>
      s.serve (.receive client
        (((s.wire client).drop (s.sessions.received client).length).take count))
  | .handle client => s.serve (.handle client)

/-- The draws of a generated challenge are in their ranges. -/
def Drawn : Action K W → Prop
  | .generate draws => Sessions.InRange draws
  | _ => True

/-- The current challenge is the last that was broadcast, up to its winner. -/
def Current (c : Challenge ℚ) (s : Exchange K W) : Prop :=
  s.sessions.server.currentChallenge =
    { c with
      winnerDeclared := s.sessions.server.currentChallenge.winnerDeclared
      winnerName := s.sessions.server.currentChallenge.winnerName }

/-- What holds in every state. -/
structure Inv (s : Exchange K W) : Prop where
  sessions : s.sessions.Inv
  counted : 0 ≤ s.sessions.server.globalChallengeId
  generated : ∀ c, s.sessions.server.generated = some c → c.Genuine
  genuine : ∀ c ∈ s.broadcast, c.Genuine
  current : ∀ c, s.broadcast.getLast? = some c → s.Current c
  clients : ∀ client, (s.clients client).Sourced streamFormat s.broadcast
  written : ∀ client, ∀ e ∈ s.written client, (s.clients client).sent[e.1]? = some e.2
  once : ∀ client, ((s.written client).map (·.1)).Nodup
  received : ∀ client, s.sessions.received client <+: s.wire client
  decided : ∀ c, s.broadcast = [c] → s.sessions.handled ≠ [] →
    s.sessions.server.currentChallenge.winnerDeclared = true

/-! ### What the parts do -/

omit [DecidableEq K] in
theorem wire_eq (client : K) (s : Exchange K W) :
    s.wire client = unlines '\n' ((s.written client).map fun e => answerLine e.2) := by
  have hmessages := flatMap_responseMessage ((s.written client).map fun e => e.2)
  rw [List.flatMap_map, List.map_map] at hmessages
  exact hmessages

theorem wire_write (client : K) (i : Nat) (r : Response ℚ) (other : K) (s : Exchange K W) :
    wire other
        { s with written := Function.update s.written client (s.written client ++ [(i, r)]) } =
      s.wire other ++ if other = client then responseMessage r else [] := by
  change ((Function.update s.written client (s.written client ++ [(i, r)])) other).flatMap
    (fun e => responseMessage e.2) = _
  by_cases heq : other = client
  · subst heq
    rw [wire, Function.update_self, if_pos rfl, List.flatMap_append, List.flatMap_singleton]
  · rw [wire, Function.update_of_ne heq, if_neg heq, List.append_nil]

theorem serve_ok {action : Sessions.Action K} {s s' : Exchange K W}
    (hstep : s.serve action = .ok s') :
    ∃ sessions, s.sessions.step action = .ok sessions ∧ s' = { s with sessions := sessions } := by
  rw [serve] at hstep
  split at hstep
  · rename_i sessions hsessions
    cases hstep
    exact ⟨sessions, hsessions, rfl⟩
  · cases hstep

theorem generate_ok {draws : Draws ℚ} {s s' : Sessions K}
    (hstep : s.step (.generate draws) = .ok s') :
    s' =
      { s with
        server :=
          { s.server with
            globalChallengeId := s.server.globalChallengeId + 1
            generated := some (generateChallenge draws s.server.globalChallengeId) } } := by
  rw [Sessions.step] at hstep
  split at hstep
  · rename_i server hserver
    cases hstep
    rw [Server.step] at hserver
    split at hserver
    · cases hserver
      rfl
    · cases hserver
  · cases hstep

theorem replace_ok {s s' : Sessions K} {c : Challenge ℚ} (hc : s.server.generated = some c)
    (hstep : s.step .replace = .ok s') :
    s' = { s with server := { s.server with currentChallenge := c, generated := none } } := by
  simp only [Sessions.step, Server.step, hc] at hstep
  cases hstep
  rfl

theorem work_ok [DecidableEq W] {deliveries : K → List Text} {client : K}
    {action : Section W} {s s' : Exchange K W} (hstep : s.work deliveries client action = .ok s') :
    (∀ packet ∈ Workers.packetOf (deliveries client) action,
        Carried streamFormat maxUdpPayload s.broadcast packet) ∧
      ∃ workers, Workers.step streamFormat (deliveries client) action (s.clients client) =
          .ok workers ∧
        s' = { s with clients := Function.update s.clients client workers } := by
  rw [work] at hstep
  split at hstep
  · rename_i hcarried
    split at hstep
    · rename_i workers hworkers
      cases hstep
      exact ⟨fun packet hpacket => hcarried packet (Option.mem_toList.mpr hpacket), workers,
        hworkers, rfl⟩
    · cases hstep
  · cases hstep

theorem write_ok {client : K} {i : Nat} {s s' : Exchange K W} (hstep : s.write client i = .ok s') :
    ∃ r, (s.clients client).sent[i]? = some r ∧ i ∉ (s.written client).map (·.1) ∧
      s' =
        { s with written := Function.update s.written client (s.written client ++ [(i, r)]) } := by
  rw [write] at hstep
  split at hstep
  · rename_i r hr
    split at hstep
    · cases hstep
    · rename_i hnew
      cases hstep
      exact ⟨r, hr, hnew, rfl⟩
  · cases hstep

/-! ### The lines of a client -/

variable {deliveries : K → List Text} {s s' : Exchange K W}

namespace Inv

theorem readable (h : s.Inv) (client : K) {e : Nat × Response ℚ} (he : e ∈ s.written client) :
    e.2.Readable := by
  have hsent := List.mem_of_getElem? (h.written client e he)
  exact ((h.clients client).sent e.2 hsent).readable h.genuine

theorem lines_wire (h : s.Inv) (client : K) :
    lines '\n' (s.wire client) = (s.written client).map fun e => answerLine e.2 := by
  have hwhole : ∀ line ∈ (s.written client).map (fun e => answerLine e.2), '\n' ∉ line := by
    intro line hline
    obtain ⟨e, he, rfl⟩ := List.mem_map.mp hline
    exact (h.readable client he).not_mem
  have hlines := lines_unlines_append hwhole []
  rw [List.append_nil, lines_rest List.not_mem_nil, List.append_nil] at hlines
  rw [wire_eq, hlines]

/-- What the session has handled and can handle now was written, in this order. -/
theorem lines_received (h : s.Inv) (client : K) :
    s.sessions.handledBy client ++ lines '\n' (s.sessions.streambuf client) <+:
      (s.written client).map fun e => answerLine e.2 := by
  have hprefix : lines '\n' (s.sessions.received client) <+: lines '\n' (s.wire client) :=
    lines_prefix (h.received client)
  rw [h.sessions.bytes client, lines_unlines_append (h.sessions.whole client),
    h.lines_wire] at hprefix
  exact hprefix

theorem next_line (h : s.Inv) {client : K} {line rest : Text}
    (hline : getline '\n' (s.sessions.streambuf client) = some (line, rest)) :
    ∃ e, (s.written client)[(s.sessions.handledBy client).length]? = some e ∧
      line = answerLine e.2 := by
  obtain ⟨hsep, hbuf⟩ := getline_some hline
  obtain ⟨more, hmore⟩ := h.lines_received client
  rw [hbuf, lines_append hsep, List.append_assoc] at hmore
  have hget : ((s.written client).map fun e => answerLine e.2)[
      (s.sessions.handledBy client).length]? = some line := by
    rw [← hmore, List.getElem?_append_right (Nat.le_refl _), Nat.sub_self]
    rfl
  rw [List.getElem?_map, Option.map_eq_some_iff] at hget
  obtain ⟨e, he, heq⟩ := hget
  exact ⟨e, he, heq.symm⟩

/-- Before the first challenge there is nothing to handle. -/
theorem nothing_handled (h : s.Inv) (hnone : s.broadcast = []) : s.sessions.handled = [] := by
  rw [List.eq_nil_iff_forall_not_mem]
  rintro ⟨client, line⟩ hmem
  have hline : line ∈ s.sessions.handledBy client :=
    List.mem_map.mpr ⟨(client, line), List.mem_filter.mpr ⟨hmem, decide_eq_true rfl⟩, rfl⟩
  obtain ⟨e, he, -⟩ := List.mem_map.mp
    ((h.lines_received client).subset (List.mem_append_left _ hline))
  have hsent := List.mem_of_getElem? (h.written client e he)
  obtain ⟨c, hc, -⟩ := ((h.clients client).sent e.2 hsent).id
  rw [hnone] at hc
  exact List.not_mem_nil hc

/-! ### The steps -/

theorem generate (h : s.Inv) {draws : Draws ℚ} (hrange : Sessions.InRange draws)
    (hint : s.sessions.server.globalChallengeId + 1 < 2 ^ 31)
    (hstep : s.serve (.generate draws) = .ok s') : s'.Inv := by
  obtain ⟨sessions, hsessions, rfl⟩ := serve_ok hstep
  have hdrawn : Sessions.Drawn (.generate draws : Sessions.Action K) := hrange
  have hinv := (h.sessions.step hdrawn hsessions).1
  obtain rfl := generate_ok hsessions
  have hcounted := h.counted
  refine ⟨hinv, Int.add_nonneg hcounted (by decide), ?_, h.genuine, h.current, h.clients, h.written,
    h.once, h.received, h.decided⟩
  rintro c ⟨⟩
  exact ⟨draws, _, hrange, hcounted, hint, rfl⟩

theorem replace (h : s.Inv) {c : Challenge ℚ} (hc : s.sessions.server.generated = some c)
    (hstep : s.serve .replace = .ok s') :
    Inv { s' with broadcast := s'.broadcast ++ [c] } := by
  obtain ⟨sessions, hsessions, rfl⟩ := serve_ok hstep
  have hdrawn : Sessions.Drawn (.replace : Sessions.Action K) := trivial
  have hinv := (h.sessions.step hdrawn hsessions).1
  obtain rfl := replace_ok hc hsessions
  have hsub : s.broadcast ⊆ s.broadcast ++ [c] := List.subset_append_left _ _
  refine ⟨hinv, h.counted, nofun, ?_, ?_, fun client => (h.clients client).mono hsub, h.written,
    h.once, h.received, ?_⟩
  · intro c' hc'
    rcases List.mem_append.mp hc' with hold | hnew
    · exact h.genuine c' hold
    · rw [List.mem_singleton.mp hnew]
      exact h.generated c hc
  · intro c' hc'
    have hlast : (s.broadcast ++ [c]).getLast? = some c' := hc'
    rw [List.getLast?_concat] at hlast
    cases hlast
    rfl
  · -- a single challenge is the first one
    intro c' hsingle hhandled
    obtain ⟨hnone, -⟩ := List.append_eq_singleton_iff.mp hsingle |>.resolve_right
      fun hright => List.cons_ne_nil c [] hright.2
    exact absurd (h.nothing_handled hnone) hhandled

theorem write (h : s.Inv) {client : K} {i : Nat} (hstep : s.write client i = .ok s') : s'.Inv := by
  obtain ⟨r, hr, hnew, rfl⟩ := write_ok hstep
  refine ⟨h.sessions, h.counted, h.generated, h.genuine, h.current, h.clients, fun other => ?_,
    fun other => ?_, fun other => ?_, h.decided⟩
  · intro e he
    change e ∈ Function.update s.written client _ other at he
    by_cases heq : other = client
    · subst heq
      rw [Function.update_self] at he
      rcases List.mem_append.mp he with hold | hlast
      · exact h.written other e hold
      · rw [List.mem_singleton.mp hlast]
        exact hr
    · rw [Function.update_of_ne heq] at he
      exact h.written other e he
  · change ((Function.update s.written client _ other).map (·.1)).Nodup
    by_cases heq : other = client
    · subst heq
      rw [Function.update_self, List.map_append, List.nodup_append]
      refine ⟨h.once other, List.nodup_singleton _, ?_⟩
      intro j hj i' hi heq
      rw [List.map_singleton, List.mem_singleton] at hi
      rw [heq, hi] at hj
      exact hnew hj
    · rw [Function.update_of_ne heq]
      exact h.once other
  · rw [wire_write]
    exact (h.received other).trans (List.prefix_append _ _)

theorem receive (h : s.Inv) {client : K} {count : Nat}
    (hstep : s.serve (.receive client
      (((s.wire client).drop (s.sessions.received client).length).take count)) = .ok s') :
    s'.Inv := by
  obtain ⟨sessions, hsessions, rfl⟩ := serve_ok hstep
  have hdrawn : Sessions.Drawn (.receive client
    (((s.wire client).drop (s.sessions.received client).length).take count)) := trivial
  have hinv := (h.sessions.step hdrawn hsessions).1
  cases hsessions
  refine ⟨hinv, h.counted, h.generated, h.genuine, h.current, h.clients, h.written, h.once,
    fun other => ?_, h.decided⟩
  change Function.update s.sessions.received client _ other <+: s.wire other
  by_cases heq : other = client
  · subst heq
    obtain ⟨rest, hrest⟩ := h.received other
    rw [Function.update_self, ← hrest, List.drop_left]
    exact (List.prefix_append_right_inj _).mpr (List.take_prefix _ _)
  · rw [Function.update_of_ne heq]
    exact h.received other

theorem work [DecidableEq W] (h : s.Inv) {client : K} {action : Section W}
    (hstep : s.work deliveries client action = .ok s') : s'.Inv := by
  obtain ⟨hcarried, workers, hworkers, rfl⟩ := work_ok hstep
  refine ⟨h.sessions, h.counted, h.generated, h.genuine, h.current, fun other => ?_,
    fun other => ?_, h.once, h.received, h.decided⟩
  · change (Function.update s.clients client workers other).Sourced _ _
    by_cases heq : other = client
    · subst heq
      rw [Function.update_self]
      exact (h.clients other).step (fun c hc => (h.genuine c hc).plain) hcarried hworkers
    · rw [Function.update_of_ne heq]
      exact h.clients other
  · intro e he
    have hsent := h.written other e he
    change (Function.update s.clients client workers other).sent[e.1]? = some e.2
    by_cases heq : other = client
    · subst heq
      obtain ⟨more, hmore⟩ := Workers.sent_prefix hworkers
      obtain ⟨hlt, -⟩ := List.getElem?_eq_some_iff.mp hsent
      rw [Function.update_self, ← hmore, List.getElem?_append_left hlt]
      exact hsent
    · rw [Function.update_of_ne heq]
      exact hsent

/-- The line that is handled is a response, and the server does what its submission does. -/
theorem handle_ok (h : s.Inv) {client : K} (hstep : s.serve (.handle client) = .ok s') :
    ∃ e rest, (s.written client)[(s.sessions.handledBy client).length]? = some e ∧
      s' =
        { s with
          sessions :=
            { s.sessions with
              server := (s.sessions.server.processOrder (submissionOf e.2)).1
              streambuf := Function.update s.sessions.streambuf client rest
              handled := s.sessions.handled ++ [(client, answerLine e.2)] } } := by
  obtain ⟨sessions, hsessions, rfl⟩ := serve_ok hstep
  obtain ⟨line, rest, hline, rfl⟩ := Sessions.doRead_cases h.sessions hsessions
  obtain ⟨e, he, rfl⟩ := h.next_line hline
  have hne : answerLine e.2 ≠ [] := by simp [answerLine, key_ne_nil]
  have hread := (h.readable client (List.mem_of_getElem? he)).read
  refine ⟨e, rest, he, ?_⟩
  rw [if_neg hne, Server.afterLine, hread]

theorem last (h : s.Inv) {client : K} {e : Nat × Response ℚ} (he : e ∈ s.written client) :
    e.2.Sourced streamFormat s.broadcast ∧
      ∃ c ∈ s.broadcast, s.broadcast.getLast? = some c ∧ s.Current c := by
  have hsourced := (h.clients client).sent e.2 (List.mem_of_getElem? (h.written client e he))
  obtain ⟨c, hc, -⟩ := hsourced.id
  have hne : s.broadcast ≠ [] := List.ne_nil_of_mem hc
  have hlast := List.getLast?_eq_getLast_of_ne_nil hne
  exact ⟨hsourced, _, List.getLast_mem hne, hlast, h.current _ hlast⟩

/-- An answer to the current challenge finds a winner. -/
theorem declared (h : s.Inv) {client : K} {e : Nat × Response ℚ} (he : e ∈ s.written client)
    (hanswers : Answers streamFormat e.2 s.sessions.server.currentChallenge) :
    (s.sessions.server.processOrder (submissionOf e.2)).1.currentChallenge.winnerDeclared =
      true := by
  obtain ⟨-, c, hc, -, hcurrent⟩ := h.last he
  refine Server.processOrder_declared Server.ofList_responseKey ?_
  rw [Current] at hcurrent
  rw [hcurrent] at hanswers ⊢
  have hsame : Answers streamFormat e.2 c := hanswers
  exact hsame.matches_of (h.genuine c hc)

theorem handle (h : s.Inv) {client : K} (hstep : s.serve (.handle client) = .ok s') : s'.Inv := by
  obtain ⟨sessions, hsessions, heq⟩ := serve_ok hstep
  have hdrawn : Sessions.Drawn (.handle client) := trivial
  have hinv := (h.sessions.step hdrawn hsessions).1
  obtain ⟨e, rest, hnext, rfl⟩ := h.handle_ok hstep
  have he := List.mem_of_getElem? hnext
  obtain ⟨hcounted, hgenerated, hchallenge⟩ :=
    Server.processOrder_frame (submissionOf e.2) s.sessions.server
  injection heq with hsame
  subst hsame
  refine ⟨hinv, hcounted ▸ h.counted, hgenerated ▸ h.generated, h.genuine, fun c hc => ?_,
    h.clients, h.written, h.once, h.received, fun c hc _ => ?_⟩
  · have hbefore : s.sessions.server.currentChallenge = _ := h.current c hc
    rw [Current]
    refine hchallenge.trans ?_
    rw [hbefore]
  · obtain ⟨hsourced, c', -, hlast, hcurrent⟩ := h.last he
    refine h.declared he ?_
    rw [hc] at hsourced hlast
    cases hlast
    rw [Current] at hcurrent
    rw [hcurrent]
    exact hsourced.answers

theorem step [DecidableEq W] (h : s.Inv) {action : Action K W} (hdrawn : Drawn action)
    (hstep : s.step deliveries action = .ok s') : s'.Inv := by
  cases action with
  | generate draws =>
      rw [Exchange.step] at hstep
      split at hstep
      · rename_i hint
        exact h.generate hdrawn hint hstep
      · cases hstep
  | replace =>
      rw [Exchange.step] at hstep
      split at hstep
      · rename_i c hc
        obtain ⟨s'', hserved, rfl⟩ := Run.except_map_inv hstep
        exact h.replace hc hserved
      · cases hstep
  | work client action => exact h.work hstep
  | write client i => exact h.write hstep
  | receive client count => exact h.receive hstep
  | handle client => exact h.handle hstep

/-- The lines that arrive are read to their ends. -/
theorem defined [DecidableEq W] (h : s.Inv) (action : Action K W) (v : Unassigned) :
    s.step deliveries action ≠ .error (.server (.unassigned v)) := by
  have hserved : ∀ action, s.serve action ≠ .error (.server (.unassigned v)) := by
    intro action herror
    have hstep : s.sessions.step action = .error (.unassigned v) := by
      rw [serve] at herror
      split at herror <;> cases herror
      assumption
    obtain ⟨client, line, rest, -, hline, -, hshort⟩ :=
      (h.sessions.unassigned_iff action v).mp hstep
    obtain ⟨e, he, rfl⟩ := h.next_line hline
    have hread := (h.readable client (List.mem_of_getElem? he)).read
    rw [hshort.unread] at hread
    cases hread
  intro herror
  cases action with
  | generate draws =>
      rw [Exchange.step] at herror
      split at herror
      · exact hserved _ herror
      · cases herror
  | replace =>
      rw [Exchange.step] at herror
      split at herror
      · cases hreplaced : s.serve .replace with
        | ok s'' =>
            rw [hreplaced] at herror
            cases herror
        | error fault =>
            rw [hreplaced] at herror
            cases herror
            exact hserved _ hreplaced
      · cases herror
  | work client action =>
      rw [Exchange.step, Exchange.work] at herror
      split at herror
      · split at herror <;> cases herror
      · cases herror
  | write client i =>
      rw [Exchange.step, Exchange.write] at herror
      split at herror
      · split at herror <;> cases herror
      · cases herror
  | receive client count =>
      rw [Exchange.step] at herror
      exact hserved _ herror
  | handle client => exact hserved _ herror

/-- The lines a session has handled, as they were read. -/
theorem submissions (h : s.Inv) (client : K) :
    ∃ n, ((s.sessions.handledBy client).map readSubmission : List (Option Submission)) =
      ((s.written client).take n).map fun e => some (submissionOf e.2) := by
  obtain ⟨more, hmore⟩ := (List.prefix_append _ _).trans (h.lines_received client)
  refine ⟨(s.sessions.handledBy client).length, ?_⟩
  have htake : s.sessions.handledBy client =
      ((s.written client).take (s.sessions.handledBy client).length).map fun e =>
        answerLine e.2 := by
    rw [List.map_take, ← hmore, List.take_left]
  conv_lhs => rw [htake]
  rw [List.map_map]
  refine List.map_congr_left fun e he => ?_
  exact (h.readable client (List.mem_of_mem_take he)).read

end Inv

theorem zero_inv : (zero : Exchange K W).Inv where
  sessions := Sessions.zero_inv
  counted := Int.le_refl 0
  generated c hc := by cases hc
  genuine c hc := by cases hc
  current c hc := by cases hc
  clients _ := Workers.start_sourced
  written _ e he := by cases he
  once _ := List.nodup_nil
  received _ := List.prefix_rfl
  decided c hc := by cases hc

/-- Whatever the networks deliver and however the threads take turns: the submissions that a session
has read are what its client has written first; each response is written at most once and names what
was broadcast; no step reads a variable without a value; and after an answer to the current
challenge, or any line as long as there is only one challenge, that challenge has a winner. -/
theorem exchange_sound [DecidableEq W] (deliveries : K → List Text) (actions : List (Action K W))
    (hdrawn : ∀ action ∈ actions, Drawn action)
    (hrun : Run.run (step deliveries) actions zero = .ok s) :
    (∀ client, ∃ n,
        ((s.sessions.handledBy client).map readSubmission : List (Option Submission)) =
          ((s.written client).take n).map fun e => some (submissionOf e.2)) ∧
      (∀ client, ((s.written client).map (·.1)).Nodup ∧ ∀ e ∈ s.written client,
        (s.clients client).sent[e.1]? = some e.2 ∧ e.2.Sourced streamFormat s.broadcast) ∧
      (∀ action v, s.step deliveries action ≠ .error (.server (.unassigned v))) ∧
      (∀ client s', s.step deliveries (.handle client) = .ok s' →
        ∃ e, (s.written client)[(s.sessions.handledBy client).length]? = some e ∧
          (Answers streamFormat e.2 s.sessions.server.currentChallenge →
            s'.sessions.server.currentChallenge.winnerDeclared = true)) ∧
      ∀ c, s.broadcast = [c] → s.sessions.handled ≠ [] →
        s.sessions.server.currentChallenge.winnerDeclared = true := by
  have h : s.Inv := Run.run_invariant_on (fun _ _ _ hdrawn h hstep => h.step hdrawn hstep) hdrawn
    zero_inv hrun
  refine ⟨h.submissions, fun client => ⟨h.once client, fun e he => ⟨h.written client e he, ?_⟩⟩,
    h.defined, fun client s' hstep => ?_, h.decided⟩
  · exact (h.last he).1
  · obtain ⟨e, rest, he, rfl⟩ := h.handle_ok hstep
    exact ⟨e, he, h.declared (List.mem_of_getElem? he)⟩

/-- The first challenge is broadcast and the next one generated, and nothing has arrived yet. -/
def firstBroadcast : List (Action Bool Bool) :=
  [.generate Sessions.tenDraws, .replace, .receive true 9, .generate Sessions.tenDraws]

theorem firstBroadcast_drawn : ∀ action ∈ firstBroadcast, Drawn action := by
  simp [firstBroadcast, Drawn, Sessions.tenDraws_inRange]

theorem exchange_sound_sample : ∃ s : Exchange Bool Bool,
    Run.run (step fun _ => []) firstBroadcast zero = .ok s ∧
      s.broadcast = [generateChallenge Sessions.tenDraws 0] ∧
      ∀ action v, s.step (fun _ => []) action ≠ .error (.server (.unassigned v)) :=
  ⟨_, rfl, rfl, (exchange_sound (fun _ => []) firstBroadcast firstBroadcast_drawn rfl).2.2.1⟩

end Exchange

end HftProject
