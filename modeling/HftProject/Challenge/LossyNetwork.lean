import HftProject.Challenge.Sessions
import HftProject.Challenge.Workers

/-!
Packets that are lost, doubled and reordered. UDP delivers the fragments of the challenges in any
order, each of them any number of times or not at all, and any number of workers process what
arrives. Whatever the globals then hold, they hold of a challenge that was broadcast, and a
response names no id, no target and no pair of prices but those (`responses_sourced`). It can
still name the id of one challenge and the prices of another, unless there is only one.
-/

namespace HftProject

open Challenge Lines

variable {D : Type} (fmt : PriceFormat D)

/-- The packet is a fragment of one of the challenges. -/
def Carried (fragmentSize : Nat) (cs : List (Challenge D)) (packet : Text) : Prop :=
  ∃ c ∈ cs, packet ∈ fragments fragmentSize (c.message fmt)

instance (fragmentSize : Nat) (cs : List (Challenge D)) (packet : Text) :
    Decidable (Carried fmt fragmentSize cs packet) := inferInstanceAs (Decidable (∃ c ∈ cs, _))

/-- One of the challenges quotes the ticker so. -/
def Quoted (cs : List (Challenge D)) (ticker : Text) (quote : D × D) : Prop :=
  ∃ c ∈ cs, ∃ bid ask, .sec ticker bid ask ∈ c.quotes ∧ quote = (fmt.shown bid, fmt.shown ask)

/-- What the response names was broadcast. -/
structure Response.Sourced (cs : List (Challenge D)) (response : Response D) : Prop where
  id : ∃ c ∈ cs, response.challengeId = c.challengeId
  ticker : ∃ c ∈ cs, response.ticker = c.targetTicker.toList
  quote : Quoted fmt cs response.ticker (response.bid, response.ask)

/-- What the globals hold was broadcast. -/
structure Client.Sourced (cs : List (Challenge D)) (s : Client D) : Prop where
  id : s.currentChallengeId = -1 ∨ ∃ c ∈ cs, s.currentChallengeId = c.challengeId
  target : s.currentTargetTicker = [] ∨ ∃ c ∈ cs, s.currentTargetTicker = c.targetTicker.toList
  quotes : ∀ ticker quote, s.currentMarketData ticker = some quote → Quoted fmt cs ticker quote

/-- What a packet says was broadcast. -/
structure Parsed.Sourced (cs : List (Challenge D)) (parsed : Parsed D) : Prop where
  id : ∀ id, parsed.challengeId = some id → ∃ c ∈ cs, id = c.challengeId
  target : ∀ ticker, parsed.target = some ticker → ∃ c ∈ cs, ticker = c.targetTicker.toList
  quotes : ∀ ticker quote, (ticker, quote) ∈ parsed.secUpdates → Quoted fmt cs ticker quote

variable {fmt} {cs cs' : List (Challenge D)} {fragmentSize : Nat}

/-! ### More challenges -/

theorem Quoted.mono {ticker : Text} {quote : D × D} (h : Quoted fmt cs ticker quote)
    (hsub : cs ⊆ cs') : Quoted fmt cs' ticker quote := by
  obtain ⟨c, hc, hquoted⟩ := h
  exact ⟨c, hsub hc, hquoted⟩

theorem Response.Sourced.mono {response : Response D} (h : response.Sourced fmt cs)
    (hsub : cs ⊆ cs') : response.Sourced fmt cs' where
  id := h.id.imp fun _ hid => ⟨hsub hid.1, hid.2⟩
  ticker := h.ticker.imp fun _ hticker => ⟨hsub hticker.1, hticker.2⟩
  quote := h.quote.mono hsub

theorem Client.Sourced.mono {s : Client D} (h : s.Sourced fmt cs) (hsub : cs ⊆ cs') :
    s.Sourced fmt cs' where
  id := h.id.imp_right fun ⟨c, hc, hid⟩ => ⟨c, hsub hc, hid⟩
  target := h.target.imp_right fun ⟨c, hc, htarget⟩ => ⟨c, hsub hc, htarget⟩
  quotes ticker quote hquote := (h.quotes ticker quote hquote).mono hsub

/-! ### The sections -/

theorem Carried.parsePacket {packet : Text} (h : Carried fmt fragmentSize cs packet)
    (hplain : ∀ c ∈ cs, c.Plain) : (parsePacket fmt packet).Sourced fmt cs := by
  obtain ⟨c, hc, hfragment⟩ := h
  obtain ⟨i, hi⟩ := List.mem_iff_getElem?.mp hfragment
  rw [Workers.parsePacket_fragment (hplain c hc) hi]
  refine ⟨fun id hid => ⟨c, hc, ?_⟩, fun ticker htarget => ⟨c, hc, ?_⟩,
    fun ticker quote hquote => ⟨c, hc, ?_⟩⟩
  · by_cases hline : c.idLine ∈ c.whole fmt fragmentSize i
    · rw [content_challengeId fmt hline] at hid
      exact (Option.some.inj hid).symm
    · rw [content_challengeId_none fmt hline] at hid
      cases hid
  · by_cases hline : c.targetLine ∈ c.whole fmt fragmentSize i
    · rw [content_target fmt hline] at htarget
      exact (Option.some.inj htarget).symm
    · rw [content_target_none fmt hline] at htarget
      cases htarget
  · obtain ⟨bid, ask, hline, hshown⟩ := (mem_content_secUpdates fmt).mp hquote
    exact ⟨bid, ask, (sec_mem_whole fmt hline).1, hshown⟩

namespace Client.Sourced

variable {s : Client D}

theorem start : (Client.start : Client D).Sourced fmt cs :=
  ⟨.inl rfl, .inl rfl, fun _ _ hquote => by cases hquote⟩

theorem newChallenge (h : s.Sourced fmt cs) {found : Option Int}
    (hfound : ∀ id, found = some id → ∃ c ∈ cs, id = c.challengeId) :
    (s.newChallenge found).Sourced fmt cs := by
  cases found with
  | none => exact h
  | some id =>
      rw [Client.newChallenge]
      split
      · exact ⟨.inr (hfound id rfl), .inl rfl, fun _ _ hquote => by cases hquote⟩
      · exact h

theorem update (h : s.Sourced fmt cs) {parsed : Parsed D} (hparsed : parsed.Sourced fmt cs) :
    (s.update parsed).Sourced fmt cs := by
  have hnew := h.newChallenge hparsed.id
  refine ⟨hnew.id, ?_, fun ticker quote hquote => ?_⟩
  · cases htarget : parsed.target with
    | none =>
        rw [Client.update, htarget]
        exact hnew.target
    | some ticker =>
        rw [Client.update, htarget]
        exact .inr (hparsed.target ticker htarget)
  · rcases applyUpdates_mem _ hquote with hold | hnewQuote
    · exact hnew.quotes ticker quote hold
    · exact hparsed.quotes ticker quote hnewQuote

theorem check (h : s.Sourced fmt cs) {response : Response D} (hcheck : s.check = some response) :
    response.Sourced fmt cs := by
  obtain ⟨hid, htarget, quote, hquote, rfl⟩ := check_eq_some.mp hcheck
  exact ⟨h.id.resolve_left hid, h.target.resolve_left htarget, h.quotes _ quote hquote⟩

theorem reset (h : s.Sourced fmt cs) : s.reset.Sourced fmt cs :=
  ⟨h.id, .inl rfl, fun _ _ hquote => by cases hquote⟩

end Client.Sourced

/-! ### Any interleaving -/

namespace Workers

variable {W : Type} [DecidableEq W] {packets : List Text} {s s' : Workers W D}

/-- The packet that a section takes. -/
def packetOf (packets : List Text) : Section W → Option Text
  | .update _ i => packets[i]?
  | .check _ => none
  | .reset _ => none

/-- The globals and the responses were broadcast. -/
structure Sourced (fmt : PriceFormat D) (cs : List (Challenge D)) (s : Workers W D) : Prop where
  client : s.client.Sourced fmt cs
  sent : ∀ response ∈ s.sent, response.Sourced fmt cs

theorem sent_prefix {action : Section W} (hstep : step fmt packets action s = .ok s') :
    s.sent <+: s'.sent := by
  cases action with
  | update worker i =>
      obtain ⟨-, -, packet, -, rfl⟩ := step_update hstep
      exact List.prefix_rfl
  | check worker =>
      obtain ⟨-, ⟨-, rfl⟩ | ⟨response, -, rfl⟩⟩ := step_check hstep
      · exact List.prefix_rfl
      · exact List.prefix_append _ _
  | reset worker =>
      obtain ⟨-, rfl⟩ := step_reset hstep
      exact List.prefix_rfl

omit [DecidableEq W] in
theorem Sourced.mono (h : s.Sourced fmt cs) (hsub : cs ⊆ cs') : s.Sourced fmt cs' :=
  ⟨h.client.mono hsub, fun response hsent => (h.sent response hsent).mono hsub⟩

omit [DecidableEq W] in
theorem start_sourced : (start Client.start : Workers W D).Sourced fmt cs :=
  ⟨.start, fun _ hsent => by cases hsent⟩

theorem Sourced.step (h : s.Sourced fmt cs) (hplain : ∀ c ∈ cs, c.Plain) {action : Section W}
    (hpacket : ∀ packet ∈ packetOf packets action, Carried fmt fragmentSize cs packet)
    (hstep : step fmt packets action s = .ok s') : s'.Sourced fmt cs := by
  cases action with
  | update worker i =>
      obtain ⟨-, -, packet, htaken, rfl⟩ := step_update hstep
      have hparsed := (hpacket packet htaken).parsePacket hplain
      exact ⟨h.client.update hparsed, h.sent⟩
  | check worker =>
      obtain ⟨-, ⟨-, rfl⟩ | ⟨response, hcheck, rfl⟩⟩ := step_check hstep
      · exact ⟨h.client, h.sent⟩
      · refine ⟨h.client, fun other hother => ?_⟩
        rcases List.mem_append.mp hother with hold | hnew
        · exact h.sent other hold
        · rw [List.mem_singleton.mp hnew]
          exact h.client.check hcheck
  | reset worker =>
      obtain ⟨-, rfl⟩ := step_reset hstep
      exact ⟨h.client.reset, h.sent⟩

end Workers

/-- Over a single challenge a response with sources answers it. -/
theorem Response.Sourced.answers {c : Challenge D} {response : Response D}
    (h : response.Sourced fmt [c]) : Answers fmt response c := by
  obtain ⟨_, hid, hchallenge⟩ := h.id
  obtain ⟨_, htarget, hticker⟩ := h.ticker
  obtain ⟨_, hquoted, bid, ask, hline, hshown⟩ := h.quote
  rw [List.mem_singleton] at hid htarget hquoted
  rw [hid] at hchallenge
  rw [htarget] at hticker
  rw [hquoted] at hline
  obtain ⟨entry, hentry, heq⟩ := List.mem_map.mp hline
  injection heq with hname hbid hask
  have hkey : entry.1 = c.targetTicker := String.toList_inj.mp (hname.trans hticker)
  subst hbid hask
  injection hshown with hshownBid hshownAsk
  exact ⟨hchallenge, hticker, entry.2.1, entry.2.2, hkey ▸ hentry, hshownBid, hshownAsk⟩

namespace Workers

variable {W : Type} [DecidableEq W] {packets : List Text} {s : Workers W D}

/-- Fragments of plain challenges, lost, doubled and reordered, and any number of workers in any
order: the id, the target and the prices of a response were broadcast, and if there is but one
challenge the response answers it. -/
theorem responses_sourced (hplain : ∀ c ∈ cs, c.Plain)
    (hpackets : ∀ packet ∈ packets, Carried fmt fragmentSize cs packet)
    {sections : List (Section W)}
    (hrun : Run.run (step fmt packets) sections (start Client.start) = .ok s) :
    ∀ response ∈ s.sent, response.Sourced fmt cs ∧ ∀ c, cs = [c] → Answers fmt response c := by
  have htaken : ∀ (action : Section W), ∀ packet ∈ packetOf packets action,
      Carried fmt fragmentSize cs packet := by
    intro action packet hpacket
    cases action with
    | update worker i => exact hpackets packet (List.mem_of_getElem? hpacket)
    | check worker => cases hpacket
    | reset worker => cases hpacket
  have hlast : s.Sourced fmt cs :=
    Run.run_invariant (fun action _ _ h hstep => h.step hplain (htaken action) hstep)
      start_sourced hrun
  intro response hsent
  refine ⟨hlast.sent response hsent, ?_⟩
  rintro c rfl
  exact (hlast.sent response hsent).answers

/-- The next challenge, with other prices. -/
def dearTicker : Challenge Nat := ⟨2, "A", [("A", 601, 608)], false, ""⟩

theorem dearTicker_plain : dearTicker.Plain where
  idPos := by decide
  idInt := by decide
  tickers := by
    intro entry hentry
    obtain rfl := List.mem_singleton.mp hentry
    exact ⟨by decide, by decide, by decide, by decide⟩
  keys := by decide
  target := by decide

/-- The last fragment of the second challenge comes first, the first of the first one comes late
and twice, and nothing else comes. -/
def latePackets : List Text :=
  let first := (fragments 24 (oneTicker.message tenths))[0]!
  [(fragments 24 (dearTicker.message tenths))[1]!, first, first]

def lateSections : List (Section Bool) :=
  [.update true 0, .update false 2, .check true, .check false, .reset true]

/-- The prices of the first challenge are sent for the second one, by two workers. -/
theorem responses_sourced_sample : ∃ s : Workers Bool Nat,
    Run.run (step tenths latePackets) lateSections (start Client.start) = .ok s ∧
      s.sent = [⟨2, ['A'], 575, 582⟩, ⟨2, ['A'], 575, 582⟩] ∧
      ∀ response ∈ s.sent, response.Sourced tenths [oneTicker, dearTicker] ∧
        ∀ c, [oneTicker, dearTicker] = [c] → Answers tenths response c := by
  have hpackets : ∀ packet ∈ latePackets, Carried tenths 24 [oneTicker, dearTicker] packet := by
    decide +kernel
  have hsent : (Run.run (step tenths latePackets) lateSections (start Client.start)).map
      (fun s : Workers Bool Nat => s.sent) = .ok [⟨2, ['A'], 575, 582⟩, ⟨2, ['A'], 575, 582⟩] := by
    decide +kernel
  obtain ⟨s, hrun, hlast⟩ := Run.except_map_inv hsent
  exact ⟨s, hrun, hlast, responses_sourced (by simp [oneTicker_plain, dearTicker_plain]) hpackets
    hrun⟩

end Workers

end HftProject
