import HftProject.Challenge.Fragmentation
import HftProject.Lib.Run

/-!
A client over many challenges. Its globals survive from one challenge to the next, and the
quotes of the next one arrive before its id. Every response answers the challenge that it names
as long as the client sends nothing between the first quotes of a challenge and its id
(`responses_answer`).
-/

namespace HftProject

open Challenge Lines

variable {D : Type} (fmt : PriceFormat D)

/-- The response names the challenge, its target, and the target's pair as it was broadcast. -/
def Answers (response : Response D) (c : Challenge D) : Prop :=
  response.challengeId = c.challengeId ∧ response.ticker = c.targetTicker.toList ∧
    ∃ bid ask, (c.targetTicker, bid, ask) ∈ c.marketData ∧
      response.bid = fmt.shown bid ∧ response.ask = fmt.shown ask

/-- A client, the challenges that were broadcast to it, and what it has sent. -/
structure Session (D : Type) where
  client : Client D
  broadcast : List (Challenge D)
  sent : List (Response D)

namespace Session

def start : Session D := ⟨Client.start, [], []⟩

/-- A challenge is built and fragmented, and its fragments are processed in order. -/
def step (c : Challenge D) (s : Session D) : Except Empty (Session D) :=
  let (client, responses) :=
    s.client.processAll fmt (fragments maxUdpPayload (c.message fmt))
  .ok ⟨client, s.broadcast ++ [c], s.sent ++ responses⟩

theorem step_eq (c : Challenge D) (s : Session D) :
    step fmt c s = .ok
      ⟨(s.client.processAll fmt (fragments maxUdpPayload (c.message fmt))).1, s.broadcast ++ [c],
        s.sent ++ (s.client.processAll fmt (fragments maxUdpPayload (c.message fmt))).2⟩ := rfl

/-- What was sent names a challenge that was broadcast, and answers the challenge it names. -/
def Answered (s : Session D) : Prop :=
  ∀ response ∈ s.sent, (∃ c ∈ s.broadcast, response.challengeId = c.challengeId) ∧
    ∀ c ∈ s.broadcast, response.challengeId = c.challengeId → Answers fmt response c

end Session

/-- The client sends nothing before it has read the id: it has had no id yet; or it is quiet
up to the fragment with the whole `CHALLENGE_ID` line; or that line is cut, the client is quiet in
all fragments, and the new target is cut or not quoted either. -/
def Client.Undisturbed (fragmentSize : Nat) (c : Challenge D) (s : Client D) : Prop :=
  s.currentChallengeId = -1 ∨
    (∃ k, c.idLine ∈ c.whole fmt fragmentSize k ∧ s.Quiet fmt fragmentSize c k) ∨
    ((∀ k, c.idLine ∉ c.whole fmt fragmentSize k) ∧
      s.Quiet fmt fragmentSize c (c.numFragments fmt fragmentSize) ∧
      ((∀ k, c.targetLine ∉ c.whole fmt fragmentSize k) ∨
        (s.currentMarketData c.targetTicker.toList = none ∧
          ∀ k bid ask, .sec c.targetTicker.toList bid ask ∉ c.whole fmt fragmentSize k)))

variable {c : Challenge D} {fragmentSize : Nat}

/-! ### After the id -/

/-- The client holds of the challenge what it holds. -/
structure Client.Holds (c : Challenge D) (s : Client D) : Prop where
  id : s.currentChallengeId = c.challengeId
  target : s.currentTargetTicker = [] ∨ s.currentTargetTicker = c.targetTicker.toList
  quotes : ∀ quote, s.currentMarketData c.targetTicker.toList = some quote →
    ∃ bid ask, (c.targetTicker, bid, ask) ∈ c.marketData ∧
      quote = (fmt.shown bid, fmt.shown ask)

namespace Client.Holds

variable {fmt} {s : Client D}

theorem check (h : s.Holds fmt c) {response : Response D} (hsent : s.check = some response) :
    Answers fmt response c := by
  obtain ⟨-, htarget, quote, hquote, rfl⟩ := check_eq_some.mp hsent
  have hticker := h.target.resolve_left htarget
  rw [hticker] at hquote
  obtain ⟨bid, ask, hentry, rfl⟩ := h.quotes quote hquote
  exact ⟨h.id, hticker, bid, ask, hentry, rfl, rfl⟩

theorem reset (h : s.Holds fmt c) : s.reset.Holds fmt c :=
  ⟨h.id, .inl rfl, fun _ hquote => by cases hquote⟩

theorem update (h : s.Holds fmt c) {parsed : Parsed D}
    (honly : OnlyTarget c.targetTicker.toList parsed) : (s.update parsed).Holds fmt c := by
  rcases honly with rfl | rfl
  · exact h
  · exact ⟨h.id, .inr rfl, h.quotes⟩

theorem processParsed {packets : List (Parsed D)}
    (honly : ∀ parsed ∈ packets, OnlyTarget c.targetTicker.toList parsed)
    (h : s.Holds fmt c) :
    (∀ response ∈ (Client.processParsed packets s).2, Answers fmt response c) ∧
      (Client.processParsed packets s).1.Holds fmt c := by
  induction packets generalizing s with
  | nil => exact ⟨by simp [Client.processParsed], h⟩
  | cons first rest ih =>
      have hupdate := h.update (honly first List.mem_cons_self)
      have hrest := fun s' hs' => ih (s := s')
        (fun parsed hmem => honly parsed (List.mem_cons_of_mem first hmem)) hs'
      rw [processParsed_cons]
      rcases process_cases first s with ⟨-, hprocess⟩ | ⟨response, hcheck, hprocess⟩
      · rw [hprocess]
        exact hrest _ hupdate
      · rw [hprocess]
        obtain ⟨hsent, hlast⟩ := hrest _ hupdate.reset
        refine ⟨fun response' hmem => ?_, hlast⟩
        rcases List.mem_cons.mp hmem with rfl | hlater
        · exact hupdate.check hcheck
        · exact hsent response' hlater

end Client.Holds

theorem opened_holds (k : Nat) : (c.opened fmt fragmentSize k).Holds fmt c := by
  refine ⟨rfl, .inl rfl, fun quote hquote => ?_⟩
  obtain ⟨bid, ask, hline, rfl⟩ := opened_quote fmt hquote
  obtain ⟨entry, hentry, heq⟩ := List.mem_map.mp (sec_mem_whole fmt hline).1
  injection heq with hticker hbid hask
  obtain rfl := hbid
  obtain rfl := hask
  have hkey : entry.1 = c.targetTicker := String.toList_inj.mp hticker
  exact ⟨entry.2.1, entry.2.2, hkey ▸ hentry, rfl⟩

/-! ### One challenge -/

variable {s : Client D}

/-- The `CHALLENGE_ID` line is cut, and nothing is sent. -/
theorem nothing_sent_of_cut (hcut : ∀ k, c.idLine ∉ c.whole fmt fragmentSize k)
    (h : s.Undisturbed fmt fragmentSize c) :
    (Client.processParsed ((List.range (c.numFragments fmt fragmentSize)).map
      (c.content fmt fragmentSize)) s).2 = [] := by
  have hnoId := contents_noId fmt (List.range (c.numFragments fmt fragmentSize)) fun j _ => hcut j
  by_cases hid : s.currentChallengeId = -1
  · have hsent := (Client.processParsed_sameId hnoId s).2
    exact List.eq_nil_iff_forall_not_mem.mpr fun response hmem => (hsent response hmem).2 hid
  obtain ⟨-, hquiet, hnew⟩ := (h.resolve_left hid).resolve_left fun ⟨k, hk, _⟩ => hcut k hk
  rcases hnew with hnoTarget | ⟨hunquoted, hnoQuote⟩
  · exact (quiet_iff fmt fun j _ => ⟨hcut j, hnoTarget j⟩).mpr hquiet
  -- neither the new target is quoted nor the old one, if there is one
  have hwaits : s.currentTargetTicker ≠ [] → ∀ j < c.numFragments fmt fragmentSize,
      s.currentMarketData s.currentTargetTicker = none ∧
        ∀ bid ask, .sec s.currentTargetTicker bid ask ∉ c.whole fmt fragmentSize j :=
    fun hset => (hquiet.resolve_left hid).resolve_left hset
  have hbeside : ∀ parsed ∈ (List.range (c.numFragments fmt fragmentSize)).map
      (c.content fmt fragmentSize), Client.Beside (fun ticker => ticker = c.targetTicker.toList ∨
        (s.currentTargetTicker ≠ [] ∧ ticker = s.currentTargetTicker)) parsed := by
    intro parsed hmem
    refine ⟨hnoId parsed hmem, fun ticker htarget => ?_, fun ticker quote hquote => ?_⟩
    · obtain ⟨j, -, rfl⟩ := List.mem_map.mp hmem
      by_cases hline : c.targetLine ∈ c.whole fmt fragmentSize j
      · rw [content_target fmt hline] at htarget
        exact .inl (Option.some.inj htarget).symm
      · rw [content_target_none fmt hline] at htarget
        cases htarget
    · obtain ⟨j, hj, rfl⟩ := List.mem_map.mp hmem
      obtain ⟨bid, ask, hline, -⟩ := (mem_content_secUpdates fmt).mp hquote
      rintro (rfl | ⟨hset, rfl⟩)
      · exact hnoQuote j bid ask hline
      · exact (hwaits hset j (List.mem_range.mp hj)).2 bid ask hline
  cases hn : c.numFragments fmt fragmentSize with
  | zero => rfl
  | succ n =>
      rw [hn] at hbeside hwaits
      refine (Client.Silent.processParsed hbeside ⟨?_, ?_⟩).1
      · by_cases hset : s.currentTargetTicker = []
        · exact .inl hset
        · exact .inr (.inr ⟨hset, rfl⟩)
      · rintro ticker (rfl | ⟨hset, rfl⟩)
        · exact hunquoted
        · exact (hwaits hset 0 (Nat.succ_pos n)).1

/-- What an undisturbed client sends of a challenge answers it. -/
theorem processAll_answers (hc : c.Plain) (hsize : 0 < fragmentSize)
    (hid : s.currentChallengeId ≠ c.challengeId) (h : s.Undisturbed fmt fragmentSize c) :
    (∀ response ∈ (s.processAll fmt (fragments fragmentSize (c.message fmt))).2,
        Answers fmt response c) ∧
      ((s.processAll fmt (fragments fragmentSize (c.message fmt))).1.currentChallengeId =
          s.currentChallengeId ∨
        (s.processAll fmt (fragments fragmentSize (c.message fmt))).1.currentChallengeId =
          c.challengeId) := by
  rw [Client.processAll_eq, hc.parsePacket_fragments]
  by_cases hwhole : ∃ k, c.idLine ∈ c.whole fmt fragmentSize k
  · obtain ⟨k, hk⟩ := hwhole
    obtain ⟨rest, hrange, hrest⟩ := range_split (lt_numFragments fmt hsize hk)
    have hquiet : s.Quiet fmt fragmentSize c k := by
      rcases h with hunset | ⟨k', hk', hquiet⟩ | ⟨hcut, -⟩
      · exact .inl hunset
      · exact idLine_unique fmt hk' hk ▸ hquiet
      · exact absurd hk (hcut k)
    have hsame := (Client.processParsed_sameId (contents_noId fmt (List.range k) fun j hj =>
      (not_mem_whole_of_before fmt hk (List.mem_range.mp hj)).1) s).1
    rw [hrange, List.map_append, Client.processParsed_append, (before_iff_quiet fmt hk).mpr hquiet,
      processParsed_behind fmt (hsame.symm ▸ hid) hk fun j hj => ((hrest j).mp hj).1]
    obtain ⟨hsent, hlast⟩ :=
      (opened_holds fmt k).processParsed (onlyTarget_targetOf fmt (k :: rest))
    exact ⟨hsent, .inr hlast.id⟩
  · have hcut : ∀ k, c.idLine ∉ c.whole fmt fragmentSize k := fun k hk => hwhole ⟨k, hk⟩
    rw [nothing_sent_of_cut fmt hcut h]
    have hnoId := contents_noId fmt (List.range (c.numFragments fmt fragmentSize)) fun j _ => hcut j
    exact ⟨by simp, .inl (Client.processParsed_sameId hnoId s).1⟩

/-! ### Many challenges -/

namespace Session

/-- What holds of a session between two challenges. -/
structure Invariant (s : Session D) : Prop where
  answered : s.Answered fmt
  knownId : s.client.currentChallengeId = -1 ∨
    ∃ c ∈ s.broadcast, s.client.currentChallengeId = c.challengeId

variable {fmt} {s s' : Session D}

theorem Invariant.step (h : s.Invariant fmt) (hc : c.Plain)
    (hnew : ∀ c' ∈ s.broadcast, c'.challengeId ≠ c.challengeId)
    (hundisturbed : s.client.Undisturbed fmt maxUdpPayload c) (hstep : step fmt c s = .ok s') :
    s'.Invariant fmt ∧ s'.broadcast = s.broadcast ++ [c] := by
  have hid : s.client.currentChallengeId ≠ c.challengeId := by
    rcases h.knownId with hunset | ⟨c', hc', hknown⟩
    · have hpos := hc.idPos
      omega
    · exact hknown ▸ hnew c' hc'
  obtain ⟨hsent, hlast⟩ := processAll_answers fmt hc (by decide) hid hundisturbed
  cases hstep
  refine ⟨⟨fun response hmem => ?_, ?_⟩, rfl⟩
  · rcases List.mem_append.mp hmem with hold | hfresh
    · obtain ⟨⟨c₀, hc₀, hnamed⟩, hanswers⟩ := h.answered response hold
      refine ⟨⟨c₀, List.mem_append_left _ hc₀, hnamed⟩, fun c' hc' hname => ?_⟩
      rcases List.mem_append.mp hc' with hc' | hc'
      · exact hanswers c' hc' hname
      · obtain rfl := List.mem_singleton.mp hc'
        exact absurd (hnamed.symm.trans hname) (hnew c₀ hc₀)
    · have hanswer := hsent response hfresh
      refine ⟨⟨c, List.mem_append_right _ List.mem_cons_self, hanswer.1⟩, fun c' hc' hname => ?_⟩
      rcases List.mem_append.mp hc' with hc' | hc'
      · exact absurd (hname.symm.trans hanswer.1) (hnew c' hc')
      · exact List.mem_singleton.mp hc' ▸ hanswer
  · rcases hlast with hsame | hnow
    · rcases h.knownId with hunset | ⟨c', hc', hknown⟩
      · exact .inl (hsame.trans hunset)
      · exact .inr ⟨c', List.mem_append_left _ hc', hsame.trans hknown⟩
    · exact .inr ⟨c, List.mem_append_right _ List.mem_cons_self, hnow⟩

theorem Invariant.always {cs : List (Challenge D)} (h : s.Invariant fmt)
    (hplain : ∀ c ∈ cs, c.Plain) (hids : ((s.broadcast ++ cs).map (·.challengeId)).Nodup)
    (hsteps : Run.Steps (Session.step fmt) cs s fun c s =>
      s.client.Undisturbed fmt maxUdpPayload c) :
    Run.Always (Session.step fmt) cs s (Answered fmt) := by
  induction cs generalizing s with
  | nil => exact Run.always_nil.mpr h.answered
  | cons c cs ih =>
      rw [Run.steps_cons] at hsteps
      refine Run.always_cons.mpr ⟨h.answered, fun s' hstep => ?_⟩
      have hnew : ∀ c' ∈ s.broadcast, c'.challengeId ≠ c.challengeId := by
        intro c' hc' heq
        rw [List.map_append, List.nodup_append] at hids
        exact hids.2.2 _ (List.mem_map_of_mem hc') _ (List.mem_map_of_mem List.mem_cons_self) heq
      obtain ⟨h', hbroadcast⟩ := h.step (hplain c List.mem_cons_self) hnew hsteps.1 hstep
      refine ih h' (fun c' hc' => hplain c' (List.mem_cons_of_mem c hc')) ?_ (hsteps.2 s' hstep)
      rw [hbroadcast, List.append_assoc]
      exact hids

variable (fmt)

/-- Challenges with distinct ids, each to an undisturbed client: every response answers the
challenge it names. -/
theorem responses_answer {cs : List (Challenge D)} (hplain : ∀ c ∈ cs, c.Plain)
    (hids : (cs.map (·.challengeId)).Nodup)
    (hsteps : Run.Steps (step fmt) cs start fun c s =>
      s.client.Undisturbed fmt maxUdpPayload c) :
    Run.Always (step fmt) cs start (Answered fmt) :=
  Invariant.always ⟨by simp [Answered, start], .inl rfl⟩ hplain hids hsteps

/-- Two challenges of one fragment each: the second one finds the first one answered. -/
theorem responses_answer_sample :
    Run.Always (step tenths) [oneTicker, { oneTicker with challengeId := 2 }] start
      (Answered tenths) := by
  have hsecond : ({ oneTicker with challengeId := 2 } : Challenge Nat).Plain :=
    ⟨by decide, by decide, oneTicker_plain.tickers, oneTicker_plain.keys, oneTicker_plain.target⟩
  refine responses_answer tenths (by simp [oneTicker_plain, hsecond]) (by decide) ?_
  refine Run.steps_cons.mpr ⟨.inl rfl, fun s hs => ?_⟩
  refine Run.steps_cons.mpr ⟨?_, fun _ _ => Run.steps_nil⟩
  rw [step_eq] at hs
  cases hs
  exact .inr (.inl ⟨0, by decide +kernel, .inr (.inl (by decide +kernel))⟩)

end Session

/-! ### A quote that comes before its id -/

/-- A client that has read the `CHALLENGE_ID` and the `TARGET` line in the last fragment, and the
target's `SEC` line in an earlier one, waits for another quote of the target. -/
theorem left_waiting (hc : c.Plain) (hid : s.currentChallengeId ≠ c.challengeId) {k : Nat}
    (hk : c.idLine ∈ c.whole fmt fragmentSize k) (hlast : c.numFragments fmt fragmentSize = k + 1)
    (htarget : c.targetLine ∈ c.whole fmt fragmentSize k)
    (hearly : ∀ bid ask, .sec c.targetTicker.toList bid ask ∉ c.whole fmt fragmentSize k) :
    (s.processAll fmt (fragments fragmentSize (c.message fmt))).1.currentChallengeId =
        c.challengeId ∧
      (s.processAll fmt (fragments fragmentSize (c.message fmt))).1.currentTargetTicker =
        c.targetTicker.toList ∧
      (s.processAll fmt (fragments fragmentSize (c.message fmt))).1.currentMarketData
        c.targetTicker.toList = none := by
  have hsame := (Client.processParsed_sameId (contents_noId fmt (List.range k) fun j hj =>
      (not_mem_whole_of_before fmt hk (List.mem_range.mp hj)).1) s).1
  have hsilent := opened_silent fmt hearly
  have honly : Client.OnlyTarget c.targetTicker.toList (c.targetOf fmt fragmentSize k) :=
    onlyTarget_targetOf fmt [k] _ List.mem_cons_self
  have hunquoted := (hsilent.update honly.beside).unquoted _ rfl
  have hprocess := hsilent.process honly.beside
  rw [Client.processAll_eq, hc.parsePacket_fragments, hlast, List.range_succ, List.map_append,
    Client.processParsed_append,
    processParsed_behind fmt (hsame.symm ▸ hid) hk (List.forall_mem_nil _), List.map_cons,
    Client.processParsed_cons, hprocess]
  refine ⟨rfl, ?_, hunquoted⟩
  rw [targetOf, content_target fmt htarget]
  rfl

/-- A client that waits for a quote answers with that of the next challenge, under its own
id, if the quote is in the first fragment and the new id is not. -/
theorem answered_early (hc : c.Plain) (hset : s.currentChallengeId ≠ -1)
    (htarget : s.currentTargetTicker ≠ [])
    (hwaits : s.currentMarketData s.currentTargetTicker = none) {bid ask : D}
    (hquote : .sec s.currentTargetTicker bid ask ∈ c.whole fmt fragmentSize 0) {k : Nat}
    (hk : c.idLine ∈ c.whole fmt fragmentSize k) (hlater : 0 < k) (hsize : 0 < fragmentSize) :
    ⟨s.currentChallengeId, s.currentTargetTicker, fmt.shown bid, fmt.shown ask⟩ ∈
      (s.processAll fmt (fragments fragmentSize (c.message fmt))).2 := by
  obtain ⟨hnoId, hnoTarget⟩ := not_mem_whole_of_before fmt hk hlater
  obtain ⟨rest, hrange, -⟩ := range_split (lt_numFragments fmt hsize hquote)
  have hupdate : s.update (c.content fmt fragmentSize 0) = { s with
      currentMarketData := Client.applyUpdates s.currentMarketData
        (c.content fmt fragmentSize 0).secUpdates } := by
    rw [Client.update, content_challengeId_none fmt hnoId, content_target_none fmt hnoTarget]
    rfl
  have hdata := applied_quote fmt hc hquote hwaits
  have hcheck : (s.update (c.content fmt fragmentSize 0)).check =
      some ⟨s.currentChallengeId, s.currentTargetTicker, fmt.shown bid, fmt.shown ask⟩ := by
    rw [hupdate]
    exact Client.check_eq_some.mpr ⟨hset, htarget, _, hdata, rfl⟩
  have hprocess : s.process (c.content fmt fragmentSize 0) =
      ((s.update (c.content fmt fragmentSize 0)).reset,
        some ⟨s.currentChallengeId, s.currentTargetTicker, fmt.shown bid, fmt.shown ask⟩) := by
    simp only [Client.process, hcheck]
  rw [Client.processAll_eq, hc.parsePacket_fragments, hrange, List.range_zero, List.nil_append,
    List.map_cons, Client.processParsed_cons, hprocess]
  exact List.mem_cons_self

namespace Session

/-- What is sent of the second challenge under the id of the first. -/
theorem answered_of_two {c c' : Challenge D}
    (h : Run.Always (step fmt) [c, c'] start (Answered fmt)) {response : Response D}
    (hsent : response ∈ ((Client.start.processAll fmt
      (fragments maxUdpPayload (c.message fmt))).1.processAll fmt
        (fragments maxUdpPayload (c'.message fmt))).2)
    (hid : response.challengeId = c.challengeId) : Answers fmt response c := by
  have hfirst := (Run.always_cons.mp h).2 _ (step_eq fmt c start)
  have hsecond := (Run.always_cons.mp hfirst).2 _ (step_eq fmt c' _)
  have hanswered := Run.always_nil.mp hsecond
  refine (hanswered response (List.mem_append_right _ hsent)).2 c ?_ hid
  exact List.mem_append_left _ (List.mem_append_right _ List.mem_cons_self)

/-- The first challenge is answered with a quote of the second one. -/
theorem stale_answer {c c' : Challenge D} (hc : c.Plain) (hc' : c'.Plain) {k : Nat}
    (hk : c.idLine ∈ c.whole fmt maxUdpPayload k)
    (hlast : c.numFragments fmt maxUdpPayload = k + 1)
    (htarget : c.targetLine ∈ c.whole fmt maxUdpPayload k)
    (hearly : ∀ bid ask, .sec c.targetTicker.toList bid ask ∉ c.whole fmt maxUdpPayload k)
    {bid ask : D} (hquote : .sec c.targetTicker.toList bid ask ∈ c'.whole fmt maxUdpPayload 0)
    {k' : Nat} (hk' : c'.idLine ∈ c'.whole fmt maxUdpPayload k') (hlater : 0 < k')
    (h : Run.Always (step fmt) [c, c'] start (Answered fmt)) :
    Answers fmt ⟨c.challengeId, c.targetTicker.toList, fmt.shown bid, fmt.shown ask⟩ c := by
  have hpos := hc.idPos
  have hstart : (Client.start : Client D).currentChallengeId ≠ c.challengeId := by
    change (-1 : Int) ≠ c.challengeId
    omega
  obtain ⟨hid, hwaitsFor, hwaits⟩ := left_waiting fmt hc hstart hk hlast htarget hearly
  have hsent := answered_early fmt hc' (by omega) (hwaitsFor ▸ hc.targetPlain.nonempty)
    (hwaitsFor.symm ▸ hwaits) (hwaitsFor.symm ▸ hquote) hk' hlater (by decide)
  rw [hid, hwaitsFor] at hsent
  exact answered_of_two fmt h hsent rfl

end Session

/-! ### Two challenges as they are generated -/

theorem Answers.bid_constant {fmt} [Add D] {bid inc : D} {target : Fin 1000}
    {globalChallengeId : Int} {response : Response D}
    (h : Answers fmt response
      (generateChallenge (Draws.constant bid inc target) globalChallengeId)) :
    response.bid = fmt.shown bid := by
  obtain ⟨-, -, bid', ask', hentry, hbid, -⟩ := h
  simp only [generateChallenge, List.mem_map] at hentry
  obtain ⟨k, -, hpair⟩ := hentry
  injection hpair with _ hpair
  injection hpair with hpair _
  exact hbid.trans (congrArg fmt.shown hpair.symm)

/-- Two challenges as they are generated: `SEC0001` costs 57.5 and 58.2, then 20.5 and 21.2. Its
line is the first of 30030 bytes. -/
def firstChallenge : Challenge Nat := generateChallenge (Draws.constant 575 7 0) 0

def secondChallenge : Challenge Nat := generateChallenge (Draws.constant 205 7 0) 1

theorem firstChallenge_plain : firstChallenge.Plain :=
  generateChallenge_plain _ (by decide) (by decide)

theorem secondChallenge_plain : secondChallenge.Plain :=
  generateChallenge_plain _ (by decide) (by decide)

theorem firstChallenge_idStart : firstChallenge.idStart tenths = 30000 := by
  rw [firstChallenge, idStart_constant]
  decide

theorem secondChallenge_idStart : secondChallenge.idStart tenths = 30000 := by
  rw [secondChallenge, idStart_constant]
  decide

theorem firstChallenge_targetStart : firstChallenge.targetStart tenths = 30015 := by
  rw [Challenge.targetStart, firstChallenge_idStart]
  rfl

theorem secondChallenge_targetStart : secondChallenge.targetStart tenths = 30015 := by
  rw [Challenge.targetStart, secondChallenge_idStart]
  rfl

theorem size_targetLine (bid inc : Nat) (target : Fin 1000) (globalChallengeId : Int) :
    tenths.size (generateChallenge (Draws.constant bid inc target) globalChallengeId).targetLine =
      15 := by
  have hlt := target.isLt
  have hticker := length_tickerName (i := target + 1) (by omega)
  simp only [generateChallenge, Draws.constant, targetLine, PriceFormat.size, PriceFormat.render,
    List.length_append, hticker]
  rfl

/-- Its quote is 21 fragments before the id. -/
theorem quote_not_with_id (bid ask : Nat) :
    .sec firstChallenge.targetTicker.toList bid ask ∉
      firstChallenge.whole tenths maxUdpPayload 21 := by
  intro hmem
  obtain ⟨i, hi, hlow, -⟩ := (mem_inWindow_iff 0 _).mp ((mem_whole_quotes tenths).mp hmem)
  obtain ⟨-, hline⟩ := constant_quotes_getElem?.mp hi
  injection hline with hticker
  have hzero : 1 = i + 1 := tickerName_injective (String.toList_inj.mp hticker)
  obtain rfl : i = 0 := by omega
  simp [maxUdpPayload] at hlow

theorem quote_first :
    .sec firstChallenge.targetTicker.toList 205 212 ∈
      secondChallenge.whole tenths maxUdpPayload 0 := by
  refine (mem_whole_quotes tenths).mpr ((mem_inWindow_iff 0 _).mpr ⟨0, ?_, ?_, ?_⟩)
  · exact constant_quotes_getElem?.mpr ⟨by decide, rfl⟩
  · simp
  · have hsize : tenths.size (.sec firstChallenge.targetTicker.toList 205 212) = 30 :=
      size_sec tenths (i := 1) (by decide) 205 212
    rw [hsize]
    simp [maxUdpPayload]

/-- The first challenge is answered with the prices of the second one. -/
theorem stale_id_answered :
    (∀ c ∈ [firstChallenge, secondChallenge], c.Plain) ∧
      ([firstChallenge, secondChallenge].map (·.challengeId)).Nodup ∧
      ¬ Run.Always (Session.step tenths) [firstChallenge, secondChallenge] Session.start
          (Session.Answered tenths) := by
  refine ⟨by simp [firstChallenge_plain, secondChallenge_plain], by decide, fun halways => ?_⟩
  have hid : firstChallenge.idLine ∈ firstChallenge.whole tenths maxUdpPayload 21 := by
    rw [idLine_mem_whole, firstChallenge_idStart, firstChallenge_targetStart]
    decide
  have hsize : tenths.size firstChallenge.targetLine = 15 := size_targetLine 575 7 0 0
  have htarget : firstChallenge.targetLine ∈ firstChallenge.whole tenths maxUdpPayload 21 := by
    rw [targetLine_mem_whole, firstChallenge_targetStart, hsize]
    decide
  have hlast : firstChallenge.numFragments tenths maxUdpPayload = 21 + 1 := by
    rw [numFragments, length_message_eq, firstChallenge_targetStart, hsize]
    rfl
  have hlater : secondChallenge.idLine ∈ secondChallenge.whole tenths maxUdpPayload 21 := by
    rw [idLine_mem_whole, secondChallenge_idStart, secondChallenge_targetStart]
    decide
  have hanswers := Session.stale_answer tenths firstChallenge_plain secondChallenge_plain hid hlast
    htarget quote_not_with_id quote_first hlater (by decide) halways
  have hprices : (205 : Nat) = 575 := hanswers.bid_constant
  exact absurd hprices (by decide)

end HftProject
