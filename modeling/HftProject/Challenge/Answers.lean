import HftProject.Challenge.LossyNetwork
import HftProject.Challenge.TcpSessions

/-!
The answers of a client on the server's side. A response of a client that holds nothing but what
was broadcast goes out as one line, and the server reads the response back from it
(`Response.Readable.read`); if it answers the current challenge it is exact enough to win
(`Answers.matches_of`).
-/

namespace HftProject

open Decimal Lines

/-! ### What is sent is read back -/

/-- The line of `responseMessage`. -/
def answerLine (r : Response ℚ) : Text :=
  responseKey ++ ' ' :: (putInt r.challengeId ++ ' ' :: (r.ticker ++ ' ' ::
    (putFixed 4 r.bid ++ ' ' :: (putFixed 4 r.ask ++ ' ' :: traderName))))

/-- What the server reads of it. -/
def submissionOf (r : Response ℚ) : Submission :=
  ⟨.ofList responseKey, r.challengeId, .ofList r.ticker, r.bid, r.ask, .ofList traderName⟩

theorem responseMessage_eq (r : Response ℚ) : responseMessage r = answerLine r ++ ['\n'] := by
  simp [responseMessage, answerLine]

theorem flatMap_responseMessage (rs : List (Response ℚ)) :
    rs.flatMap responseMessage = unlines '\n' (rs.map answerLine) := by
  rw [unlines, List.flatMap_map]
  exact List.flatMap_congr fun r _ => responseMessage_eq r

/-- The response names a challenge, one word, and prices as the client has read them. -/
structure Response.Readable (r : Response ℚ) : Prop where
  id : -2 ^ 31 ≤ r.challengeId ∧ r.challengeId < 2 ^ 31
  ticker : Word r.ticker
  bid : ∃ bid, QuotedPrice bid ∧ r.bid = shown bid
  ask : ∃ ask, QuotedPrice ask ∧ r.ask = shown ask

namespace Response.Readable

variable {r : Response ℚ}

theorem not_mem (h : r.Readable) : '\n' ∉ answerLine r := by
  have hnewline : isSpace '\n' = true := rfl
  simp only [answerLine, List.mem_append, List.mem_cons, (putInt_word _).not_mem hnewline,
    h.ticker.not_mem hnewline, (putFixed_word 4 _).not_mem hnewline]
  decide

theorem read (h : r.Readable) : readSubmission (answerLine r) = some (submissionOf r) := by
  obtain ⟨bid, hbid, hbidShown⟩ := h.bid
  obtain ⟨ask, hask, haskShown⟩ := h.ask
  have hheader : Word responseKey := word_of_all (by decide) rfl
  have hname : Word traderName := word_of_all (by decide) rfl
  rw [answerLine, submissionOf, hbidShown, haskShown]
  exact readSubmission_words hheader h.ticker hname h.id hbid hask

end Response.Readable

/-- A line that is read does not stop short. -/
theorem StopsShort.unread {msg : Text} {c : Challenge ℚ} {v : Unassigned}
    (h : StopsShort msg c v) : (readSubmission msg : Option Submission) = none := by
  cases h with
  | challengeId header blank =>
      refine readSubmission_no_id header ?_
      rw [extractInt, LineStream.readInt_blank blank]
      rfl
  | submittedBid header read word compared blank =>
      rw [readSubmission_ticker header read word, LineStream.extractDouble_blank blank]
      rfl
  | submittedAsk header read word compared first near blank =>
      rw [readSubmission_ticker header read word, first, Option.bind_some,
        LineStream.extractDouble_blank blank]
      rfl

/-! ### Challenges of the broadcasting thread -/

/-- A challenge that is generated while their number is an `int`. -/
def Challenge.Genuine (c : Challenge ℚ) : Prop :=
  ∃ draws globalChallengeId, Sessions.InRange draws ∧ 0 ≤ globalChallengeId ∧
    globalChallengeId + 1 < 2 ^ 31 ∧ c = generateChallenge draws globalChallengeId

theorem tickerName_word (i : Nat) : Word (tickerName i).toList := by
  rw [tickerName_toList]
  refine ⟨List.cons_ne_nil _ _, fun c hc => ?_⟩
  simp only [List.mem_cons, List.mem_append, List.mem_replicate] at hc
  rcases hc with rfl | rfl | rfl | ⟨-, rfl⟩ | hdigit
  · rfl
  · rfl
  · rfl
  · rfl
  · exact isSpace_of_numeralChar (.inl (Nat.isDigit_of_mem_toDigits (by decide) (by decide) hdigit))

namespace Challenge.Genuine

variable {c : Challenge ℚ}

theorem plain (h : c.Genuine) : c.Plain := by
  obtain ⟨draws, globalChallengeId, -, hpos, hint, rfl⟩ := h
  exact generateChallenge_plain draws hpos hint

theorem prices (h : c.Genuine) {ticker : String} {bid ask : ℚ}
    (hentry : (ticker, bid, ask) ∈ c.marketData) : QuotedPrice bid ∧ QuotedPrice ask := by
  obtain ⟨draws, globalChallengeId, hrange, -, -, rfl⟩ := h
  simp only [generateChallenge, List.mem_map, Prod.mk.injEq] at hentry
  obtain ⟨k, -, -, rfl, rfl⟩ := hentry
  have hbid := hrange.bid k
  have hinc := hrange.inc k
  exact ⟨⟨hbid.1, by linarith⟩, by linarith, by linarith⟩

theorem target_word (h : c.Genuine) : Word c.targetTicker.toList := by
  obtain ⟨draws, globalChallengeId, -, -, -, rfl⟩ := h
  exact tickerName_word _

end Challenge.Genuine

/-- What was broadcast can be read back. -/
theorem Response.Sourced.readable {cs : List (Challenge ℚ)} {r : Response ℚ}
    (h : r.Sourced streamFormat cs) (hgenuine : ∀ c ∈ cs, c.Genuine) : r.Readable := by
  obtain ⟨c, hc, hid⟩ := h.id
  obtain ⟨c', hc', hticker⟩ := h.ticker
  obtain ⟨c'', hc'', bid, ask, hline, hshown⟩ := h.quote
  obtain ⟨entry, hentry, heq⟩ := List.mem_map.mp hline
  injection heq with hname hbid hask
  injection hshown with hshownBid hshownAsk
  have hplain := (hgenuine c hc).plain
  obtain ⟨hquoteBid, hquoteAsk⟩ := (hgenuine c'' hc'').prices hentry
  refine ⟨?_, hticker ▸ (hgenuine c' hc').target_word, ⟨bid, hbid ▸ hquoteBid, hshownBid⟩,
    ⟨ask, hask ▸ hquoteAsk, hshownAsk⟩⟩
  have hpos := hplain.idPos
  have hint := hplain.idInt
  rw [hid]
  omega

/-- Each ticker is listed once. -/
theorem Challenge.Plain.lookup {D : Type} {c : Challenge D} (h : c.Plain) {ticker : String}
    {quote : D × D} (hentry : (ticker, quote) ∈ c.marketData) :
    c.marketData.lookup ticker = some quote := by
  obtain ⟨before, after, heq⟩ := List.append_of_mem hentry
  refine List.lookup_eq_some_iff.mpr ⟨before, after, heq, fun entry hbefore => ?_⟩
  have hkeys := h.keys
  rw [heq, List.map_append, List.nodup_append] at hkeys
  have hne := hkeys.2.2 _ (List.mem_map_of_mem hbefore) _ (List.mem_map_of_mem List.mem_cons_self)
  simpa using Ne.symm hne

/-- A response that answers the challenge wins it, if nobody has. -/
theorem Answers.matches_of {c : Challenge ℚ} {r : Response ℚ} (h : Answers streamFormat r c)
    (hgenuine : c.Genuine) : Server.Matches (submissionOf r) c := by
  obtain ⟨hid, hticker, bid, ask, hentry, hbid, hask⟩ := h
  obtain ⟨hquoteBid, hquoteAsk⟩ := hgenuine.prices hentry
  have hname : String.ofList r.ticker = c.targetTicker := by
    rw [hticker, String.ofList_toList]
  refine ⟨hid, hname, bid, ask, ?_, ?_, ?_⟩
  · change c.marketData.lookup (String.ofList r.ticker) = _
    rw [hname]
    exact hgenuine.plain.lookup hentry
  · change |r.bid - bid| ≤ _
    rw [hbid]
    exact hquoteBid.abs_shown_sub_le
  · change |r.ask - ask| ≤ _
    rw [hask]
    exact hquoteAsk.abs_shown_sub_le

namespace Server

/-- A submission leaves all but the winner and the console alone. -/
theorem processOrder_frame (sub : Submission) (s : Server) :
    (s.processOrder sub).1.globalChallengeId = s.globalChallengeId ∧
      (s.processOrder sub).1.generated = s.generated ∧
      (s.processOrder sub).1.currentChallenge =
        { s.currentChallenge with
          winnerDeclared := (s.processOrder sub).1.currentChallenge.winnerDeclared
          winnerName := (s.processOrder sub).1.currentChallenge.winnerName } := by
  rw [processOrder]
  split
  · exact ⟨rfl, rfl, rfl⟩
  · rcases judge_cases sub s.currentChallenge with hsame | ⟨-, -, hwin⟩
    · rw [hsame]
      exact ⟨rfl, rfl, rfl⟩
    · rw [hwin]
      exact ⟨rfl, rfl, rfl⟩

theorem processOrder_declared {sub : Submission} {s : Server}
    (hheader : sub.header = "CHALLENGE_RESPONSE") (hmatch : Matches sub s.currentChallenge) :
    (s.processOrder sub).1.currentChallenge.winnerDeclared = true := by
  rw [processOrder, if_neg (not_not.mpr hheader)]
  cases hopen : s.currentChallenge.winnerDeclared with
  | false => rw [judge_of_matches hmatch hopen]
  | true =>
      rcases judge_cases sub s.currentChallenge with hsame | ⟨-, hundecided, -⟩
      · rw [hsame]
        exact hopen
      · exact absurd (hundecided.symm.trans hopen) Bool.false_ne_true

end Server

end HftProject
