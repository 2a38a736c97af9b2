import HftProject.Challenge.Reading
import Mathlib.Data.Rat.Floor

/-!
A quote on its way through the two text formats. The server writes it with six significant
digits, and the client answers with four decimals, which are all that the first format has left
of a price up to 100, and one more than that behind it. Both ways together stay within the
tolerance of `process_order` (`quotes_survive`).

Prices are numbers of an ordered field with floors, and the arithmetic is exact.
-/

namespace HftProject

open Decimal Lines

theorem isSpace_of_numeralChar {c : Char} (h : NumeralChar c) : isSpace c = false := by
  rcases h with hdigit | hsign
  · by_contra hspace
    rw [not_isDigit_of_isSpace (Bool.not_eq_false _ ▸ hspace)] at hdigit
    cases hdigit
  · simp only [List.mem_cons, List.not_mem_nil, or_false] at hsign
    rcases hsign with rfl | rfl | rfl | rfl <;> rfl

/-! ### The answer -/

section Formats

variable {R : Type} [Field R] [LinearOrder R] [FloorRing R]

def traderName : Text := ['V', 'Q', '-', 'A', 'W', '-', 'R', 'X', '-', 'J', 'R']

def responseKey : Text :=
  ['C', 'H', 'A', 'L', 'L', 'E', 'N', 'G', 'E', '_', 'R', 'E', 'S', 'P', 'O', 'N', 'S', 'E']

/-- The line that `send_tcp_response` sends. -/
def responseMessage (r : Response R) : Text :=
  responseKey ++ ' ' :: putInt r.challengeId ++ ' ' :: r.ticker ++ ' ' :: putFixed 4 r.bid ++
    ' ' :: putFixed 4 r.ask ++ ' ' :: traderName ++ ['\n']

/-! ### Extraction -/

/-- `operator>>` of a string. It is empty where there is no word left. -/
def extractWord (text : Text) : Text × Text :=
  let text := text.dropWhile isSpace
  (text.takeWhile fun c => !isSpace c, text.dropWhile fun c => !isSpace c)

/-- `operator>>` of an `int` -/
def extractInt (text : Text) : Option (Int × Text) := do
  let (i, rest) ← readInt text
  if -2 ^ 31 ≤ i ∧ i < 2 ^ 31 then return (i, rest) else none

/-- `operator>>` of a `double`. The letter of an exponent without digits makes it fail. -/
def extractDouble (text : Text) : Option (R × Text) := do
  let text := text.dropWhile isSpace
  let (number, rest) ← readNumber text
  let taken := text.take (text.length - rest.length)
  if rest.head? ∈ [some 'e', some 'E'] ∧ 'e' ∉ taken ∧ 'E' ∉ taken then none
  else return (number.toField, rest)

/-- The fields that `process_order` extracts of a line; `none` if a number is not read, which
with those after it is then zero or left as it is. -/
def readSubmission (msg : Text) : Option (Submission R) := do
  let (header, rest) := extractWord msg
  let (challengeId, rest) ← extractInt rest
  let (ticker, rest) := extractWord rest
  let (bid, rest) ← extractDouble rest
  let (ask, rest) ← extractDouble rest
  let (clientName, _) := extractWord rest
  return ⟨.ofList header, challengeId, .ofList ticker, bid, ask, .ofList clientName⟩

end Formats

/-! ### Words and numbers are extracted as they were written -/

/-- What `operator>>` takes for one word. -/
structure Word (text : Text) : Prop where
  nonempty : text ≠ []
  noSpace : ∀ c ∈ text, isSpace c = false

theorem word_of_all {text : Text} (hne : text ≠ [])
    (h : (text.all fun c => !isSpace c) = true) : Word text where
  nonempty := hne
  noSpace c hc := by simpa using List.all_eq_true.mp h c hc

/-- The text does not go on with the word. -/
def EndsWord (rest : Text) : Prop := ∀ c ∈ rest.head?, isSpace c = true

theorem endsWord_nil : EndsWord [] := by
  rintro c ⟨⟩

theorem endsWord_space (rest : Text) : EndsWord (' ' :: rest) := by
  rintro c ⟨⟩
  rfl

theorem endsNumber_space (rest : Text) : EndsNumber (' ' :: rest) := by
  rintro c ⟨⟩
  decide

theorem Word.not_mem {word : Text} (h : Word word) {c : Char} (hc : isSpace c = true) :
    c ∉ word := by
  intro hmem
  rw [h.noSpace c hmem] at hc
  cases hc

theorem Word.dropWhile_isSpace {word : Text} (h : Word word) (rest : Text) :
    (word ++ rest).dropWhile isSpace = word ++ rest := by
  obtain ⟨c, cs, rfl⟩ := List.exists_cons_of_ne_nil h.nonempty
  have hc := h.noSpace c List.mem_cons_self
  rw [List.cons_append, List.dropWhile_cons_of_neg (by rw [hc]; exact Bool.false_ne_true)]

theorem extractWord_append {word rest : Text} (h : Word word) (hrest : EndsWord rest) :
    extractWord (word ++ rest) = (word, rest) := by
  have hword : ∀ c ∈ word, (!isSpace c) = true := fun c hc => by rw [h.noSpace c hc]; rfl
  rw [extractWord, h.dropWhile_isSpace, List.takeWhile_append_of_pos hword,
    List.dropWhile_append_of_pos hword]
  cases rest with
  | nil => simp
  | cons c rest => simp [hrest c rfl]

theorem extractWord_space (text : Text) : extractWord (' ' :: text) = extractWord text := rfl

theorem extractInt_putInt {i : Int} (h : -2 ^ 31 ≤ i ∧ i < 2 ^ 31) {rest : Text}
    (hrest : NoDigit rest) : extractInt (' ' :: (putInt i ++ rest)) = some (i, rest) := by
  have hspace : readInt (' ' :: (putInt i ++ rest)) = readInt (putInt i ++ rest) := rfl
  rw [extractInt, hspace, readInt_putInt i hrest]
  simp only [Option.bind_eq_bind, Option.bind_some, if_pos h]
  rfl

section Prices

variable {R : Type} [Field R] [LinearOrder R] [FloorRing R]

theorem putFixed_word (decimals : Nat) (x : R) : Word (putFixed decimals x) where
  nonempty := putFixed_ne_nil decimals x
  noSpace c hc := isSpace_of_numeralChar (numeralChar_putFixed decimals x c hc)

theorem putGeneral_word (x : R) : Word (putGeneral x) where
  nonempty := putGeneral_ne_nil x
  noSpace c hc := isSpace_of_numeralChar (numeralChar_putGeneral x c hc)

omit [LinearOrder R] [FloorRing R] in
theorem extractDouble_word {word rest : Text} (h : Word word) (hrest : EndsNumber rest) {d : Number}
    (hread : readNumber (word ++ rest) = some (d, rest)) :
    extractDouble (R := R) (' ' :: (word ++ rest)) = some (d.toField, rest) := by
  have hspace : (' ' :: (word ++ rest)).dropWhile isSpace = word ++ rest :=
    h.dropWhile_isSpace rest
  have hends : ¬ rest.head? ∈ [some 'e', some 'E'] := by
    intro hmem
    simp only [List.mem_cons, List.not_mem_nil, or_false] at hmem
    rcases hmem with he | he
    · exact (hrest 'e' he).2.2.1 rfl
    · exact (hrest 'E' he).2.2.2 rfl
  rw [extractDouble]
  simp only [hspace, hread, Option.bind_eq_bind, Option.bind_some, hends, false_and, if_false]
  rfl

variable [IsStrictOrderedRing R]

/-- The default format of a stream, and `std::stod`. -/
def streamFormat : PriceFormat R where
  put := putGeneral
  stod := stod
  shown := shown
  stod_put x := by
    obtain ⟨d, hread, hd⟩ := readNumber_putGeneral x endsNumber_nil
    have hspace := (putGeneral_word x).dropWhile_isSpace []
    rw [List.append_nil] at hread hspace
    rw [stod, hspace, hread]
    exact congrArg some hd
  stod_nil := rfl
  plain x c hc := by
    rcases numeralChar_putGeneral x c hc with hdigit | hsign
    · exact .inl hdigit
    · refine .inr ?_
      simp only [List.mem_cons, List.not_mem_nil, or_false] at hsign
      rcases hsign with rfl | rfl | rfl | rfl <;> decide

example : streamFormat.put (99.99995 : ℚ) = ['1', '0', '0'] := by decide +kernel

/-! ### The digits that are left of a price -/

/-- The prices of the server: bids from 10 to 100, and asks up to 1 above. -/
structure QuotedPrice (x : R) : Prop where
  low : 10 ≤ x
  high : x < 1000

namespace QuotedPrice

variable {x : R}

theorem pos (h : QuotedPrice x) : 0 < x := lt_of_lt_of_le (by norm_num) h.low

/-- There are one to three digits before the point. -/
theorem log_le (h : QuotedPrice x) : 1 ≤ Int.log 10 x ∧ Int.log 10 x ≤ 2 := by
  have hlow : (1 : Int) ≤ Int.log 10 x := by
    rw [← Int.zpow_le_iff_le_log (by norm_num) h.pos]
    exact_mod_cast h.low
  have hhigh : Int.log 10 x < 3 := by
    rw [← Int.lt_zpow_iff_log_lt (by norm_num) h.pos]
    calc x < 1000 := h.high
      _ = ((10 : Nat) : R) ^ (3 : Int) := by norm_num
  omega

theorem abs_shown_sub_le (h : QuotedPrice x) : |shown x - x| ≤ Server.tol := by
  have hunit : (10 : R) ^ (Int.log 10 x - 5) ≤ 10 ^ (-3 : Int) :=
    zpow_le_zpow_right₀ (by norm_num) (by have := h.log_le; omega)
  calc |shown x - x| = |x - shown x| := abs_sub_comm _ _
    _ ≤ 1 / 2 * 10 ^ (Int.log 10 x - 5) := abs_sub_shown_le h.pos
    _ ≤ 1 / 2 * 10 ^ (-3 : Int) := mul_le_mul_of_nonneg_left hunit (by norm_num)
    _ ≤ Server.tol := by
        rw [Server.tol]
        norm_num

/-- What the client has read arrives as it is. -/
theorem extractDouble_sent (h : QuotedPrice x) {rest : Text} (hrest : EndsNumber rest) :
    extractDouble (' ' :: (putFixed 4 (shown x) ++ rest)) = some (shown x, rest) := by
  have hdecimals : 5 ≤ Int.log 10 x + (4 : Nat) := by
    have hlog := h.log_le.1
    omega
  obtain ⟨n, hn⟩ := shown_mul h.pos hdecimals
  obtain ⟨d, hread, hd⟩ := readNumber_putFixed_exact (shown_nonneg h.pos) hn hrest
  rw [extractDouble_word (putFixed_word 4 _) hrest hread, hd]

end QuotedPrice

/-! ### The whole way -/

theorem readSubmission_words {header ticker name : Text} (hheader : Word header)
    (hticker : Word ticker) (hname : Word name) {id : Int} (hid : -2 ^ 31 ≤ id ∧ id < 2 ^ 31)
    {bid ask : R} (hbid : QuotedPrice bid) (hask : QuotedPrice ask) :
    readSubmission (header ++ ' ' :: (putInt id ++ ' ' :: (ticker ++ ' ' ::
        (putFixed 4 (shown bid) ++ ' ' :: (putFixed 4 (shown ask) ++ ' ' :: name))))) =
      some ⟨.ofList header, id, .ofList ticker, shown bid, shown ask, .ofList name⟩ := by
  have hlast : extractWord (' ' :: name) = (name, []) := by
    have hread := extractWord_append hname endsWord_nil
    rw [List.append_nil] at hread
    exact hread
  rw [readSubmission, extractWord_append hheader (endsWord_space _)]
  simp only [extractInt_putInt hid (endsNumber_space _).endsFraction.noDigit, extractWord_space,
    extractWord_append hticker (endsWord_space _), hbid.extractDouble_sent (endsNumber_space _),
    hask.extractDouble_sent (endsNumber_space _), Option.bind_eq_bind, Option.bind_some]
  rw [← extractWord_space, hlast]
  rfl

theorem putInt_word (i : Int) : Word (putInt i) where
  nonempty := putInt_ne_nil i
  noSpace c hc := isSpace_of_numeralChar (numeralChar_putInt i c hc)

omit [IsStrictOrderedRing R] in
theorem lines_responseMessage {id : Int} {ticker : Text} (hticker : Word ticker) (bid ask : R) :
    lines '\n' (responseMessage ⟨id, ticker, bid, ask⟩) =
      [responseKey ++ ' ' :: (putInt id ++ ' ' :: (ticker ++ ' ' ::
        (putFixed 4 bid ++ ' ' :: (putFixed 4 ask ++ ' ' :: traderName))))] := by
  have hnewline : isSpace '\n' = true := rfl
  have hnoNewline : '\n' ∉ responseKey ++ ' ' :: (putInt id ++ ' ' :: (ticker ++ ' ' ::
      (putFixed 4 bid ++ ' ' :: (putFixed 4 ask ++ ' ' :: traderName)))) := by
    simp only [List.mem_append, List.mem_cons, (putInt_word id).not_mem hnewline,
      hticker.not_mem hnewline, (putFixed_word 4 bid).not_mem hnewline,
      (putFixed_word 4 ask).not_mem hnewline]
    decide
  have hlines := lines_append hnoNewline []
  rw [lines_rest (List.not_mem_nil)] at hlines
  rw [← hlines, responseMessage]
  simp only [List.append_assoc, List.cons_append]

/-- The packet with the `SEC` line of a ticker. -/
theorem parsePacket_sec {ticker : Text} (hticker : Word ticker) (hbar : '|' ∉ ticker)
    (bid ask : R) :
    parsePacket streamFormat (unlines '\n' [streamFormat.render (.sec ticker bid ask)]) =
      ⟨[(ticker, shown bid, shown ask)], none, none⟩ := by
  have hnoNewline : '\n' ∉ streamFormat.render (.sec ticker bid ask) := by
    have hnewline : isSpace '\n' = true := rfl
    simp only [PriceFormat.render, streamFormat, List.mem_append, List.mem_cons,
      hticker.not_mem hnewline, (putGeneral_word bid).not_mem hnewline,
      (putGeneral_word ask).not_mem hnewline]
    decide
  have hsec : secKey.isPrefixOf (streamFormat.render (.sec ticker bid ask)) = true := by
    rw [List.isPrefixOf_iff_prefix, PriceFormat.render, List.append_assoc, List.append_assoc,
      List.append_assoc]
    exact List.prefix_append _ _
  rw [unlines_cons, parsePacket, lines_append hnoNewline, unlines, List.flatMap_nil,
    lines_rest List.not_mem_nil, List.foldl_cons, List.foldl_nil, parseLine, if_pos hsec,
    parseSec_render _ hbar]
  rfl

/-- A client that has the challenge and its target responds as soon as it reads the quote. -/
theorem response_of_quote {D : Type} (fmt : PriceFormat D) {packet ticker : Text} {bid ask : D}
    (hparsed : parsePacket fmt packet = ⟨[(ticker, bid, ask)], none, none⟩) (hne : ticker ≠ [])
    {s : Client D} (hid : s.currentChallengeId ≠ -1) (htarget : s.currentTargetTicker = ticker) :
    (s.processQueuedMessage fmt packet).2 = some ⟨s.currentChallengeId, ticker, bid, ask⟩ := by
  have hcheck : (s.update ⟨[(ticker, bid, ask)], none, none⟩).check =
      some ⟨s.currentChallengeId, ticker, bid, ask⟩ := by
    simp [Client.update, Client.newChallenge, Client.applyUpdates, Client.check, hid, htarget, hne]
  rw [Client.processQueuedMessage, hparsed, Client.process]
  simp only [hcheck]

/-- A quote of the server as the client reads it, and the client's answer with that quote as the
server reads it: what names the challenge arrives unchanged, the prices within the tolerance,
and the answer wins. -/
theorem quotes_survive {ticker : Text} (hne : ticker ≠ []) (hbar : '|' ∉ ticker)
    (hspace : ∀ c ∈ ticker, isSpace c = false) {id : Int} (hid : -2 ^ 31 ≤ id ∧ id < 2 ^ 31)
    {bid ask : R} (hbid : 10 ≤ bid ∧ bid < 100) (hask : bid + 1 / 10 ≤ ask ∧ ask < bid + 1) :
    let packet := unlines '\n' [streamFormat.render (.sec ticker bid ask)]
    ∃ (bid' ask' : R) (sub : Submission R),
      parsePacket streamFormat packet = ⟨[(ticker, bid', ask')], none, none⟩ ∧
      (∀ s : Client R, s.currentChallengeId = id → id ≠ -1 → s.currentTargetTicker = ticker →
        (s.processQueuedMessage streamFormat packet).2 = some ⟨id, ticker, bid', ask'⟩) ∧
      (lines '\n' (responseMessage ⟨id, ticker, bid', ask'⟩)).map readSubmission = [some sub] ∧
      (sub.header = "CHALLENGE_RESPONSE" ∧ sub.challengeId = id ∧ sub.ticker = .ofList ticker ∧
        |sub.bid - bid| ≤ 1 / 1000 ∧ |sub.ask - ask| ≤ 1 / 1000) ∧
      ∀ c : Challenge R, c.challengeId = id → c.targetTicker = .ofList ticker →
        c.marketData.lookup (.ofList ticker) = some (bid, ask) → c.winnerDeclared = false →
          Server.judge sub c =
            ({ c with winnerDeclared := true, winnerName := .ofList traderName },
              some ⟨id, .ofList traderName⟩) := by
  have hticker : Word ticker := ⟨hne, hspace⟩
  have hquote : QuotedPrice bid := ⟨hbid.1, by linarith [hbid.2]⟩
  have hquote' : QuotedPrice ask := ⟨by linarith [hbid.1, hask.1], by linarith [hbid.2, hask.2]⟩
  have hparsed := parsePacket_sec hticker hbar bid ask
  have hheader : Word responseKey := word_of_all (by decide) rfl
  have hname : Word traderName := word_of_all (by decide) rfl
  have hread := readSubmission_words hheader hticker hname hid hquote hquote'
  refine ⟨shown bid, shown ask,
    ⟨.ofList responseKey, id, .ofList ticker, shown bid, shown ask, .ofList traderName⟩,
    hparsed, ?_, ?_, ⟨rfl, rfl, rfl, hquote.abs_shown_sub_le, hquote'.abs_shown_sub_le⟩, ?_⟩
  · rintro s rfl hopen htarget
    exact response_of_quote streamFormat hparsed hne hopen htarget
  · rw [lines_responseMessage hticker, List.map_singleton, hread]
  · intro c hchallenge htarget hfind hopen
    exact Server.judge_of_matches ⟨hchallenge.symm, htarget.symm, bid, ask, hfind,
      hquote.abs_shown_sub_le, hquote'.abs_shown_sub_le⟩ hopen

end Prices

/-- The bid is written as `100` and the ask as `100.7`. -/
theorem quotes_survive_at_hundred :
    let ticker := ['S', 'E', 'C', '0', '0', '4', '2']
    let packet := unlines '\n' [streamFormat.render (.sec ticker (99.99995 : ℚ) 100.70005)]
    ∃ (bid' ask' : ℚ) (sub : Submission ℚ),
      parsePacket streamFormat packet = ⟨[(ticker, bid', ask')], none, none⟩ ∧
      (∀ s : Client ℚ, s.currentChallengeId = 7 → (7 : Int) ≠ -1 → s.currentTargetTicker = ticker →
        (s.processQueuedMessage streamFormat packet).2 = some ⟨7, ticker, bid', ask'⟩) ∧
      (lines '\n' (responseMessage ⟨7, ticker, bid', ask'⟩)).map readSubmission = [some sub] ∧
      (sub.header = "CHALLENGE_RESPONSE" ∧ sub.challengeId = 7 ∧ sub.ticker = .ofList ticker ∧
        |sub.bid - 99.99995| ≤ 1 / 1000 ∧ |sub.ask - 100.70005| ≤ 1 / 1000) ∧
      ∀ c : Challenge ℚ, c.challengeId = 7 → c.targetTicker = .ofList ticker →
        c.marketData.lookup (.ofList ticker) = some (99.99995, 100.70005) →
          c.winnerDeclared = false → Server.judge sub c =
            ({ c with winnerDeclared := true, winnerName := .ofList traderName },
              some ⟨7, .ofList traderName⟩) :=
  quotes_survive (by decide) (by decide) (word_of_all (by decide) rfl).noSpace (by decide)
    (by norm_num) (by norm_num)

end HftProject
