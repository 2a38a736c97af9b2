import HftProject.Challenge.Reading

/-!
Which `SEC` lines the client accepts, with `std::stod` as any function that rejects the empty text
and texts that begin with a bar. A marker that is not found is not tested for: `npos + 4` is 3, and
what the client then takes for a number begins at the bar of `SEC|`. So it accepts exactly the
lines that are well formed (`quotes_eq`, `parseSec_iff`).
-/

namespace HftProject.SecLines

open Lines

variable {D : Type}

/-! ### The parser over any `stod` -/

section Parser

variable (stod : Text → Option D)

/-- A line that starts with `SEC|`. -/
def parseSec (line : Text) : Option (Text × D × D) := do
  let tickerStart := 4
  let tickerEnd ← find line ['|'] tickerStart
  let ticker := (line.drop tickerStart).take (tickerEnd - tickerStart)
  let bidStart := plusFour (find line bidKey tickerEnd)
  let bidEnd := find line ['|'] bidStart
  let askStart := plusFour (bidEnd.bind fun pos => find line askKey pos)
  let bid ← stod (← substr line bidStart (bidEnd.map (· - bidStart)))
  let ask ← stod (← substr line askStart none)
  return (ticker, bid, ask)

def parseLine (parsed : Parsed D) (line : Text) : Parsed D :=
  if secKey.isPrefixOf line then
    match parseSec stod line with
    | some update => { parsed with secUpdates := parsed.secUpdates ++ [update] }
    | none => parsed
  else if challengeIdKey.isPrefixOf line then
    match fromChars (line.drop 13) with
    | some id => { parsed with challengeId := some id }
    | none => parsed
  else if targetKey.isPrefixOf line then { parsed with target := some (line.drop 7) }
  else parsed

def parsePacket (data : Text) : Parsed D :=
  (lines '\n' data).foldl (parseLine stod) .nothing

end Parser

/-- With the `stod` of a format this is the parser of the client. -/
theorem parsePacket_format (fmt : PriceFormat D) (data : Text) :
    parsePacket fmt.stod data = HftProject.parsePacket fmt data := rfl

/-! ### Well-formed lines -/

/-- The text is cut at the first occurrence of the pattern. -/
structure Cut (pattern before after text : Text) : Prop where
  text_eq : text = before ++ pattern ++ after
  first : ∀ i < before.length, ¬ pattern <+: text.drop i

/-- The line starts with `SEC|`; a further bar closes the ticker; after it, behind the first
`BID|` and up to the next bar, stands a number, and after that bar, behind the first `ASK|`,
another. -/
def WellFormed (stod : Text → Option D) (line ticker : Text) (bid ask : D) : Prop :=
  ∃ rest beforeBid behindBid bidText behindBar beforeAsk askText,
    line = secKey ++ ticker ++ '|' :: rest ∧ '|' ∉ ticker ∧
    Cut bidKey beforeBid behindBid rest ∧
    behindBid = bidText ++ '|' :: behindBar ∧ '|' ∉ bidText ∧
    Cut askKey beforeAsk askText behindBar ∧
    stod bidText = some bid ∧ stod askText = some ask

/-! ### Searching -/

variable {pattern text before after : Text}

theorem findIn_cut (h : Cut pattern before after text) (hpattern : pattern ≠ []) :
    findIn pattern text = some before.length := by
  obtain ⟨htext, hfirst⟩ := h
  induction before generalizing text with
  | nil =>
      subst htext
      obtain ⟨c, cs, rfl⟩ := List.exists_cons_of_ne_nil hpattern
      simp [findIn]
  | cons a before ih =>
      subst htext
      have hnot : ¬ pattern <+: a :: before ++ pattern ++ after :=
        hfirst 0 (Nat.succ_pos _)
      have hrest := ih rfl fun i hi => hfirst (i + 1) (Nat.succ_lt_succ hi)
      rw [List.cons_append, List.cons_append, findIn, if_neg, hrest]
      · rfl
      · rwa [List.isPrefixOf_iff_prefix]

theorem findIn_cases (pattern text : Text) :
    findIn pattern text = none ∨ ∃ before after, Cut pattern before after text := by
  induction text with
  | nil => exact .inl rfl
  | cons c text ih =>
      by_cases hstarts : pattern <+: c :: text
      · obtain ⟨after, hafter⟩ := hstarts
        exact .inr ⟨[], after, hafter.symm, fun i hi => absurd hi (Nat.not_lt_zero i)⟩
      · rcases ih with hnone | ⟨before, after, htext, hfirst⟩
        · left
          rw [findIn, if_neg (by rwa [List.isPrefixOf_iff_prefix]), hnone]
          rfl
        · refine .inr ⟨c :: before, after, by rw [htext]; rfl, fun i hi => ?_⟩
          cases i with
          | zero => exact hstarts
          | succ i => exact hfirst i (Nat.lt_of_succ_lt_succ hi)

/-- Searching behind the bar at the start of a text. -/
theorem findIn_behind_bar {c : Char} (hc : c ≠ '|') (pattern text : Text) :
    findIn (c :: pattern) ('|' :: text) = (findIn (c :: pattern) text).map (· + 1) := by
  rw [findIn, if_neg (not_isPrefixOf_head hc)]

theorem find_eq {line : Text} {pos : Nat} (front rest : Text) (hline : line = front ++ rest)
    (hpos : front.length = pos) :
    find line pattern pos = (findIn pattern rest).map (pos + ·) := by
  rw [find, hline, ← hpos, List.drop_left]

/-! ### Lines that are not well formed -/

section Reading

variable {stod : Text → Option D} {line ticker rest beforeBid behindBid bidText behindBar : Text}

/-- The bar of `SEC|` is where a search from 3 starts. -/
theorem find_sec (rest : Text) : find (secKey ++ rest) ['|'] 3 = some 3 :=
  find_at (k := 0) ['S', 'E', 'C'] ('|' :: rest) rfl rfl (by simp [findIn])

/-- What the client takes for the number behind a marker that is missing. -/
theorem substr_sec (rest : Text) : substr (secKey ++ rest) 3 none = some ('|' :: rest) :=
  substr_rest ['S', 'E', 'C'] ('|' :: rest) rfl rfl

theorem find_ticker (hticker : '|' ∉ ticker) (rest : Text) :
    find (secKey ++ ticker ++ '|' :: rest) ['|'] 4 = some (4 + ticker.length) :=
  find_at secKey (ticker ++ '|' :: rest) (List.append_assoc ..) rfl (findIn_bar hticker rest)

theorem find_bid (rest : Text) :
    find (secKey ++ ticker ++ '|' :: rest) bidKey (4 + ticker.length) =
      (findIn bidKey rest).map fun k => 4 + ticker.length + (k + 1) := by
  rw [find_eq (secKey ++ ticker) ('|' :: rest) rfl (by simp [secKey]; omega), bidKey,
    findIn_behind_bar (by decide), Option.map_map]
  rfl

theorem plusFour_bid (hcut : Cut bidKey beforeBid behindBid rest) :
    plusFour (find (secKey ++ ticker ++ '|' :: rest) bidKey (4 + ticker.length)) =
      4 + ticker.length + (beforeBid.length + 1) + 4 := by
  rw [find_bid, findIn_cut hcut (by decide)]
  rfl

theorem find_bid_end (hcut : Cut bidKey beforeBid (bidText ++ '|' :: behindBar) rest)
    (hbid : '|' ∉ bidText) :
    find (secKey ++ ticker ++ '|' :: rest) ['|'] (4 + ticker.length + (beforeBid.length + 1) + 4) =
      some (4 + ticker.length + (beforeBid.length + 1) + 4 + bidText.length) :=
  find_at (secKey ++ ticker ++ '|' :: beforeBid ++ bidKey) (bidText ++ '|' :: behindBar)
    (by rw [hcut.text_eq]; simp) (by simp [secKey, bidKey]; omega) (findIn_bar hbid behindBar)

theorem find_ask (hcut : Cut bidKey beforeBid (bidText ++ '|' :: behindBar) rest) :
    find (secKey ++ ticker ++ '|' :: rest) askKey
        (4 + ticker.length + (beforeBid.length + 1) + 4 + bidText.length) =
      (findIn askKey behindBar).map fun k =>
        4 + ticker.length + (beforeBid.length + 1) + 4 + bidText.length + (k + 1) := by
  rw [find_eq (secKey ++ ticker ++ '|' :: beforeBid ++ bidKey ++ bidText) ('|' :: behindBar)
      (by rw [hcut.text_eq]; simp) (by simp [secKey, bidKey]; omega), askKey,
    findIn_behind_bar (by decide), Option.map_map]
  rfl

/-- Without a bar that closes the ticker. -/
theorem parseSec_unclosed (h : '|' ∉ rest) : parseSec stod (secKey ++ rest) = none := by
  have hfind : find (secKey ++ rest) ['|'] 4 = none := by
    have hlength : secKey.length = 4 := rfl
    rw [find_eq secKey rest rfl hlength, findIn_absent List.mem_cons_self h]
    rfl
  unfold parseSec
  simp only [hfind, Option.bind_eq_bind, Option.bind_none]

/-- Without `BID|` the bid is read from the empty text. -/
theorem parseSec_no_bid (hnil : stod [] = none) (hticker : '|' ∉ ticker)
    (hbid : findIn bidKey rest = none) :
    parseSec stod (secKey ++ ticker ++ '|' :: rest) = none := by
  have hfind : find (secKey ++ ticker ++ '|' :: rest) bidKey (4 + ticker.length) = none := by
    rw [find_bid, hbid]
    rfl
  have hbar : find (secKey ++ ticker ++ '|' :: rest) ['|'] 3 = some 3 := by
    rw [List.append_assoc]
    exact find_sec _
  have hempty : substr (secKey ++ ticker ++ '|' :: rest) 3 (some 0) = some [] :=
    substr_at ['S', 'E', 'C'] [] ('|' :: (ticker ++ '|' :: rest)) (by simp [secKey]) rfl
  unfold parseSec
  simp only [find_ticker hticker, hfind, plusFour, hbar, Option.bind_eq_bind, Option.bind_some,
    Option.map_some, Nat.sub_self, hempty, hnil, Option.bind_none]

variable (hbar : ∀ text, stod ('|' :: text) = none)

include hbar

/-- Without `ASK|` behind the bid the ask is read from a text that begins with a bar. -/
theorem parseSec_no_ask (hticker : '|' ∉ ticker) {bidStart : Nat} {bidEnd : Option Nat}
    (hbidStart : plusFour (find (secKey ++ ticker ++ '|' :: rest) bidKey (4 + ticker.length)) =
      bidStart)
    (hbidEnd : find (secKey ++ ticker ++ '|' :: rest) ['|'] bidStart = bidEnd)
    (hask : (bidEnd.bind fun pos => find (secKey ++ ticker ++ '|' :: rest) askKey pos) = none) :
    parseSec stod (secKey ++ ticker ++ '|' :: rest) = none := by
  have htext : substr (secKey ++ ticker ++ '|' :: rest) 3 none =
      some ('|' :: (ticker ++ '|' :: rest)) := by
    rw [List.append_assoc]
    exact substr_sec _
  have hthree : plusFour none = 3 := rfl
  unfold parseSec
  simp only [find_ticker hticker, Option.bind_eq_bind, Option.bind_some, hbidStart, hbidEnd, hask,
    hthree, htext, hbar, Option.bind_none, Option.bind_fun_none]

/-- Without a bar behind the bid. -/
theorem parseSec_unclosed_bid (hticker : '|' ∉ ticker) (hcut : Cut bidKey beforeBid behindBid rest)
    (hbehind : '|' ∉ behindBid) : parseSec stod (secKey ++ ticker ++ '|' :: rest) = none := by
  have hbidEnd : find (secKey ++ ticker ++ '|' :: rest) ['|']
      (4 + ticker.length + (beforeBid.length + 1) + 4) = none := by
    rw [find_eq (secKey ++ ticker ++ '|' :: beforeBid ++ bidKey) behindBid
      (by rw [hcut.text_eq]; simp) (by simp [secKey, bidKey]; omega),
      findIn_absent List.mem_cons_self hbehind]
    rfl
  exact parseSec_no_ask hbar hticker (plusFour_bid hcut) hbidEnd rfl

/-- Without `ASK|`. -/
theorem parseSec_unmarked_ask (hticker : '|' ∉ ticker)
    (hcut : Cut bidKey beforeBid (bidText ++ '|' :: behindBar) rest) (hbid : '|' ∉ bidText)
    (hask : findIn askKey behindBar = none) :
    parseSec stod (secKey ++ ticker ++ '|' :: rest) = none := by
  refine parseSec_no_ask hbar hticker (plusFour_bid hcut) (find_bid_end hcut hbid) ?_
  rw [Option.bind_some, find_ask hcut, hask]
  rfl

omit hbar

/-- With all markers and bars, the two numbers decide. -/
theorem parseSec_marked {beforeAsk askText : Text} (hticker : '|' ∉ ticker)
    (hcut : Cut bidKey beforeBid (bidText ++ '|' :: behindBar) rest) (hbid : '|' ∉ bidText)
    (hcut' : Cut askKey beforeAsk askText behindBar) :
    parseSec stod (secKey ++ ticker ++ '|' :: rest) = do
      let bid ← stod bidText
      let ask ← stod askText
      return (ticker, bid, ask) := by
  have hask : find (secKey ++ ticker ++ '|' :: rest) askKey
      (4 + ticker.length + (beforeBid.length + 1) + 4 + bidText.length) =
      some (4 + ticker.length + (beforeBid.length + 1) + 4 + bidText.length +
        (beforeAsk.length + 1)) := by
    rw [find_ask hcut, findIn_cut hcut' (by decide)]
    rfl
  have hbidText : substr (secKey ++ ticker ++ '|' :: rest)
      (4 + ticker.length + (beforeBid.length + 1) + 4) (some bidText.length) = some bidText :=
    substr_at (secKey ++ ticker ++ '|' :: beforeBid ++ bidKey) bidText ('|' :: behindBar)
      (by rw [hcut.text_eq]; simp) (by simp [secKey, bidKey]; omega)
  have haskText : substr (secKey ++ ticker ++ '|' :: rest)
      (4 + ticker.length + (beforeBid.length + 1) + 4 + bidText.length +
        (beforeAsk.length + 1) + 4) none = some askText :=
    substr_rest (secKey ++ ticker ++ '|' :: beforeBid ++ bidKey ++ bidText ++ '|' :: beforeAsk ++
      askKey) askText (by rw [hcut.text_eq, hcut'.text_eq]; simp)
      (by simp [secKey, bidKey, askKey]; omega)
  have hname : ((secKey ++ ticker ++ '|' :: rest).drop 4).take (4 + ticker.length - 4) =
      ticker := by
    rw [Nat.add_sub_cancel_left, List.append_assoc]
    exact List.take_left
  have hfour : ∀ pos, plusFour (some pos) = pos + 4 := fun _ => rfl
  unfold parseSec
  simp only [find_ticker hticker, Option.bind_eq_bind, Option.bind_some, plusFour_bid hcut,
    find_bid_end hcut hbid, hask, hfour, Option.map_some, Nat.add_sub_cancel_left, hbidText,
    haskText]
  rw [Nat.add_sub_cancel_left] at hname
  rw [hname]

end Reading

/-! ### Well-formed lines and no others -/

variable {stod : Text → Option D} (hnil : stod [] = none)
  (hbar : ∀ text, stod ('|' :: text) = none)

include hnil hbar

/-- The client accepts exactly the well-formed lines. -/
theorem parseSec_iff {line : Text} (hsec : secKey <+: line) (ticker : Text) (bid ask : D) :
    parseSec stod line = some (ticker, bid, ask) ↔ WellFormed stod line ticker bid ask := by
  constructor
  · intro h
    obtain ⟨body, rfl⟩ := hsec
    by_cases hclosed : '|' ∈ body
    · obtain ⟨name, rest, rfl, hname⟩ := List.eq_append_cons_of_mem hclosed
      rw [← List.append_assoc] at h ⊢
      rcases findIn_cases bidKey rest with hnone | ⟨beforeBid, behindBid, hcut⟩
      · rw [parseSec_no_bid hnil hname hnone] at h
        cases h
      by_cases hend : '|' ∈ behindBid
      · obtain ⟨bidText, behindBar, rfl, hbidText⟩ := List.eq_append_cons_of_mem hend
        rcases findIn_cases askKey behindBar with hnone | ⟨beforeAsk, askText, hcut'⟩
        · rw [parseSec_unmarked_ask hbar hname hcut hbidText hnone] at h
          cases h
        rw [parseSec_marked hname hcut hbidText hcut'] at h
        obtain ⟨b, hb, h⟩ := Option.bind_eq_some_iff.mp h
        obtain ⟨a, ha, h⟩ := Option.bind_eq_some_iff.mp h
        cases h
        exact ⟨rest, beforeBid, _, bidText, behindBar, beforeAsk, askText, rfl, hname, hcut, rfl,
          hbidText, hcut', hb, ha⟩
      · rw [parseSec_unclosed_bid hbar hname hcut hend] at h
        cases h
    · rw [parseSec_unclosed hclosed] at h
      cases h
  · rintro ⟨rest, beforeBid, _, bidText, behindBar, beforeAsk, askText, rfl, hname, hcut, rfl,
      hbidText, hcut', hb, ha⟩
    rw [parseSec_marked hname hcut hbidText hcut', hb, ha]
    rfl

omit hnil hbar

/-! ### Packets -/

/-- The quote that a complete line records. -/
def quote (stod : Text → Option D) (line : Text) : Option (Text × D × D) :=
  if secKey.isPrefixOf line then parseSec stod line else none

theorem secUpdates_parseLine (parsed : Parsed D) (line : Text) :
    (parseLine stod parsed line).secUpdates = parsed.secUpdates ++ (quote stod line).toList := by
  rw [parseLine, quote]
  split_ifs
  · cases parseSec stod line <;> simp
  · cases fromChars (line.drop 13) <;> simp
  · simp
  · simp

/-- A packet records the quotes of its lines, in order. -/
theorem secUpdates_foldl (ls : List Text) (parsed : Parsed D) :
    (ls.foldl (parseLine stod) parsed).secUpdates =
      parsed.secUpdates ++ ls.filterMap (quote stod) := by
  induction ls generalizing parsed with
  | nil => simp
  | cons line ls ih =>
      rw [List.foldl_cons, ih, secUpdates_parseLine, List.append_assoc]
      cases hquote : quote stod line with
      | none => rw [List.filterMap_cons_none hquote]; rfl
      | some update => rw [List.filterMap_cons_some hquote]; rfl

theorem secUpdates_parsePacket (data : Text) :
    (parsePacket stod data).secUpdates = (lines '\n' data).filterMap (quote stod) :=
  secUpdates_foldl (lines '\n' data) .nothing

include hnil hbar in
theorem quote_iff (line ticker : Text) (bid ask : D) :
    quote stod line = some (ticker, bid, ask) ↔ WellFormed stod line ticker bid ask := by
  rw [quote]
  split_ifs with hsec
  · exact parseSec_iff hnil hbar (List.isPrefixOf_iff_prefix.mp hsec) ticker bid ask
  · refine iff_of_false (by simp) ?_
    rintro ⟨rest, _, _, _, _, _, _, rfl, -⟩
    exact hsec (List.isPrefixOf_iff_prefix.mpr ⟨ticker ++ '|' :: rest, by simp⟩)

theorem WellFormed.marked {line ticker : Text} {bid ask : D}
    (h : WellFormed stod line ticker bid ask) : bidKey <:+: line ∧ askKey <:+: line := by
  obtain ⟨rest, beforeBid, behindBid, bidText, behindBar, beforeAsk, askText, rfl, -, hcut, rfl, -,
    hcut', -⟩ := h
  constructor
  · exact ⟨secKey ++ ticker ++ '|' :: beforeBid, bidText ++ '|' :: behindBar,
      by rw [hcut.text_eq]; simp⟩
  · exact ⟨secKey ++ ticker ++ '|' :: beforeBid ++ bidKey ++ bidText ++ '|' :: beforeAsk, askText,
      by rw [hcut.text_eq, hcut'.text_eq]; simp⟩

/-- The line that the server writes for a ticker, with the texts of the two numbers. -/
def serverLine (ticker bidText askText : Text) : Text :=
  secKey ++ ticker ++ '|' :: bidKey ++ bidText ++ '|' :: askKey ++ askText

theorem serverLine_render (fmt : PriceFormat D) (ticker : Text) (bid ask : D) :
    serverLine ticker (fmt.put bid) (fmt.put ask) = fmt.render (.sec ticker bid ask) := rfl

theorem serverLine_wellFormed {ticker bidText askText : Text} {bid ask : D}
    (hticker : '|' ∉ ticker) (hbidText : '|' ∉ bidText) (hbid : stod bidText = some bid)
    (hask : stod askText = some ask) :
    WellFormed stod (serverLine ticker bidText askText) ticker bid ask :=
  ⟨bidKey ++ bidText ++ '|' :: askKey ++ askText, [], bidText ++ '|' :: (askKey ++ askText),
    bidText, askKey ++ askText, [], askText, by simp [serverLine], hticker,
    ⟨by simp, fun i hi => absurd hi (Nat.not_lt_zero i)⟩, rfl, hbidText,
    ⟨rfl, fun i hi => absurd hi (Nat.not_lt_zero i)⟩, hbid, hask⟩

/-- A line that is not well formed says nothing. -/
theorem parseLine_malformed {line : Text} (hsec : secKey <+: line) (hquote : quote stod line = none)
    (parsed : Parsed D) : parseLine stod parsed line = parsed := by
  have hkey := List.isPrefixOf_iff_prefix.mpr hsec
  rw [quote, if_pos hkey] at hquote
  rw [parseLine, if_pos hkey, hquote]

include hnil hbar in
/-- What the client reads of a packet: the quotes of the well-formed `SEC` lines among its
complete lines, in order. A line without both markers is not well formed; the server's lines are;
and a packet says the same without a `SEC` line that is not well formed. -/
theorem quotes_eq (data : Text) :
    (parsePacket stod data).secUpdates = (lines '\n' data).filterMap (quote stod) ∧
    (∀ line ticker bid ask,
      quote stod line = some (ticker, bid, ask) ↔ WellFormed stod line ticker bid ask) ∧
    (∀ line, ¬ bidKey <:+: line ∨ ¬ askKey <:+: line → quote stod line = none) ∧
    (∀ ticker bidText askText bid ask, '|' ∉ ticker → '\n' ∉ ticker → '|' ∉ bidText →
      '\n' ∉ bidText → '\n' ∉ askText → stod bidText = some bid → stod askText = some ask →
      (parsePacket stod (serverLine ticker bidText askText ++ '\n' :: data)).secUpdates =
        (ticker, bid, ask) :: (parsePacket stod data).secUpdates) ∧
    (∀ before line behind, lines '\n' data = before ++ line :: behind → secKey <+: line →
      (¬ ∃ ticker bid ask, WellFormed stod line ticker bid ask) →
      parsePacket stod data = (before ++ behind).foldl (parseLine stod) .nothing) := by
  refine ⟨secUpdates_parsePacket data, quote_iff hnil hbar, fun line hmissing => ?_, ?_, ?_⟩
  · rw [Option.eq_none_iff_forall_ne_some]
    rintro ⟨ticker, bid, ask⟩ hquote
    obtain ⟨hbid, hask⟩ := ((quote_iff hnil hbar line ticker bid ask).mp hquote).marked
    rcases hmissing with hnot | hnot
    · exact hnot hbid
    · exact hnot hask
  · intro ticker bidText askText bid ask hticker hticker' hbidText hbidText' haskText hbid hask
    have hquote := (quote_iff hnil hbar _ _ _ _).mpr
      (serverLine_wellFormed hticker hbidText hbid hask)
    have hnewline : '\n' ∉ serverLine ticker bidText askText := by
      simp [serverLine, secKey, bidKey, askKey, hticker', hbidText', haskText]
    rw [secUpdates_parsePacket, lines_append hnewline, List.filterMap_cons_some hquote,
      secUpdates_parsePacket]
  · intro before line behind hlines hsec hnot
    have hquote : quote stod line = none := by
      rw [Option.eq_none_iff_forall_ne_some]
      rintro ⟨ticker, bid, ask⟩ hsome
      exact hnot ⟨ticker, bid, ask, (quote_iff hnil hbar line ticker bid ask).mp hsome⟩
    rw [parsePacket, hlines, List.foldl_append, List.foldl_cons,
      parseLine_malformed hsec hquote, ← List.foldl_append]

/-- `std::stod` of decimal numerals, on a packet with one line. -/
theorem quotes_eq_decimal :
    (parsePacket (HftProject.stod (R := ℚ)) (serverLine ['A'] ['1'] ['2'] ++ ['\n'])).secUpdates =
        (lines '\n' (serverLine ['A'] ['1'] ['2'] ++ ['\n'])).filterMap
          (quote (HftProject.stod (R := ℚ))) ∧
      ∀ line ticker bid ask, quote (HftProject.stod (R := ℚ)) line = some (ticker, bid, ask) ↔
        WellFormed (HftProject.stod (R := ℚ)) line ticker bid ask :=
  ⟨(quotes_eq rfl (fun _ => rfl) _).1, (quotes_eq rfl (fun _ => rfl) []).2.1⟩

end HftProject.SecLines
