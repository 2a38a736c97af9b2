import HftProject.Challenge.Reading
import Mathlib.Data.List.Nodup

/-!
What the client reads from the fragments of a message. A fragment says what the lines say that
lie in it whole (`parsePacket_fragment`); a line that a cut goes through is lost. Before the
fragment with the `CHALLENGE_ID` line there are only `SEC` lines, and behind it none.
-/

namespace HftProject

open Lines

variable {D : Type} (fmt : PriceFormat D)

namespace Challenge

/-- A challenge that `generate_challenge` can make: an `int` counted from 1, plain tickers,
each of them once, and one of them the target. -/
structure Plain (c : Challenge D) : Prop where
  idPos : 0 < c.challengeId
  idInt : c.challengeId < 2 ^ 31
  tickers : ∀ entry ∈ c.marketData, PlainTicker entry.1.toList
  keys : (c.marketData.map (·.1)).Nodup
  target : c.targetTicker ∈ c.marketData.map (·.1)

/-- The `CHALLENGE_ID` line. -/
def idLine (c : Challenge D) : Line D := .challengeId c.challengeId

/-- The `TARGET` line. -/
def targetLine (c : Challenge D) : Line D := .target c.targetTicker.toList

/-- Where the `CHALLENGE_ID` line starts, behind the `SEC` lines. -/
def idStart (c : Challenge D) : Nat := (c.quotes.map fmt.size).sum

/-- Where the `TARGET` line starts. -/
def targetStart (c : Challenge D) : Nat := c.idStart fmt + fmt.size c.idLine

/-- The lines that lie whole in a fragment. -/
def whole (fragmentSize : Nat) (c : Challenge D) (k : Nat) : List (Line D) :=
  inWindow fmt.size (k * fragmentSize) (k * fragmentSize + fragmentSize) 0 c.messageLines

variable {c : Challenge D} {fragmentSize : Nat}

/-! ### The lines of a message -/

theorem Plain.targetPlain (hc : c.Plain) : PlainTicker c.targetTicker.toList := by
  obtain ⟨entry, hentry, htarget⟩ := List.mem_map.mp hc.target
  exact htarget ▸ hc.tickers entry hentry

theorem Plain.lines (hc : c.Plain) : ∀ line ∈ c.messageLines, line.Plain := by
  intro line hline
  rcases List.mem_append.mp hline with hquote | hrest
  · obtain ⟨entry, hentry, rfl⟩ := List.mem_map.mp hquote
    exact hc.tickers entry hentry
  · simp only [List.mem_cons, List.not_mem_nil, or_false] at hrest
    rcases hrest with rfl | rfl
    · exact ⟨hc.idPos, hc.idInt⟩
    · exact hc.targetPlain

/-- Two quotes of one ticker are the same. -/
theorem Plain.quote_unique (hc : c.Plain) {ticker : Text} {bid ask bid' ask' : D}
    (h : Line.sec ticker bid ask ∈ c.quotes) (h' : Line.sec ticker bid' ask' ∈ c.quotes) :
    bid' = bid ∧ ask' = ask := by
  obtain ⟨entry, hentry, heq⟩ := List.mem_map.mp h
  obtain ⟨entry', hentry', heq'⟩ := List.mem_map.mp h'
  cases heq
  injection heq' with hticker hbid hask
  have hsame : entry' = entry :=
    List.inj_on_of_nodup_map hc.keys hentry' hentry (String.toList_inj.mp hticker)
  subst hsame
  exact ⟨hbid.symm, hask.symm⟩

theorem mem_quotes {line : Line D} (h : line ∈ c.quotes) :
    ∃ ticker bid ask, line = .sec ticker bid ask := by
  obtain ⟨entry, -, rfl⟩ := List.mem_map.mp h
  exact ⟨_, _, _, rfl⟩

theorem size_pos (line : Line D) : 0 < fmt.size line := Nat.succ_pos _

/-! ### The lines of a fragment -/

/-- The lines of a fragment, in parts. -/
theorem whole_eq (k : Nat) :
    c.whole fmt fragmentSize k =
      inWindow fmt.size (k * fragmentSize) (k * fragmentSize + fragmentSize) 0 c.quotes ++
        (inWindow fmt.size (k * fragmentSize) (k * fragmentSize + fragmentSize) (c.idStart fmt)
            [c.idLine] ++
          inWindow fmt.size (k * fragmentSize) (k * fragmentSize + fragmentSize)
            (c.targetStart fmt) [c.targetLine]) := by
  have hlines : c.messageLines = c.quotes ++ ([c.idLine] ++ [c.targetLine]) := rfl
  rw [whole, hlines, inWindow_append, inWindow_append, Nat.zero_add]
  rfl

theorem mem_whole_quotes {k : Nat} {ticker : Text} {bid ask : D} :
    .sec ticker bid ask ∈ c.whole fmt fragmentSize k ↔
      .sec ticker bid ask ∈
        inWindow fmt.size (k * fragmentSize) (k * fragmentSize + fragmentSize) 0 c.quotes := by
  rw [whole_eq, List.mem_append]
  constructor
  · rintro (hquote | hrest)
    · exact hquote
    · rcases List.mem_append.mp hrest with hid | htarget
      · have hline := (inWindow_sublist _ _).subset hid
        simp [idLine] at hline
      · have hline := (inWindow_sublist _ _).subset htarget
        simp [targetLine] at hline
  · exact .inl

/-- Among the `SEC` lines of a fragment there is no other line. -/
theorem not_mem_window_quotes {line : Line D} (h : ∀ ticker bid ask, line ≠ .sec ticker bid ask)
    {low high : Nat} : line ∉ inWindow fmt.size low high 0 c.quotes := by
  intro hmem
  obtain ⟨ticker, bid, ask, hline⟩ := mem_quotes ((inWindow_sublist _ _).subset hmem)
  exact h ticker bid ask hline

/-- Where the `CHALLENGE_ID` line is whole. -/
theorem idLine_mem_whole {k : Nat} :
    c.idLine ∈ c.whole fmt fragmentSize k ↔
      k * fragmentSize ≤ c.idStart fmt ∧
        c.targetStart fmt ≤ k * fragmentSize + fragmentSize := by
  have hquotes : c.idLine ∉
      inWindow fmt.size (k * fragmentSize) (k * fragmentSize + fragmentSize) 0 c.quotes :=
    not_mem_window_quotes fmt (by simp [idLine])
  have htarget : c.idLine ∉ inWindow fmt.size (k * fragmentSize)
      (k * fragmentSize + fragmentSize) (c.targetStart fmt) [c.targetLine] := by
    intro hmem
    have hline := (inWindow_sublist _ _).subset hmem
    simp [idLine, targetLine] at hline
  rw [whole_eq, List.mem_append, List.mem_append, or_iff_right hquotes, or_iff_left htarget,
    mem_inWindow_singleton, targetStart]

/-- Where the `TARGET` line is whole. -/
theorem targetLine_mem_whole {k : Nat} :
    c.targetLine ∈ c.whole fmt fragmentSize k ↔
      k * fragmentSize ≤ c.targetStart fmt ∧
        c.targetStart fmt + fmt.size c.targetLine ≤ k * fragmentSize + fragmentSize := by
  have hquotes : c.targetLine ∉
      inWindow fmt.size (k * fragmentSize) (k * fragmentSize + fragmentSize) 0 c.quotes :=
    not_mem_window_quotes fmt (by simp [targetLine])
  have hid : c.targetLine ∉ inWindow fmt.size (k * fragmentSize)
      (k * fragmentSize + fragmentSize) (c.idStart fmt) [c.idLine] := by
    intro hmem
    have hline := (inWindow_sublist _ _).subset hmem
    simp [idLine, targetLine] at hline
  rw [whole_eq, List.mem_append, List.mem_append, or_iff_right hquotes, or_iff_right hid,
    mem_inWindow_singleton]

/-- A `SEC` line is whole in a fragment that starts before the `CHALLENGE_ID` line. -/
theorem sec_mem_whole {k : Nat} {ticker : Text} {bid ask : D}
    (h : .sec ticker bid ask ∈ c.whole fmt fragmentSize k) :
    .sec ticker bid ask ∈ c.quotes ∧ k * fragmentSize < c.idStart fmt := by
  have hmem := (mem_whole_quotes fmt).mp h
  refine ⟨(inWindow_sublist _ _).subset hmem, ?_⟩
  by_contra hlate
  have hnone : inWindow fmt.size (k * fragmentSize) (k * fragmentSize + fragmentSize) 0 c.quotes =
      [] :=
    inWindow_before 0 c.quotes (fun line _ => size_pos fmt line) (by
      rw [Nat.zero_add]
      exact Nat.not_lt.mp hlate)
  rw [hnone] at hmem
  exact absurd hmem (by simp)

/-- A line in a fragment is a quote or one of the last two. -/
theorem whole_cases {k : Nat} {line : Line D} (h : line ∈ c.whole fmt fragmentSize k) :
    (∃ ticker bid ask, line = .sec ticker bid ask) ∨ line = c.idLine ∨ line = c.targetLine := by
  have hline := (inWindow_sublist _ _).subset h
  rcases List.mem_append.mp hline with hquote | hrest
  · exact .inl (mem_quotes hquote)
  · right
    simpa [idLine, targetLine] using hrest

theorem challengeId_mem_whole {k : Nat} {id : Int}
    (h : .challengeId id ∈ c.whole fmt fragmentSize k) : id = c.challengeId := by
  rcases whole_cases fmt h with ⟨_, _, _, hline⟩ | hline | hline <;> cases hline
  rfl

theorem target_mem_whole {k : Nat} {ticker : Text}
    (h : .target ticker ∈ c.whole fmt fragmentSize k) : ticker = c.targetTicker.toList := by
  rcases whole_cases fmt h with ⟨_, _, _, hline⟩ | hline | hline <;> cases hline
  rfl

/-- Fragments before the `CHALLENGE_ID` line have `SEC` lines only. -/
theorem not_mem_whole_of_before {j k : Nat} (h : c.idLine ∈ c.whole fmt fragmentSize k)
    (hj : j < k) : c.idLine ∉ c.whole fmt fragmentSize j ∧
      c.targetLine ∉ c.whole fmt fragmentSize j := by
  have hstart := ((idLine_mem_whole fmt).mp h).1
  have hnext : j * fragmentSize + fragmentSize ≤ k * fragmentSize := by
    rw [← Nat.succ_mul]
    exact Nat.mul_le_mul_right _ hj
  have hid := size_pos fmt c.idLine
  have htarget := size_pos fmt c.targetLine
  rw [idLine_mem_whole, targetLine_mem_whole, targetStart]
  constructor
  · omega
  · omega

/-- Fragments behind the `CHALLENGE_ID` line have the `TARGET` line only. -/
theorem not_mem_whole_of_behind {j k : Nat} (h : c.idLine ∈ c.whole fmt fragmentSize k)
    (hj : k < j) : c.idLine ∉ c.whole fmt fragmentSize j ∧
      ∀ ticker bid ask, .sec ticker bid ask ∉ c.whole fmt fragmentSize j := by
  have hend := ((idLine_mem_whole fmt).mp h).2
  have hnext : k * fragmentSize + fragmentSize ≤ j * fragmentSize := by
    rw [← Nat.succ_mul]
    exact Nat.mul_le_mul_right _ hj
  have hid := size_pos fmt c.idLine
  rw [targetStart] at hend
  constructor
  · rw [idLine_mem_whole]
    omega
  · intro ticker bid ask hmem
    have hquote := (sec_mem_whole fmt hmem).2
    omega

/-- The `CHALLENGE_ID` line is whole in one fragment at most. -/
theorem idLine_unique {j k : Nat} (h : c.idLine ∈ c.whole fmt fragmentSize j)
    (h' : c.idLine ∈ c.whole fmt fragmentSize k) : j = k :=
  window_unique (Nat.lt_add_of_pos_right (size_pos fmt c.idLine)) ((idLine_mem_whole fmt).mp h)
    ((idLine_mem_whole fmt).mp h')

/-- The `TARGET` line is whole in one fragment at most. -/
theorem targetLine_unique {j k : Nat} (h : c.targetLine ∈ c.whole fmt fragmentSize j)
    (h' : c.targetLine ∈ c.whole fmt fragmentSize k) : j = k :=
  window_unique (Nat.lt_add_of_pos_right (size_pos fmt c.targetLine))
    ((targetLine_mem_whole fmt).mp h) ((targetLine_mem_whole fmt).mp h')

end Challenge

/-! ### What lines say together -/

/-- The entry that a line brings to the client. -/
def PriceFormat.entry : Line D → Option (Text × D × D)
  | .sec ticker bid ask => some (ticker, fmt.shown bid, fmt.shown ask)
  | .challengeId _ => none
  | .target _ => none

theorem absorb_secUpdates (ls : List (Line D)) (parsed : Parsed D) :
    (ls.foldl (absorb fmt) parsed).secUpdates = parsed.secUpdates ++ ls.filterMap fmt.entry := by
  induction ls generalizing parsed with
  | nil => simp
  | cons line ls ih =>
      rw [List.foldl_cons, ih]
      cases line with
      | sec ticker bid ask => simp [absorb, PriceFormat.entry]
      | challengeId id => rfl
      | target ticker => rfl

/-- A field that some items set, when none of them is read. -/
theorem foldl_field_none {S B X : Type} {read : S → B → S} {field : S → Option X}
    {value : B → Option X} (hread : ∀ s b, field (read s b) = (value b).or (field s)) {bs : List B}
    (h : ∀ b ∈ bs, value b = none) (s : S) : field (bs.foldl read s) = field s := by
  induction bs generalizing s with
  | nil => rfl
  | cons b bs ih =>
      rw [List.foldl_cons, ih (fun b' hmem => h b' (List.mem_cons_of_mem b hmem)), hread,
        h b List.mem_cons_self, Option.none_or]

/-- A field that some items set, all of them to the same value. -/
theorem foldl_field_some {S B X : Type} {read : S → B → S} {field : S → Option X}
    {value : B → Option X} (hread : ∀ s b, field (read s b) = (value b).or (field s)) {bs : List B}
    {b : B} {x : X} (hmem : b ∈ bs) (hb : value b = some x)
    (h : ∀ b' ∈ bs, value b' = none ∨ value b' = some x) (s : S) :
    field (bs.foldl read s) = some x := by
  induction bs generalizing b s with
  | nil => exact absurd hmem (by simp)
  | cons first bs ih =>
      have hrest : ∀ b' ∈ bs, value b' = none ∨ value b' = some x :=
        fun b' hmem' => h b' (List.mem_cons_of_mem first hmem')
      rw [List.foldl_cons]
      by_cases hlater : ∃ b' ∈ bs, value b' = some x
      · obtain ⟨b', hmem', hb'⟩ := hlater
        exact ih hmem' hb' hrest _
      · -- the first item is the last that sets the field
        have hnone : ∀ b' ∈ bs, value b' = none :=
          fun b' hmem' => (hrest b' hmem').resolve_right fun hb' => hlater ⟨b', hmem', hb'⟩
        obtain rfl := (List.mem_cons.mp hmem).resolve_right fun hmem' => hlater ⟨b, hmem', hb⟩
        rw [foldl_field_none hread hnone, hread, hb, Option.some_or]

/-- The id that a line brings. -/
def Line.id? : Line D → Option Int
  | .challengeId id => some id
  | .sec _ _ _ => none
  | .target _ => none

/-- The target that a line brings. -/
def Line.target? : Line D → Option Text
  | .target ticker => some ticker
  | .sec _ _ _ => none
  | .challengeId _ => none

theorem absorb_challengeId (parsed : Parsed D) (line : Line D) :
    (absorb fmt parsed line).challengeId = line.id?.or parsed.challengeId := by
  cases line with
  | sec ticker bid ask => rfl
  | challengeId id => rfl
  | target ticker => rfl

theorem absorb_target (parsed : Parsed D) (line : Line D) :
    (absorb fmt parsed line).target = line.target?.or parsed.target := by
  cases line with
  | sec ticker bid ask => rfl
  | challengeId id => rfl
  | target ticker => rfl

/-! ### What a fragment says -/

theorem fragments_eq (fragmentSize : Nat) (message : Text) :
    fragments fragmentSize message =
      (List.range ((message.length + fragmentSize - 1) / fragmentSize)).map fun i =>
        (message.drop (i * fragmentSize)).take fragmentSize := by
  rw [fragments]
  refine List.map_congr_left fun i _ => ?_
  change (message.drop (i * fragmentSize)).take
    (min fragmentSize (message.length - i * fragmentSize)) = _
  rw [← List.length_drop, ← List.take_eq_take_min]

namespace Challenge

variable {c : Challenge D} {fragmentSize : Nat}

/-- The number of fragments. -/
def numFragments (fragmentSize : Nat) (c : Challenge D) : Nat :=
  ((c.message fmt).length + fragmentSize - 1) / fragmentSize

/-- What the lines of a fragment say. -/
def content (fragmentSize : Nat) (c : Challenge D) (k : Nat) : Parsed D :=
  (c.whole fmt fragmentSize k).foldl (absorb fmt) .nothing

/-- What the client reads from the fragments. -/
theorem Plain.parsePacket_fragments (hc : c.Plain) :
    (fragments fragmentSize (c.message fmt)).map (parsePacket fmt) =
      (List.range (c.numFragments fmt fragmentSize)).map (c.content fmt fragmentSize) := by
  rw [fragments_eq, List.map_map]
  refine List.map_congr_left fun i _ => ?_
  exact parsePacket_window fmt hc.lines (i * fragmentSize) fragmentSize

theorem mem_content_secUpdates {k : Nat} {ticker : Text} {quote : D × D} :
    (ticker, quote) ∈ (c.content fmt fragmentSize k).secUpdates ↔
      ∃ bid ask, .sec ticker bid ask ∈ c.whole fmt fragmentSize k ∧
        quote = (fmt.shown bid, fmt.shown ask) := by
  rw [content, absorb_secUpdates, Parsed.nothing, List.nil_append, List.mem_filterMap]
  constructor
  · rintro ⟨line, hline, hentry⟩
    cases line with
    | sec ticker' bid ask =>
        injection hentry with hentry
        cases hentry
        exact ⟨bid, ask, hline, rfl⟩
    | challengeId id => cases hentry
    | target ticker' => cases hentry
  · rintro ⟨bid, ask, hline, rfl⟩
    exact ⟨_, hline, rfl⟩

theorem whole_id? {k : Nat} {line : Line D} (h : line ∈ c.whole fmt fragmentSize k) :
    line.id? = none ∨ (line = c.idLine ∧ line.id? = some c.challengeId) := by
  cases line with
  | sec ticker bid ask => exact .inl rfl
  | challengeId id =>
      obtain rfl := challengeId_mem_whole fmt h
      exact .inr ⟨rfl, rfl⟩
  | target ticker => exact .inl rfl

theorem whole_target? {k : Nat} {line : Line D} (h : line ∈ c.whole fmt fragmentSize k) :
    line.target? = none ∨
      (line = c.targetLine ∧ line.target? = some c.targetTicker.toList) := by
  cases line with
  | sec ticker bid ask => exact .inl rfl
  | challengeId id => exact .inl rfl
  | target ticker =>
      obtain rfl := target_mem_whole fmt h
      exact .inr ⟨rfl, rfl⟩

theorem content_challengeId {k : Nat} (h : c.idLine ∈ c.whole fmt fragmentSize k) :
    (c.content fmt fragmentSize k).challengeId = some c.challengeId :=
  foldl_field_some (absorb_challengeId fmt) h rfl
    (fun _ hline => (whole_id? fmt hline).imp_right And.right) _

theorem content_challengeId_none {k : Nat} (h : c.idLine ∉ c.whole fmt fragmentSize k) :
    (c.content fmt fragmentSize k).challengeId = none :=
  foldl_field_none (absorb_challengeId fmt) (fun _ hline => (whole_id? fmt hline).resolve_right
    fun hid => h (hid.1 ▸ hline)) _

theorem content_target {k : Nat} (h : c.targetLine ∈ c.whole fmt fragmentSize k) :
    (c.content fmt fragmentSize k).target = some c.targetTicker.toList :=
  foldl_field_some (absorb_target fmt) h rfl
    (fun _ hline => (whole_target? fmt hline).imp_right And.right) _

theorem content_target_none {k : Nat} (h : c.targetLine ∉ c.whole fmt fragmentSize k) :
    (c.content fmt fragmentSize k).target = none :=
  foldl_field_none (absorb_target fmt) (fun _ hline => (whole_target? fmt hline).resolve_right
    fun htarget => h (htarget.1 ▸ hline)) _

/-- Behind the `CHALLENGE_ID` line there is the target to read, or nothing. -/
theorem content_behind {j k : Nat} (h : c.idLine ∈ c.whole fmt fragmentSize k) (hj : k < j) :
    c.content fmt fragmentSize j = ⟨[], none, (c.content fmt fragmentSize j).target⟩ := by
  obtain ⟨hid, hquotes⟩ := not_mem_whole_of_behind fmt h hj
  have hupdates : (c.content fmt fragmentSize j).secUpdates = [] := by
    rw [List.eq_nil_iff_forall_not_mem]
    rintro ⟨ticker, quote⟩ hmem
    obtain ⟨bid, ask, hline, -⟩ := (mem_content_secUpdates fmt).mp hmem
    exact hquotes ticker bid ask hline
  rw [← hupdates, ← content_challengeId_none fmt hid]

theorem length_message : (c.message fmt).length = (c.messageLines.map fmt.size).sum := by
  rw [message]
  induction c.messageLines with
  | nil => rfl
  | cons line ls ih =>
      rw [List.map_cons, unlines_cons, List.length_append, List.length_cons, ih, List.map_cons,
        List.sum_cons, PriceFormat.size]
      omega

theorem length_message_eq :
    (c.message fmt).length = c.targetStart fmt + fmt.size c.targetLine := by
  have hlines : c.messageLines = c.quotes ++ [c.idLine, c.targetLine] := rfl
  rw [length_message, hlines, List.map_append, List.sum_append, targetStart, idStart]
  simp [Nat.add_assoc]

/-- A line that is whole somewhere is whole in one of the fragments. -/
theorem lt_numFragments (hsize : 0 < fragmentSize) {k : Nat} {line : Line D}
    (h : line ∈ c.whole fmt fragmentSize k) : k < c.numFragments fmt fragmentSize := by
  have hbefore : k * fragmentSize < (c.message fmt).length := by
    by_contra hlate
    have hnone : inWindow fmt.size (k * fragmentSize) (k * fragmentSize + fragmentSize) 0
        c.messageLines = [] :=
      inWindow_before 0 c.messageLines (fun line _ => size_pos fmt line) (by
        rw [Nat.zero_add, ← length_message]
        exact Nat.not_lt.mp hlate)
    rw [whole, hnone] at h
    exact absurd h (by simp)
  refine (Nat.le_div_iff_mul_le hsize).mpr ?_
  rw [Nat.succ_mul]
  omega

end Challenge

/-! ### Generated challenges -/

theorem tickerName_toList (i : Nat) :
    (tickerName i).toList = 'S' :: 'E' :: 'C' ::
      (List.replicate (4 - (Nat.toDigits 10 i).length) '0' ++ Nat.toDigits 10 i) := by
  simp [tickerName]

theorem tickerName_injective {i j : Nat} (h : tickerName i = tickerName j) : i = j := by
  have hlists := congrArg String.toList h
  rw [tickerName_toList, tickerName_toList] at hlists
  injection hlists with _ hlists
  injection hlists with _ hlists
  injection hlists with _ hlists
  have hvalue : ∀ n m : Nat,
      Nat.ofDigitChars 10 (List.replicate n '0' ++ Nat.toDigits 10 m) 0 = m := by
    intro n m
    rw [Nat.ofDigitChars_append, Nat.ofDigitChars_replicate_zero, Nat.mul_zero,
      Nat.ofDigitChars_ten_toDigits]
  rw [← hvalue _ i, hlists, hvalue]

theorem plainTicker_tickerName (i : Nat) : PlainTicker (tickerName i).toList := by
  have hchars : ∀ c ∈ (tickerName i).toList, c ∈ ['S', 'E', 'C'] ∨ c.isDigit = true := by
    intro c hc
    rw [tickerName_toList] at hc
    simp only [List.mem_cons, List.mem_append, List.mem_replicate] at hc
    rcases hc with rfl | rfl | rfl | ⟨-, rfl⟩ | hdigit
    · exact .inl (by decide)
    · exact .inl (by decide)
    · exact .inl (by decide)
    · exact .inr rfl
    · exact .inr (Nat.isDigit_of_mem_toDigits (by decide) (by decide) hdigit)
  have habsent : ∀ c, c ∉ ['S', 'E', 'C'] → c.isDigit = false → c ∉ (tickerName i).toList := by
    intro c hletter hdigit hc
    rcases hchars c hc with hc | hc
    · exact hletter hc
    · exact Bool.false_ne_true (hdigit.symm.trans hc)
  constructor
  · rw [tickerName_toList]
    simp
  · exact habsent _ (by decide) rfl
  · exact habsent _ (by decide) rfl
  · exact habsent _ (by decide) rfl

/-- The challenges that are broadcast are plain, as long as their number is an `int`. -/
theorem generateChallenge_plain [Add D] (draws : Draws D) {globalChallengeId : Int}
    (hpos : 0 ≤ globalChallengeId) (hint : globalChallengeId + 1 < 2 ^ 31) :
    (generateChallenge draws globalChallengeId).Plain where
  idPos := by
    change 0 < globalChallengeId + 1
    omega
  idInt := hint
  tickers := by
    intro entry hentry
    simp only [generateChallenge, List.mem_map] at hentry
    obtain ⟨k, -, rfl⟩ := hentry
    exact plainTicker_tickerName (k + 1)
  keys := by
    rw [generateChallenge, List.map_map]
    refine List.Nodup.map ?_ List.nodup_range
    intro i j h
    exact Nat.succ_injective (tickerName_injective h)
  target := by
    have hlt : (draws.target : Nat) ∈ List.range 1000 := List.mem_range.mpr draws.target.isLt
    rw [generateChallenge, List.map_map]
    exact List.mem_map.mpr ⟨_, hlt, rfl⟩

theorem length_tickerName {i : Nat} (h : i < 10 ^ 4) : (tickerName i).toList.length = 7 := by
  have hdigits := (Nat.length_toDigits_le_iff (by decide) (by decide : 0 < 4)).mpr h
  rw [tickerName_toList]
  simp only [List.length_cons, List.length_append, List.length_replicate]
  omega

/-- Draws that give each ticker the same prices. -/
def Draws.constant (bid inc : D) (target : Fin 1000) : Draws D :=
  ⟨fun _ => bid, fun _ => inc, target⟩

theorem size_sec {i : Nat} (h : i < 10 ^ 4) (bid ask : D) :
    fmt.size (.sec (tickerName i).toList bid ask) =
      22 + (fmt.put bid).length + (fmt.put ask).length := by
  simp only [PriceFormat.size, PriceFormat.render, List.length_append, List.length_cons,
    length_tickerName h]
  simp only [secKey, bidKey, askKey, List.length_cons, List.length_nil]
  omega

/-- With the same prices for all tickers, all `SEC` lines have the same size. -/
theorem idStart_constant [Add D] (bid inc : D) (target : Fin 1000) (globalChallengeId : Int) :
    (generateChallenge (Draws.constant bid inc target) globalChallengeId).idStart fmt =
      1000 * (22 + (fmt.put bid).length + (fmt.put (bid + inc)).length) := by
  have hsame : (List.range 1000).map (fun k =>
        fmt.size (.sec (tickerName (k + 1)).toList bid (bid + inc))) =
      (List.range 1000).map fun _ =>
        22 + (fmt.put bid).length + (fmt.put (bid + inc)).length := by
    refine List.map_congr_left fun k hk => size_sec fmt ?_ bid (bid + inc)
    have hlt := List.mem_range.mp hk
    omega
  have hsum := congrArg List.sum hsame
  rw [List.map_const', List.length_range, List.sum_replicate_nat] at hsum
  rw [Challenge.idStart, Challenge.quotes, generateChallenge, List.map_map, List.map_map]
  exact hsum

theorem constant_quotes_getElem? [Add D] {bid inc : D} {target : Fin 1000}
    {globalChallengeId : Int} {i : Nat} {line : Line D} :
    (generateChallenge (Draws.constant bid inc target) globalChallengeId).quotes[i]? = some line ↔
      i < 1000 ∧ line = .sec (tickerName (i + 1)).toList bid (bid + inc) := by
  rw [Challenge.quotes, generateChallenge, List.map_map, List.getElem?_map, Option.map_eq_some_iff]
  constructor
  · rintro ⟨k, hk, rfl⟩
    obtain ⟨hlt, rfl⟩ := List.getElem?_eq_some_iff.mp hk
    rw [List.length_range] at hlt
    rw [List.getElem_range]
    exact ⟨hlt, rfl⟩
  · rintro ⟨hlt, rfl⟩
    exact ⟨i, List.getElem?_range hlt, rfl⟩

end HftProject
