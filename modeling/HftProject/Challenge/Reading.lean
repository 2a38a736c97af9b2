import HftProject.Challenge.Client
import Mathlib.Data.List.TakeWhile
import Mathlib.Tactic.IntervalCases

/-!
What `process_queued_message` reads from a line of a message and from the rest of one. A
whole line is read as what it says, and the rest of a line that starts in an earlier packet
is read as nothing (`parseLine_rest`). So a packet says what its whole lines say
(`parsePacket_window`).
-/

namespace HftProject

open Lines

variable {D : Type} (fmt : PriceFormat D)

/-! ### Lines as they should be -/

/-- A ticker as `generate_challenge` makes them: not empty, and without the characters that
the lines are made with. -/
structure PlainTicker (ticker : Text) : Prop where
  nonempty : ticker ≠ []
  noBar : '|' ∉ ticker
  noColon : ':' ∉ ticker
  noNewline : '\n' ∉ ticker

/-- The tickers of the line are plain, and its id is a positive `int`. -/
def Line.Plain : Line D → Prop
  | .sec ticker _ _ => PlainTicker ticker
  | .challengeId id => 0 < id ∧ id < 2 ^ 31
  | .target ticker => PlainTicker ticker

/-- What a line adds. -/
def absorb (parsed : Parsed D) : Line D → Parsed D
  | .sec ticker bid ask =>
      { parsed with secUpdates := parsed.secUpdates ++ [(ticker, fmt.shown bid, fmt.shown ask)] }
  | .challengeId id => { parsed with challengeId := some id }
  | .target ticker => { parsed with target := some ticker }

theorem PriceFormat.not_mem_put {c : Char} (h : ¬ PriceChar c) (d : D) : c ∉ fmt.put d :=
  fun hmem => h (fmt.plain d c hmem)

/-! ### Searching -/

theorem findIn_bar {x : Text} (h : '|' ∉ x) (y : Text) :
    findIn ['|'] (x ++ '|' :: y) = some x.length := by
  induction x with
  | nil => rfl
  | cons c x ih =>
      have hc : ¬ '|' = c := fun heq => h (heq ▸ List.mem_cons_self)
      rw [List.cons_append, findIn, if_neg (by simp [List.isPrefixOf, hc]),
        ih fun hmem => h (List.mem_cons_of_mem c hmem)]
      rfl

theorem find_at {line pattern : Text} {pos k : Nat} (front rest : Text)
    (hline : line = front ++ rest) (hpos : front.length = pos)
    (h : findIn pattern rest = some k) : find line pattern pos = some (pos + k) := by
  rw [find, hline, ← hpos, List.drop_left, h]
  rfl

theorem substr_at {line : Text} {pos : Nat} (front piece rest : Text)
    (hline : line = front ++ (piece ++ rest)) (hpos : front.length = pos) :
    substr line pos (some piece.length) = some piece := by
  rw [substr, hline, ← hpos, if_pos (by simp)]
  simp

theorem substr_rest {line : Text} {pos : Nat} (front rest : Text) (hline : line = front ++ rest)
    (hpos : front.length = pos) : substr line pos none = some rest := by
  rw [substr, hline, ← hpos, if_pos (by simp)]
  simp

/-- A pattern that holds a character the text does not. -/
theorem findIn_absent {pattern text : Text} {c : Char} (hc : c ∈ pattern) (h : c ∉ text) :
    findIn pattern text = none := by
  induction text with
  | nil => rfl
  | cons a text ih =>
      have hstarts : ¬ pattern.isPrefixOf (a :: text) = true := fun hstarts =>
        h ((List.isPrefixOf_iff_prefix.mp hstarts).subset hc)
      rw [findIn, if_neg hstarts, ih fun hmem => h (List.mem_cons_of_mem a hmem)]
      rfl

theorem parseSec_render {ticker : Text} (h : '|' ∉ ticker) (bid ask : D) :
    parseSec fmt (fmt.render (.sec ticker bid ask)) =
      some (ticker, fmt.shown bid, fmt.shown ask) := by
  have hbar : '|' ∉ fmt.put bid := fmt.not_mem_put (by unfold PriceChar; decide) bid
  have hbid := fmt.stod_put bid
  have hask := fmt.stod_put ask
  generalize hline : fmt.render (.sec ticker bid ask) = line
  rw [PriceFormat.render] at hline
  generalize fmt.put bid = B at hbar hbid hline
  generalize fmt.put ask = A at hask hline
  have hticker : find line ['|'] 4 = some (4 + ticker.length) :=
    find_at secKey (ticker ++ '|' :: (bidKey ++ B ++ '|' :: askKey ++ A)) (by simp [← hline]) rfl
      (findIn_bar h _)
  have hbidKey : find line bidKey (4 + ticker.length) = some (4 + ticker.length + 1) :=
    find_at (secKey ++ ticker) ('|' :: bidKey ++ (B ++ '|' :: askKey ++ A)) (by simp [← hline])
      (by simp [secKey]; omega) rfl
  have hbidEnd : find line ['|'] (4 + ticker.length + 1 + 4) =
      some (4 + ticker.length + 1 + 4 + B.length) :=
    find_at (secKey ++ ticker ++ '|' :: bidKey) (B ++ '|' :: (askKey ++ A)) (by simp [← hline])
      (by simp [secKey, bidKey]; omega) (findIn_bar hbar _)
  have haskKey : find line askKey (4 + ticker.length + 1 + 4 + B.length) =
      some (4 + ticker.length + 1 + 4 + B.length + 1) :=
    find_at (secKey ++ ticker ++ '|' :: bidKey ++ B) ('|' :: askKey ++ A) (by simp [← hline])
      (by simp [secKey, bidKey]; omega) rfl
  have hcut : (line.drop 4).take ticker.length = ticker := by
    rw [← hline]
    simp [secKey]
  have hbidText : substr line (4 + ticker.length + 1 + 4) (some B.length) = some B :=
    substr_at (secKey ++ ticker ++ '|' :: bidKey) B ('|' :: askKey ++ A) (by simp [← hline])
      (by simp [secKey, bidKey]; omega)
  have haskText : substr line (4 + ticker.length + 1 + 4 + B.length + 1 + 4) none = some A :=
    substr_rest (secKey ++ ticker ++ '|' :: bidKey ++ B ++ '|' :: askKey) A (by simp [← hline])
      (by simp [secKey, bidKey, askKey]; omega)
  unfold parseSec
  simp only [hticker, hbidKey, hbidEnd, haskKey, plusFour, Option.bind_eq_bind, Option.bind_some,
    Option.map_some, Nat.add_sub_cancel_left, hcut, hbidText, haskText, hbid, hask]
  rfl

/-! ### Numbers -/

theorem digits_toDigits (n : Nat) : digits (Nat.toDigits 10 n) = some n := by
  have hall : (Nat.toDigits 10 n).takeWhile Char.isDigit = Nat.toDigits 10 n :=
    List.takeWhile_eq_self_iff.mpr fun c hc =>
      Nat.isDigit_of_mem_toDigits (by decide) (by decide) hc
  rw [digits, hall]
  split
  · rename_i hnil
    exact absurd hnil Nat.toDigits_ne_nil
  · rw [Nat.ofDigitChars_ten_toDigits]

theorem fromChars_putInt {id : Int} (h : 0 ≤ id ∧ id < 2 ^ 31) :
    fromChars (putInt id) = some id := by
  obtain ⟨n, rfl⟩ := Int.eq_ofNat_of_zero_le h.1
  have hn : n < 2 ^ 31 := by omega
  have hput : putInt (n : Int) = Nat.toDigits 10 n := by
    rw [putInt, if_neg (by omega), Int.natAbs_natCast]
  have hdigits := digits_toDigits n
  rw [hput]
  unfold fromChars
  split
  · rename_i rest hrest
    have hminus : '-'.isDigit = true :=
      Nat.isDigit_of_mem_toDigits (by decide) (by decide) (hrest ▸ List.mem_cons_self)
    exact absurd hminus (by decide)
  · rw [hdigits]
    simp only [if_pos hn]

/-! ### Prices in tenths -/

/-- Digits and what follows them. -/
theorem digits_append (n : Nat) {rest : Text} (h : rest.takeWhile Char.isDigit = []) :
    digits (Nat.toDigits 10 n ++ rest) = some n := by
  have htake : (Nat.toDigits 10 n ++ rest).takeWhile Char.isDigit = Nat.toDigits 10 n := by
    rw [List.takeWhile_append_of_pos fun c hc =>
      Nat.isDigit_of_mem_toDigits (by decide) (by decide) hc, h, List.append_nil]
  have hdigits := digits_toDigits n
  rw [digits, List.takeWhile_eq_self_iff.mpr fun c hc =>
    Nat.isDigit_of_mem_toDigits (by decide) (by decide) hc] at hdigits
  rw [digits, htake, hdigits]

/-- A price of so many tenths, as it is written. -/
def putTenths (d : Nat) : Text :=
  Nat.toDigits 10 (d / 10) ++ if d % 10 = 0 then [] else '.' :: Nat.toDigits 10 (d % 10)

/-- The tenths behind the point, of which there is at most one digit. -/
def stodTenths (text : Text) : Option Nat :=
  (digits text).map fun n =>
    match text.dropWhile Char.isDigit with
    | '.' :: rest => 10 * n + (digits rest).getD 0
    | _ => 10 * n

theorem stodTenths_putTenths (d : Nat) : stodTenths (putTenths d) = some d := by
  have hall : ∀ c ∈ Nat.toDigits 10 (d / 10), c.isDigit = true :=
    fun c hc => Nat.isDigit_of_mem_toDigits (by decide) (by decide) hc
  rw [stodTenths, putTenths]
  by_cases hzero : d % 10 = 0
  · rw [if_pos hzero, digits_append _ rfl, List.append_nil, List.dropWhile_eq_nil_iff.mpr hall]
    simp only [Option.map_some]
    congr 1
    omega
  · have hpoint : ('.' :: Nat.toDigits 10 (d % 10)).dropWhile Char.isDigit =
        '.' :: Nat.toDigits 10 (d % 10) := rfl
    rw [if_neg hzero, digits_append _ rfl, List.dropWhile_append_of_pos hall, hpoint]
    simp only [Option.map_some, digits_toDigits, Option.getD_some]
    congr 1
    omega

theorem priceChar_of_mem_toDigits {n : Nat} {c : Char} (h : c ∈ Nat.toDigits 10 n) : PriceChar c :=
  .inl (Nat.isDigit_of_mem_toDigits (by decide) (by decide) h)

/-- Prices of whole tenths. -/
def tenths : PriceFormat Nat where
  put := putTenths
  stod := stodTenths
  shown d := d
  stod_put := stodTenths_putTenths
  stod_nil := rfl
  plain := by
    intro d c hc
    rw [putTenths] at hc
    rcases List.mem_append.mp hc with hwhole | hrest
    · exact priceChar_of_mem_toDigits hwhole
    · split at hrest
      · cases hrest
      · rcases List.mem_cons.mp hrest with rfl | htenth
        · exact .inr (by decide)
        · exact priceChar_of_mem_toDigits htenth

/-! ### The rest of a line -/

theorem not_isPrefixOf_of_absent {key text : Text} {c : Char} (hc : c ∈ key) (h : c ∉ text) :
    ¬ key.isPrefixOf text = true :=
  fun hstarts => h ((List.isPrefixOf_iff_prefix.mp hstarts).subset hc)

/-- A line that starts with none of the three keys. -/
theorem parseLine_other {line : Text} (hsec : ¬ secKey.isPrefixOf line = true)
    (hid : ¬ challengeIdKey.isPrefixOf line = true)
    (htarget : ¬ targetKey.isPrefixOf line = true) (parsed : Parsed D) :
    parseLine fmt parsed line = parsed := by
  rw [parseLine, if_neg hsec, if_neg hid, if_neg htarget]

theorem not_mem_putInt {id : Int} {c : Char} (h : 0 ≤ id) (hc : c.isDigit = false) :
    c ∉ putInt id := by
  intro hmem
  rw [putInt, if_neg (by omega)] at hmem
  have hdigit := Nat.isDigit_of_mem_toDigits (by decide) (by decide) hmem
  exact Bool.false_ne_true (hc.symm.trans hdigit)

theorem drop_append_cases (x y : Text) (k : Nat) :
    ((x ++ y).drop k = x.drop k ++ y ∧ k < x.length) ∨ ∃ j, (x ++ y).drop k = y.drop j := by
  rcases Nat.lt_or_ge k x.length with hlt | hge
  · exact .inl ⟨List.drop_append_of_le_length (Nat.le_of_lt hlt), hlt⟩
  · exact .inr ⟨k - x.length, by rw [List.drop_append, List.drop_eq_nil_of_le hge, List.nil_append]⟩

/-- The rest of a `CHALLENGE_ID` line. -/
theorem parseLine_rest_challengeId {id : Int} (h : 0 ≤ id) {k : Nat} (hk : 0 < k)
    (parsed : Parsed D) :
    parseLine fmt parsed ((fmt.render (.challengeId id)).drop k) = parsed := by
  obtain ⟨k, rfl⟩ := Nat.exists_eq_add_of_lt hk
  have hrest : ∀ c, c ∈ (fmt.render (.challengeId id)).drop (0 + k + 1) →
      c ∈ challengeIdKey.drop 1 ∨ c ∈ putInt id := by
    intro c hc
    have hmem : c ∈ challengeIdKey.drop 1 ++ putInt id := by
      rw [PriceFormat.render, Nat.zero_add, Nat.add_comm, ← List.drop_drop] at hc
      exact List.mem_of_mem_drop hc
    exact List.mem_append.mp hmem
  have habsent : ∀ c, c ∉ challengeIdKey.drop 1 → c.isDigit = false →
      c ∉ (fmt.render (.challengeId id)).drop (0 + k + 1) := by
    intro c hkey hdigit hc
    rcases hrest c hc with hc | hc
    · exact hkey hc
    · exact not_mem_putInt h hdigit hc
  apply parseLine_other
  · exact not_isPrefixOf_of_absent (c := '|') (by decide) (habsent _ (by decide) rfl)
  · exact not_isPrefixOf_of_absent (c := 'C') (by decide) (habsent _ (by decide) rfl)
  · exact not_isPrefixOf_of_absent (c := 'T') (by decide) (habsent _ (by decide) rfl)

/-- The rest of a `TARGET` line. -/
theorem parseLine_rest_target {ticker : Text} (h : PlainTicker ticker) {k : Nat} (hk : 0 < k)
    (parsed : Parsed D) :
    parseLine fmt parsed ((fmt.render (.target ticker)).drop k) = parsed := by
  have hbar : '|' ∉ fmt.render (.target ticker) := by
    rw [PriceFormat.render, List.mem_append]
    rintro (hkey | hticker)
    · exact absurd hkey (by decide)
    · exact h.noBar hticker
  have hsec : ¬ secKey.isPrefixOf ((fmt.render (.target ticker)).drop k) = true :=
    not_isPrefixOf_of_absent (c := '|') (by decide) fun hmem => hbar (List.mem_of_mem_drop hmem)
  rcases drop_append_cases targetKey ticker k with ⟨hdrop, hlt⟩ | ⟨j, hdrop⟩
  · -- the piece starts in the key
    have hlt' : k < 7 := hlt
    apply parseLine_other fmt hsec
    · rw [PriceFormat.render, hdrop]
      interval_cases k <;> exact Bool.false_ne_true
    · rw [PriceFormat.render, hdrop]
      interval_cases k <;> exact Bool.false_ne_true
  · have hcolon : ':' ∉ (targetKey ++ ticker).drop k :=
      fun hmem => h.noColon (List.mem_of_mem_drop (hdrop ▸ hmem))
    apply parseLine_other fmt hsec
    · exact not_isPrefixOf_of_absent (c := ':') (by decide) hcolon
    · exact not_isPrefixOf_of_absent (c := ':') (by decide) hcolon

/-- A ticker that ends with `SEC` leaves a rest that looks like a `SEC` line for `BID`, in which
there is no bid: `stod` throws. -/
theorem parseSec_rest (bid ask : D) :
    parseSec fmt (secKey ++ bidKey ++ fmt.put bid ++ '|' :: askKey ++ fmt.put ask) = none := by
  have hnoB : ∀ d, 'B' ∉ fmt.put d := fmt.not_mem_put (by unfold PriceChar; decide)
  generalize hline : secKey ++ bidKey ++ fmt.put bid ++ '|' :: askKey ++ fmt.put ask = line
  have hticker : find line ['|'] 4 = some (4 + 3) :=
    find_at secKey (bidKey ++ (fmt.put bid ++ '|' :: askKey ++ fmt.put ask)) (by simp [← hline]) rfl
      rfl
  have hbidKey : find line bidKey (4 + 3) = none := by
    have hrest : line.drop 7 = '|' :: (fmt.put bid ++ '|' :: askKey ++ fmt.put ask) := by
      rw [← hline]
      rfl
    rw [find, hrest, findIn_absent (c := 'B') (by decide)]
    · rfl
    · simp [hnoB, askKey]
  have hbar : find line ['|'] 3 = some (3 + 0) :=
    find_at ['S', 'E', 'C'] ('|' :: (bidKey ++ fmt.put bid ++ '|' :: askKey ++ fmt.put ask))
      (by simp [← hline, secKey]) rfl rfl
  have hempty : substr line 3 (some 0) = some [] :=
    substr_at ['S', 'E', 'C'] [] ('|' :: (bidKey ++ fmt.put bid ++ '|' :: askKey ++ fmt.put ask))
      (by simp [← hline, secKey]) rfl
  unfold parseSec
  simp only [hticker, hbidKey, plusFour, hbar, Option.bind_eq_bind, Option.bind_some,
    Option.map_some, Nat.add_zero, Nat.sub_self, hempty, fmt.stod_nil]
  rfl

theorem not_isPrefixOf_head {key text : Text} {a c : Char} (h : a ≠ c) :
    ¬ (a :: key).isPrefixOf (c :: text) = true := by
  simp [List.isPrefixOf, h]

/-- The rest of a `SEC` line behind the ticker is no `SEC` line. -/
theorem rest_behind_ticker (bid ask : D) (k : Nat) :
    ¬ secKey.isPrefixOf
      (('|' :: bidKey ++ (fmt.put bid ++ ('|' :: askKey ++ fmt.put ask))).drop k) = true := by
  have hnoS : ∀ d, 'S' ∉ fmt.put d := fmt.not_mem_put (by unfold PriceChar; decide)
  rcases drop_append_cases ('|' :: bidKey) (fmt.put bid ++ ('|' :: askKey ++ fmt.put ask)) k with
    ⟨hdrop, hlt⟩ | ⟨j, hdrop⟩
  · rw [hdrop]
    have hlt' : k < 5 := hlt
    interval_cases k <;> exact Bool.false_ne_true
  · rw [hdrop]
    rcases drop_append_cases (fmt.put bid) ('|' :: askKey ++ fmt.put ask) j with
      ⟨hdrop', hlt⟩ | ⟨i, hdrop'⟩
    · rw [hdrop', List.drop_eq_getElem_cons hlt]
      exact not_isPrefixOf_head fun heq => hnoS bid (heq ▸ List.getElem_mem hlt)
    · rw [hdrop']
      rcases drop_append_cases ('|' :: askKey) (fmt.put ask) i with ⟨hdrop'', hlt⟩ | ⟨m, hdrop''⟩
      · rw [hdrop'']
        have hlt' : i < 5 := hlt
        interval_cases i <;> exact Bool.false_ne_true
      · rw [hdrop'']
        exact not_isPrefixOf_of_absent (c := 'S') (by decide)
          fun hmem => hnoS ask (List.mem_of_mem_drop hmem)

/-- The rest of a `SEC` line that starts in the ticker is read as nothing. -/
theorem rest_in_ticker {u : Text} (hu : '|' ∉ u) (bid ask : D)
    (hstarts : secKey.isPrefixOf
      (u ++ ('|' :: bidKey ++ (fmt.put bid ++ ('|' :: askKey ++ fmt.put ask)))) = true) :
    parseSec fmt (u ++ ('|' :: bidKey ++ (fmt.put bid ++ ('|' :: askKey ++ fmt.put ask)))) =
      none := by
  match u with
  | [] => exact absurd hstarts Bool.false_ne_true
  | [x] => simp [secKey, List.isPrefixOf] at hstarts
  | [x, y] => simp [secKey, List.isPrefixOf] at hstarts
  | [x, y, z] =>
      have hsec : 'S' = x ∧ 'E' = y ∧ 'C' = z := by simpa [secKey, List.isPrefixOf] using hstarts
      obtain ⟨rfl, rfl, rfl⟩ := hsec
      have hrest := parseSec_rest fmt bid ask
      simpa [secKey] using hrest
  | x :: y :: z :: w :: more =>
      have hbar : '|' = w := by
        simp [secKey, List.isPrefixOf] at hstarts
        exact hstarts.2.2.2
      exact absurd (hbar ▸ by simp) hu

/-- The rest of a `SEC` line. -/
theorem parseLine_rest_sec {ticker : Text} (h : PlainTicker ticker) (bid ask : D) {k : Nat}
    (hk : 0 < k) (parsed : Parsed D) :
    parseLine fmt parsed ((fmt.render (.sec ticker bid ask)).drop k) = parsed := by
  have hcolon : ':' ∉ fmt.render (.sec ticker bid ask) := by
    have hnoColon : ∀ d, ':' ∉ fmt.put d := fmt.not_mem_put (by unfold PriceChar; decide)
    simp [PriceFormat.render, secKey, bidKey, askKey, h.noColon, hnoColon]
  have hline : fmt.render (.sec ticker bid ask) = secKey ++ (ticker ++
      ('|' :: bidKey ++ (fmt.put bid ++ ('|' :: askKey ++ fmt.put ask)))) := by
    simp [PriceFormat.render]
  have hpiece : secKey.isPrefixOf ((fmt.render (.sec ticker bid ask)).drop k) = true →
      parseSec fmt ((fmt.render (.sec ticker bid ask)).drop k) = none := by
    rw [hline]
    rcases drop_append_cases secKey _ k with ⟨hdrop, hlt⟩ | ⟨j, hdrop⟩
    · rw [hdrop]
      have hlt' : k < 4 := hlt
      interval_cases k <;> exact fun hstarts => absurd hstarts Bool.false_ne_true
    · rw [hdrop]
      rcases drop_append_cases ticker _ j with ⟨hdrop', -⟩ | ⟨i, hdrop'⟩
      · rw [hdrop']
        exact rest_in_ticker fmt (fun hmem => h.noBar (List.mem_of_mem_drop hmem)) bid ask
      · rw [hdrop']
        exact fun hstarts => absurd hstarts (rest_behind_ticker fmt bid ask i)
  by_cases hstarts : secKey.isPrefixOf ((fmt.render (.sec ticker bid ask)).drop k) = true
  · rw [parseLine, if_pos hstarts, hpiece hstarts]
  · apply parseLine_other fmt hstarts
    · exact not_isPrefixOf_of_absent (c := ':') (by decide)
        fun hmem => hcolon (List.mem_of_mem_drop hmem)
    · exact not_isPrefixOf_of_absent (c := ':') (by decide)
        fun hmem => hcolon (List.mem_of_mem_drop hmem)

theorem parseLine_rest {line : Line D} (h : line.Plain) {k : Nat} (hk : 0 < k)
    (parsed : Parsed D) : parseLine fmt parsed ((fmt.render line).drop k) = parsed := by
  cases line with
  | sec ticker bid ask => exact parseLine_rest_sec fmt h bid ask hk parsed
  | challengeId id => exact parseLine_rest_challengeId fmt (Int.le_of_lt h.1) hk parsed
  | target ticker => exact parseLine_rest_target fmt h hk parsed

/-! ### Packets -/

/-- A whole line. -/
theorem parseLine_render {line : Line D} (h : line.Plain) (parsed : Parsed D) :
    parseLine fmt parsed (fmt.render line) = absorb fmt parsed line := by
  cases line with
  | sec ticker bid ask =>
      have hstarts : secKey.isPrefixOf (fmt.render (.sec ticker bid ask)) = true :=
        List.isPrefixOf_iff_prefix.mpr ⟨_, by simp [PriceFormat.render]; rfl⟩
      rw [parseLine, if_pos hstarts, parseSec_render fmt h.noBar]
      rfl
  | challengeId id =>
      have hid : fromChars ((fmt.render (.challengeId id)).drop 13) = some id :=
        fromChars_putInt ⟨Int.le_of_lt h.1, h.2⟩
      rw [parseLine, hid]
      rfl
  | target ticker => rfl

theorem not_newline_mem_render {line : Line D} (h : line.Plain) : '\n' ∉ fmt.render line := by
  have hput : ∀ d, '\n' ∉ fmt.put d := fmt.not_mem_put (by unfold PriceChar; decide)
  cases line with
  | sec ticker bid ask =>
      simp [PriceFormat.render, secKey, bidKey, askKey, h.noNewline, hput]
  | challengeId id =>
      simp [PriceFormat.render, challengeIdKey,
        not_mem_putInt (c := '\n') (Int.le_of_lt h.1) (by decide)]
  | target ticker => simp [PriceFormat.render, targetKey, h.noNewline]

/-- The bytes of a line, with its `\n`. -/
def PriceFormat.size (line : Line D) : Nat := (fmt.render line).length + 1

/-- A window of a text of lines says what the lines say that lie in it whole. -/
theorem parsePacket_window {ls : List (Line D)} (h : ∀ line ∈ ls, line.Plain) (low width : Nat) :
    parsePacket fmt (((unlines '\n' (ls.map fmt.render)).drop low).take width) =
      (inWindow fmt.size low (low + width) 0 ls).foldl (absorb fmt) .nothing := by
  have hnewline : ∀ line ∈ ls, '\n' ∉ fmt.render line :=
    fun line hline => not_newline_mem_render fmt (h line hline)
  obtain ⟨pre, hlines, hpre, -⟩ := lines_window fmt.render hnewline low width
  have hskip : pre.foldl (parseLine fmt) .nothing = .nothing := by
    clear hlines
    induction pre with
    | nil => rfl
    | cons piece pre ih =>
        obtain ⟨line, hline, k, hk, rfl⟩ := hpre _ List.mem_cons_self
        rw [List.foldl_cons, parseLine_rest fmt (h line hline) hk]
        exact ih fun piece hpiece => hpre piece (List.mem_cons_of_mem _ hpiece)
  have hread : ∀ (whole : List (Line D)) (parsed : Parsed D), (∀ line ∈ whole, line.Plain) →
      (whole.map fmt.render).foldl (parseLine fmt) parsed = whole.foldl (absorb fmt) parsed := by
    intro whole
    induction whole with
    | nil => exact fun _ _ => rfl
    | cons line whole ih =>
        intro parsed hwhole
        rw [List.map_cons, List.foldl_cons, List.foldl_cons,
          parseLine_render fmt (hwhole line List.mem_cons_self)]
        exact ih _ fun line' hline' => hwhole line' (List.mem_cons_of_mem line hline')
  rw [parsePacket, hlines, List.foldl_append, hskip]
  exact hread _ _ fun line hline => h line ((inWindow_sublist 0 ls).subset hline)

end HftProject
