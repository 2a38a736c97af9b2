import HftProject.Challenge.OrderLines
import HftProject.Week3.Strategy

/-!
`load_feed` of `phase_3`: the lines of a file as events of the feed. Comments and empty lines are
skipped, a line of no known type is reported, and one whose numbers cannot be read is dropped
without a word.

Whatever the file, the events are quotes and executions with numbers that an `int` holds, and the
two sides of any line end are loaded for themselves; a file that was written event by event, with
other lines in between, is loaded as it was written (`load_feed_reads`).
-/

namespace HftProject.Week3

open Decimal Lines

variable {R : Type} [Field R] [LinearOrder R] [FloorRing R]

/-- What `load_feed` writes to `cerr`. -/
inductive FeedError where
  | couldNotOpen (filename : String)
  | unknownType (line : Text)
deriving DecidableEq, Repr

/-- The events, and the errors that were reported. -/
structure LoadedFeed (R : Type) where
  events : List (FeedEvent R)
  errors : List FeedError

namespace LoadedFeed

def empty : LoadedFeed R := ⟨[], []⟩

/-- What comes later is added at the end. -/
def append (feed more : LoadedFeed R) : LoadedFeed R :=
  ⟨feed.events ++ more.events, feed.errors ++ more.errors⟩

end LoadedFeed

def bidKey : Text := ['B', 'I', 'D']

def askKey : Text := ['A', 'S', 'K']

def executionKey : Text := ['E', 'X', 'E', 'C', 'U', 'T', 'I', 'O', 'N']

/-- A quote is made if both extractions succeed. -/
def quoteEvent (type : FeedType) (iss : LineStream) : Option (FeedEvent R) :=
  let (price, iss) := iss.double (R := R)
  let (qty, iss) := iss.int
  match iss.failed, price, qty with
  | false, some price, some qty => some { type, price, quantity := qty }
  | _, _, _ => none

def executionEvent (iss : LineStream) : Option (FeedEvent R) :=
  let (orderId, iss) := iss.int
  let (filled, iss) := iss.int
  match iss.failed, orderId, filled with
  | false, some orderId, some filled =>
      some { type := .execution, price := 0, quantity := filled, orderId }
  | _, _, _ => none

/-- The events of a line, and the error it is reported with. -/
def loadLine (line : Text) : LoadedFeed R :=
  if line = [] ∨ line.head? = some '#' then ⟨[], []⟩
  else
    let (type, iss) := LineStream.word ⟨line, false⟩
    if type = bidKey then ⟨(quoteEvent .bid iss).toList, []⟩
    else if type = askKey then ⟨(quoteEvent .ask iss).toList, []⟩
    else if type = executionKey then ⟨(executionEvent iss).toList, []⟩
    else ⟨[], [.unknownType line]⟩

/-- `load_feed` of a file with this content, or of one that cannot be opened. -/
def loadFeed (filename : String) : Option Text → LoadedFeed R
  | none => ⟨[], [.couldNotOpen filename]⟩
  | some content =>
      (allLines '\n' content).foldl (fun feed line => feed.append (loadLine line)) .empty

/-! ### Line by line -/

namespace LoadedFeed

omit [Field R] [LinearOrder R] [FloorRing R] in
@[simp] theorem append_empty (feed : LoadedFeed R) : feed.append empty = feed := by
  simp [append, empty]

omit [Field R] [LinearOrder R] [FloorRing R] in
theorem append_assoc (a b c : LoadedFeed R) : (a.append b).append c = a.append (b.append c) := by
  simp [append]

end LoadedFeed

open LoadedFeed

/-- What is loaded of the lines, one after the other. -/
def loadLines : List Text → LoadedFeed R
  | [] => .empty
  | line :: lines => (loadLine line).append (loadLines lines)

theorem foldl_loadLine (lines : List Text) (feed : LoadedFeed R) :
    lines.foldl (fun feed line => feed.append (loadLine line)) feed =
      feed.append (loadLines lines) := by
  induction lines generalizing feed with
  | nil => exact (append_empty feed).symm
  | cons line lines ih =>
      rw [List.foldl_cons, ih, append_assoc]
      rfl

theorem loadFeed_content (filename : String) (content : Text) :
    (loadFeed filename (some content) : LoadedFeed R) = loadLines (allLines '\n' content) :=
  foldl_loadLine _ _

theorem loadLines_append (lines lines' : List Text) :
    (loadLines (lines ++ lines') : LoadedFeed R) = (loadLines lines).append (loadLines lines') := by
  induction lines with
  | nil => rfl
  | cons line lines ih =>
      rw [List.cons_append, loadLines, ih, ← append_assoc]
      rfl

/-! ### What is loaded is well formed -/

/-- The event is a quote, or an execution without a price, with numbers that an `int` holds. -/
structure Valid (e : FeedEvent R) : Prop where
  quantity : -2 ^ 31 ≤ e.quantity ∧ e.quantity < 2 ^ 31
  orderId : -2 ^ 31 ≤ e.orderId ∧ e.orderId < 2 ^ 31
  type : (e.type = .bid ∨ e.type = .ask) ∧ e.orderId = -1 ∨ e.type = .execution ∧ e.price = 0

/-- An extraction that has not failed has come from a stream that had not, and has assigned a
number within `int`. -/
theorem int_good {iss rest : LineStream} {assigned : Option Int} (h : iss.int = (assigned, rest))
    (hgood : rest.failed = false) :
    iss.failed = false ∧ ∀ i, assigned = some i → -2 ^ 31 ≤ i ∧ i < 2 ^ 31 := by
  unfold LineStream.int at h
  split at h
  · cases h
    cases hgood
  · rename_i text hsentry
    have hbefore : iss.failed = false := by
      rw [LineStream.sentry] at hsentry
      split at hsentry
      · cases hsentry
      · rename_i hfailed
        exact Bool.not_eq_true _ ▸ hfailed
    split at h
    · cases h
      cases hgood
    · split at h
      · rename_i hrange
        cases h
        exact ⟨hbefore, fun i hi => Option.some.inj hi ▸ hrange⟩
      · cases h
        cases hgood

theorem quoteEvent_valid {type : FeedType} (htype : type = .bid ∨ type = .ask) {iss : LineStream}
    {e : FeedEvent R} (h : quoteEvent type iss = some e) : Valid e := by
  unfold quoteEvent at h
  dsimp only at h
  split at h
  · rename_i price qty hgood hprice hqty
    cases h
    refine ⟨(int_good rfl hgood).2 qty hqty, ?_, .inl ⟨htype, rfl⟩⟩
    exact (by decide : (-2 ^ 31 : Int) ≤ -1 ∧ (-1 : Int) < 2 ^ 31)
  · cases h

omit [LinearOrder R] [FloorRing R] in
theorem executionEvent_valid {iss : LineStream} {e : FeedEvent R}
    (h : executionEvent iss = some e) : Valid e := by
  unfold executionEvent at h
  dsimp only at h
  split at h
  · rename_i orderId filled hgood hid hfilled
    cases h
    obtain ⟨hfirst, hsecond⟩ := int_good rfl hgood
    exact ⟨hsecond filled hfilled, (int_good rfl hfirst).2 orderId hid, .inr ⟨rfl, rfl⟩⟩
  · cases h

theorem loadLine_valid {line : Text} {e : FeedEvent R}
    (h : e ∈ (loadLine line : LoadedFeed R).events) : Valid e := by
  unfold loadLine at h
  split at h
  · cases h
  · dsimp only at h
    split at h
    · exact quoteEvent_valid (.inl rfl) (Option.mem_toList.mp h)
    · split at h
      · exact quoteEvent_valid (.inr rfl) (Option.mem_toList.mp h)
      · split at h
        · exact executionEvent_valid (Option.mem_toList.mp h)
        · cases h

theorem loadFeed_valid {filename : String} {content : Option Text} {e : FeedEvent R}
    (h : e ∈ (loadFeed filename content : LoadedFeed R).events) : Valid e := by
  cases content with
  | none => cases h
  | some content =>
      rw [loadFeed_content] at h
      generalize allLines '\n' content = lines at h
      induction lines with
      | nil => exact absurd h List.not_mem_nil
      | cons line lines ih =>
          rcases List.mem_append.mp h with hline | hlines
          · exact loadLine_valid hline
          · exact ih hlines

/-! ### What is written is loaded -/

/-- A line of a feed: an event, a comment, nothing, a known type without its first number, or
something else. -/
inductive FeedLine (R : Type) where
  | quote (bid : Bool) (price : R) (quantity : Int)
  | execution (orderId quantity : Int)
  | comment (text : Text)
  | blank
  | broken (type : FeedType) (text : Text)
  | unknown (type text : Text)

namespace FeedLine

def key : FeedType → Text
  | .bid => bidKey
  | .ask => askKey
  | .execution => executionKey
  | .unknown => []

/-- The line, with the price in so many decimals. -/
def text (decimals : Nat) : FeedLine R → Text
  | .quote bid price quantity =>
      (if bid then bidKey else askKey) ++ ' ' :: (putFixed decimals price ++ ' ' :: putInt quantity)
  | .execution orderId quantity =>
      executionKey ++ ' ' :: (putInt orderId ++ ' ' :: putInt quantity)
  | .comment text => '#' :: text
  | .blank => []
  | .broken type text => key type ++ ' ' :: text
  | .unknown type text => type ++ ' ' :: text

/-- What the line stands for. -/
def loaded : FeedLine R → LoadedFeed R
  | .quote bid price quantity =>
      ⟨[{ type := if bid then .bid else .ask, price, quantity }], []⟩
  | .execution orderId quantity => ⟨[{ type := .execution, price := 0, quantity, orderId }], []⟩
  | .comment _ => .empty
  | .blank => .empty
  | .broken _ _ => .empty
  | .unknown type text => ⟨[], [.unknownType (type ++ ' ' :: text)]⟩

/-- No number begins with the character. -/
def NoNumeral (c : Char) : Prop := c.isDigit = false ∧ c ∉ ['+', '-', '.']

/-- The line is one of the file, and what it says fits. -/
def Plain (decimals : Nat) : FeedLine R → Prop
  | .quote _ price quantity =>
      (0 ≤ price ∧ ∃ n : Int, price * (10 ^ decimals : Nat) = n) ∧ -2 ^ 31 ≤ quantity ∧
        quantity < 2 ^ 31
  | .execution orderId quantity =>
      (-2 ^ 31 ≤ orderId ∧ orderId < 2 ^ 31) ∧ -2 ^ 31 ≤ quantity ∧ quantity < 2 ^ 31
  | .comment text => '\n' ∉ text
  | .blank => True
  | .broken type text =>
      type ≠ .unknown ∧ '\n' ∉ text ∧ ∀ c ∈ (text.dropWhile isSpace).head?, NoNumeral c
  | .unknown type text =>
      Word type ∧ type.head? ≠ some '#' ∧ type ∉ [bidKey, askKey, executionKey] ∧ '\n' ∉ text

variable [IsStrictOrderedRing R] {decimals : Nat}

theorem bidKey_word : Word bidKey := word_of_all (by decide) rfl

theorem askKey_word : Word askKey := word_of_all (by decide) rfl

theorem executionKey_word : Word executionKey := word_of_all (by decide) rfl

theorem key_word {type : FeedType} (h : type ≠ .unknown) : Word (key type) := by
  cases type with
  | bid => exact bidKey_word
  | ask => exact askKey_word
  | execution => exact executionKey_word
  | unknown => exact absurd rfl h

omit [IsStrictOrderedRing R] in
/-- A line that begins with a word is not skipped, and the word is its type. -/
theorem loadLine_word {type text : Text} (h : Word type) (hcomment : type.head? ≠ some '#') :
    (loadLine (type ++ ' ' :: text) : LoadedFeed R) =
      if type = bidKey then ⟨(quoteEvent .bid ⟨' ' :: text, false⟩).toList, []⟩
      else if type = askKey then ⟨(quoteEvent .ask ⟨' ' :: text, false⟩).toList, []⟩
      else if type = executionKey then ⟨(executionEvent ⟨' ' :: text, false⟩).toList, []⟩
      else ⟨[], [.unknownType (type ++ ' ' :: text)]⟩ := by
  have hskip : ¬ (type ++ ' ' :: text = [] ∨ (type ++ ' ' :: text).head? = some '#') := by
    rintro (hnil | hhead)
    · exact h.nonempty (List.append_eq_nil_iff.mp hnil).1
    · obtain ⟨c, cs, rfl⟩ := List.exists_cons_of_ne_nil h.nonempty
      exact hcomment hhead
  have hblank : ¬ Blank (type ++ ' ' :: text) := by
    rw [Blank, h.dropWhile_isSpace]
    exact List.append_ne_nil_of_left_ne_nil h.nonempty _
  rw [loadLine, if_neg hskip, LineStream.word_not_blank hblank,
    extractWord_append h (endsWord_space text)]

theorem quoteEvent_written {type : FeedType} {price : R} {quantity : Int}
    (hprice : 0 ≤ price ∧ ∃ n : Int, price * (10 ^ decimals : Nat) = n)
    (hquantity : -2 ^ 31 ≤ quantity ∧ quantity < 2 ^ 31) :
    quoteEvent type ⟨' ' :: (putFixed decimals price ++ ' ' :: putInt quantity), false⟩ =
      some { type, price, quantity } := by
  obtain ⟨hpos, n, hn⟩ := hprice
  rw [Nat.cast_pow, Nat.cast_ofNat] at hn
  obtain ⟨d, hread, hd⟩ :=
    readNumber_putFixed_exact hpos hn (endsNumber_space (putInt quantity))
  have hdouble := extractDouble_word (R := R) (putFixed_word decimals price)
    (endsNumber_space (putInt quantity)) hread
  have hint := extractInt_putInt hquantity noDigit_nil
  rw [List.append_nil] at hint
  rw [hd] at hdouble
  simp only [quoteEvent, LineStream.double_some hdouble, LineStream.int_some hint]

omit [LinearOrder R] [FloorRing R] [IsStrictOrderedRing R] in
theorem executionEvent_written {orderId quantity : Int}
    (hid : -2 ^ 31 ≤ orderId ∧ orderId < 2 ^ 31)
    (hquantity : -2 ^ 31 ≤ quantity ∧ quantity < 2 ^ 31) :
    (executionEvent ⟨' ' :: (putInt orderId ++ ' ' :: putInt quantity), false⟩ :
        Option (FeedEvent R)) =
      some { type := .execution, price := 0, quantity, orderId } := by
  have hfirst := extractInt_putInt hid (endsNumber_space (putInt quantity)).endsFraction.noDigit
  have hint := extractInt_putInt hquantity noDigit_nil
  rw [List.append_nil] at hint
  simp only [executionEvent, LineStream.int_some hfirst, LineStream.int_some hint]

/-! Where no number begins, none is extracted. -/

theorem noNumeral_reads {text : Text} (h : ∀ c ∈ text.head?, NoNumeral c) :
    readSign text = (false, text) ∧ readDigits text = ([], text) ∧
      readFraction text = ([], text) := by
  cases text with
  | nil => exact ⟨rfl, rfl, rfl⟩
  | cons c text =>
      obtain ⟨hdigit, hother⟩ := h c rfl
      simp only [List.mem_cons, List.not_mem_nil, or_false, not_or] at hother
      obtain ⟨hplus, hminus, hpoint⟩ := hother
      refine ⟨?_, ?_, ?_⟩
      · rw [readSign]
        · rintro rest heq
          cases heq
          exact hminus rfl
        · rintro rest heq
          cases heq
          exact hplus rfl
      · rw [readDigits, List.takeWhile_cons_of_neg (by simp [hdigit]),
          List.dropWhile_cons_of_neg (by simp [hdigit])]
      · rw [readFraction]
        rintro rest heq
        cases heq
        exact hpoint rfl

omit [LinearOrder R] [FloorRing R] [IsStrictOrderedRing R] in
theorem extractDouble_noNumeral {text : Text}
    (h : ∀ c ∈ (text.dropWhile isSpace).head?, NoNumeral c) :
    (extractDouble text : Option (R × Text)) = none := by
  obtain ⟨hsign, hdigits, hfraction⟩ := noNumeral_reads h
  simp [extractDouble, readNumber, hsign, hdigits, hfraction]

theorem extractInt_noNumeral {text : Text}
    (h : ∀ c ∈ (text.dropWhile isSpace).head?, NoNumeral c) : extractInt text = none := by
  obtain ⟨hsign, hdigits, -⟩ := noNumeral_reads h
  simp [extractInt, readInt, hsign, hdigits]

omit [IsStrictOrderedRing R] in
theorem quoteEvent_broken {type : FeedType} {text : Text}
    (h : ∀ c ∈ (text.dropWhile isSpace).head?, NoNumeral c) :
    (quoteEvent type ⟨text, false⟩ : Option (FeedEvent R)) = none := by
  by_cases hblank : Blank text
  · simp only [quoteEvent, LineStream.double_blank hblank, LineStream.int_fail]
    rfl
  · simp only [quoteEvent, LineStream.double_none hblank (extractDouble_noNumeral h),
      LineStream.int_fail]
    rfl

omit [LinearOrder R] [FloorRing R] [IsStrictOrderedRing R] in
theorem executionEvent_broken {text : Text}
    (h : ∀ c ∈ (text.dropWhile isSpace).head?, NoNumeral c) :
    (executionEvent ⟨text, false⟩ : Option (FeedEvent R)) = none := by
  by_cases hblank : Blank text
  · simp only [executionEvent, LineStream.int_blank hblank, LineStream.int_fail]
    rfl
  · obtain ⟨i, hint⟩ := LineStream.int_none hblank (extractInt_noNumeral h)
    simp only [executionEvent, hint, LineStream.int_fail]
    rfl

/-! The file -/

variable {line : FeedLine R}

theorem Plain.loadLine (h : line.Plain decimals) : loadLine (line.text decimals) = line.loaded := by
  cases line with
  | quote bid price quantity =>
      obtain ⟨hprice, hquantity⟩ := h
      cases bid with
      | true =>
          change Week3.loadLine (bidKey ++ ' ' :: _) = _
          rw [loadLine_word bidKey_word (by decide), if_pos rfl,
            quoteEvent_written hprice hquantity]
          rfl
      | false =>
          change Week3.loadLine (askKey ++ ' ' :: _) = _
          rw [loadLine_word askKey_word (by decide), if_neg (by decide),
            if_pos rfl, quoteEvent_written hprice hquantity]
          rfl
  | execution orderId quantity =>
      obtain ⟨hid, hquantity⟩ := h
      change Week3.loadLine (executionKey ++ ' ' :: _) = _
      rw [loadLine_word executionKey_word (by decide), if_neg (by decide),
        if_neg (by decide), if_pos rfl, executionEvent_written hid hquantity]
      rfl
  | comment text => exact if_pos (.inr rfl)
  | blank => exact if_pos (.inl rfl)
  | broken type text =>
      obtain ⟨htype, -, hnumber⟩ := h
      have hquote : ∀ type, (quoteEvent type ⟨' ' :: text, false⟩ : Option (FeedEvent R)) = none :=
        fun type => quoteEvent_broken hnumber
      have hexecution : (executionEvent ⟨' ' :: text, false⟩ : Option (FeedEvent R)) = none :=
        executionEvent_broken hnumber
      change Week3.loadLine (key type ++ ' ' :: text) = _
      rw [loadLine_word (key_word htype) (by cases type <;> decide), hquote, hquote, hexecution]
      cases type with
      | bid => rfl
      | ask => rfl
      | execution => rfl
      | unknown => exact absurd rfl htype
  | unknown type text =>
      obtain ⟨hword, hcomment, hkeys, -⟩ := h
      simp only [List.mem_cons, List.not_mem_nil, or_false, not_or] at hkeys
      obtain ⟨hbid, hask, hexecution⟩ := hkeys
      change Week3.loadLine (type ++ ' ' :: text) = _
      rw [loadLine_word hword hcomment, if_neg hbid, if_neg hask, if_neg hexecution]
      rfl

omit [IsStrictOrderedRing R] in
theorem Plain.no_newline (h : line.Plain decimals) : '\n' ∉ line.text decimals := by
  have hnewline : isSpace '\n' = true := rfl
  have hspace : '\n' ≠ ' ' := by decide
  have hword : ∀ {word rest : Text}, Word word → '\n' ∉ rest → '\n' ∉ word ++ ' ' :: rest := by
    intro word rest hword hrest hmem
    rcases List.mem_append.mp hmem with hmem | hmem
    · exact hword.not_mem hnewline hmem
    · exact (List.mem_cons.mp hmem).elim hspace hrest
  cases line with
  | quote bid price quantity =>
      have hkey : Word (if bid then bidKey else askKey) := by
        cases bid with
        | true => exact bidKey_word
        | false => exact askKey_word
      exact hword hkey (hword (putFixed_word _ _) ((putInt_word _).not_mem hnewline))
  | execution orderId quantity =>
      exact hword executionKey_word
        (hword (putInt_word _) ((putInt_word _).not_mem hnewline))
  | comment text => exact fun hmem => (List.mem_cons.mp hmem).elim (by decide) h
  | blank => exact List.not_mem_nil
  | broken type text => exact hword (key_word h.1) h.2.1
  | unknown type text => exact hword h.1 h.2.2.2

end FeedLine

variable [IsStrictOrderedRing R] {decimals : Nat}

theorem loadLines_plain {file : List (FeedLine R)} (h : ∀ line ∈ file, line.Plain decimals) :
    loadLines (file.map (·.text decimals)) =
      ⟨file.flatMap (·.loaded.events), file.flatMap (·.loaded.errors)⟩ := by
  induction file with
  | nil => rfl
  | cons line file ih =>
      rw [List.map_cons, loadLines,
        ih fun other hother => h other (List.mem_cons_of_mem line hother),
        (h line List.mem_cons_self).loadLine]
      rfl

/-- The file without the newline at its end. -/
theorem allLines_dropLast {lines : List Text} {last : Text} (h : ∀ line ∈ lines, '\n' ∉ line)
    (hlast : '\n' ∉ last) (hne : last ≠ []) :
    allLines '\n' (unlines '\n' lines ++ last) = lines ++ [last] := by
  rw [allLines_unlines_append h, allLines_last hlast hne]

/-- Whatever the file, the events that are loaded are well formed, and what follows a newline is
loaded for itself. A file that was written line by line, with prices of so many decimals, is loaded
as it was written; so it is if it ends with a line that is not empty and has no newline. -/
theorem load_feed_reads (filename : String) (decimals : Nat) :
    (∀ content, ∀ e ∈ (loadFeed filename content : LoadedFeed R).events, Valid e) ∧
      (∀ before after, (loadFeed filename (some (before ++ '\n' :: after)) : LoadedFeed R) =
        (loadFeed filename (some (before ++ ['\n']))).append (loadFeed filename (some after))) ∧
      ∀ file : List (FeedLine R), (∀ line ∈ file, line.Plain decimals) →
        loadFeed filename (some (unlines '\n' (file.map (·.text decimals)))) =
            ⟨file.flatMap (·.loaded.events), file.flatMap (·.loaded.errors)⟩ ∧
          ∀ last : FeedLine R, last.Plain decimals → last.text decimals ≠ [] →
            loadFeed filename (some (unlines '\n' (file.map (·.text decimals)) ++
                last.text decimals)) =
              ⟨(file ++ [last]).flatMap (·.loaded.events),
                (file ++ [last]).flatMap (·.loaded.errors)⟩ := by
  refine ⟨fun content e he => loadFeed_valid he, fun before after => ?_, fun file hplain => ?_⟩
  · rw [loadFeed_content, loadFeed_content, loadFeed_content, allLines_append_sep, loadLines_append]
  · have hlines : ∀ line ∈ file.map (·.text decimals), '\n' ∉ line := by
      intro line hline
      obtain ⟨written, hwritten, rfl⟩ := List.mem_map.mp hline
      exact (hplain written hwritten).no_newline
    refine ⟨?_, fun last hlast hne => ?_⟩
    · have hall := allLines_unlines_append hlines []
      rw [List.append_nil, allLines, List.append_nil] at hall
      rw [loadFeed_content, hall, loadLines_plain hplain]
    · rw [loadFeed_content, allLines_dropLast hlines hlast.no_newline hne]
      have hwhole : file.map (·.text decimals) ++ [last.text decimals] =
          (file ++ [last]).map (·.text decimals) := by
        rw [List.map_append, List.map_singleton]
      rw [hwhole, loadLines_plain]
      intro line hline
      rcases List.mem_append.mp hline with hfile | hend
      · exact hplain line hfile
      · rw [List.mem_singleton.mp hend]
        exact hlast

/-- A comment, a quote, an empty line, a type alone and a line of another type. -/
def sampleFeed : List (FeedLine ℚ) :=
  [.comment " Initial".toList, .quote true (10010 / 100) 300, .blank, .broken .ask [],
    .unknown "BIDS".toList "1 2".toList]

theorem load_feed_reads_sample :
    loadFeed "sample_feed.txt" (some (unlines '\n' (sampleFeed.map (·.text 2)) ++
        "EXECUTION 1 50".toList)) =
      (⟨[{ type := .bid, price := 10010 / 100, quantity := 300 },
          { type := .execution, price := 0, quantity := 50, orderId := 1 }],
        [.unknownType "BIDS 1 2".toList]⟩ : LoadedFeed ℚ) := by
  have hplain : ∀ line ∈ sampleFeed, line.Plain 2 := by
    intro line hline
    simp only [sampleFeed, List.mem_cons, List.not_mem_nil, or_false] at hline
    rcases hline with rfl | rfl | rfl | rfl | rfl
    · exact (by decide : '\n' ∉ " Initial".toList)
    · exact ⟨⟨by norm_num, 10010, by norm_num⟩, by decide⟩
    · trivial
    · exact ⟨by decide, List.not_mem_nil, by simp⟩
    · exact ⟨word_of_all (by decide) (by decide), by decide, by decide, by decide⟩
  have hlast : FeedLine.Plain (R := ℚ) 2 (.execution 1 50) := ⟨by decide, by decide⟩
  have hread := ((load_feed_reads "sample_feed.txt" 2).2.2 sampleFeed hplain).2 _ hlast (by decide)
  exact hread

end HftProject.Week3
