import HftProject.Challenge.Quotes
import HftProject.Challenge.Server

/-!
`process_order` on a line as it arrives. The number variables have no initial values: an extraction
that finds nothing but white space, or a stream that has failed before, leaves them unassigned. Such
a variable is read exactly when the line stops where the next number to be compared should stand
(`StopsShort`). Every other line does what the submission that it reads as does, and one that does
not read as a submission does nothing (`process_line_defined`).
-/

namespace HftProject

open Decimal

/-! ### Extraction from a stream -/

/-- What is left of the line, and whether an extraction has failed. -/
structure LineStream where
  rest : Text
  failed : Bool
deriving DecidableEq, Repr

namespace LineStream

/-- The stream after an extraction that fails. -/
def fail : LineStream := ⟨[], true⟩

/-- What an extraction begins with: white space is skipped, and something has to be left. -/
def sentry (s : LineStream) : Option Text :=
  if s.failed then none
  else
    match s.rest.dropWhile isSpace with
    | [] => none
    | c :: rest => some (c :: rest)

/-- `operator>>` of a string, which is empty before. -/
def word (s : LineStream) : Text × LineStream :=
  match s.sentry with
  | none => ([], fail)
  | some text => (text.takeWhile fun c => !isSpace c, ⟨text.dropWhile fun c => !isSpace c, false⟩)

/-- `operator>>` of an `int`, if it assigns one. -/
def int (s : LineStream) : Option Int × LineStream :=
  match s.sentry with
  | none => (none, fail)
  | some text =>
      match readInt text with
      | none => (some 0, fail)
      | some (i, rest) =>
          if -2 ^ 31 ≤ i ∧ i < 2 ^ 31 then (some i, ⟨rest, false⟩)
          else (some (if i < 0 then -2 ^ 31 else 2 ^ 31 - 1), fail)

/-- `operator>>` of a `double`, if it assigns one. -/
def double {R : Type} [Field R] [LinearOrder R] [FloorRing R] (s : LineStream) :
    Option R × LineStream :=
  match s.sentry with
  | none => (none, fail)
  | some text =>
      match extractDouble text with
      | none => (some 0, fail)
      | some (x, rest) => (some x, ⟨rest, false⟩)

end LineStream

/-- The variables of `process_order` after the extractions. -/
structure OrderFields (R : Type) where
  header : String
  challengeId : Option Int
  ticker : String
  submittedBid : Option R
  submittedAsk : Option R
  clientName : String

/-- A variable that is read and has not been assigned. -/
inductive Unassigned where
  | challengeId
  | submittedBid
  | submittedAsk
deriving DecidableEq, Repr

section Fields

variable {R : Type} [Field R] [LinearOrder R] [FloorRing R]

def orderFields (msg : Text) : OrderFields R :=
  let (header, s) := LineStream.word ⟨msg, false⟩
  let (challengeId, s) := s.int
  let (ticker, s) := s.word
  let (submittedBid, s) := s.double (R := R)
  let (submittedAsk, s) := s.double (R := R)
  let (clientName, _) := s.word
  { header := .ofList header
    challengeId := challengeId
    ticker := .ofList ticker
    submittedBid := submittedBid
    submittedAsk := submittedAsk
    clientName := .ofList clientName }

/-- The value of a variable. -/
def assigned {A : Type} (v : Unassigned) : Option A → Except Unassigned A
  | none => .error v
  | some a => .ok a

omit [FloorRing R] in
/-- What `process_order` does to the current challenge under the lock. -/
def judgeFields (f : OrderFields R) (c : Challenge R) :
    Except Unassigned (Challenge R × Option Won) := do
  let challengeId ← assigned .challengeId f.challengeId
  if c.challengeId = challengeId ∧ c.winnerDeclared = false then
    if c.targetTicker = f.ticker then
      match c.marketData.lookup f.ticker with
      | some (expectedBid, expectedAsk) => do
          let submittedBid ← assigned .submittedBid f.submittedBid
          if |submittedBid - expectedBid| ≤ Server.tol then do
            let submittedAsk ← assigned .submittedAsk f.submittedAsk
            if |submittedAsk - expectedAsk| ≤ Server.tol then
              return ({ c with winnerDeclared := true, winnerName := f.clientName },
                some ⟨challengeId, f.clientName⟩)
            else return (c, none)
          else return (c, none)
      | none => return (c, none)
    else return (c, none)
  else return (c, none)

end Fields

/-- The state after a line, and the response. `correct` is never set. -/
def Server.processLine (msg : Text) (s : Server) : Except Unassigned (Server × Option String) :=
  let f : OrderFields ℚ := orderFields msg
  if f.header ≠ "CHALLENGE_RESPONSE" then .ok (s, none)
  else do
    let correct := false
    let (c, won) ← judgeFields f s.currentChallenge
    return ({ s with currentChallenge := c, console := s.console ++ won.toList },
      some (if correct then "WINNER " ++ f.clientName ++ "\n" else "INCORRECT\n"))

/-! ### What is extracted -/

/-- Nothing but white space. -/
def Blank (text : Text) : Prop := text.dropWhile isSpace = []

instance (text : Text) : Decidable (Blank text) := inferInstanceAs (Decidable (_ = _))

namespace LineStream

@[simp] theorem int_fail : fail.int = (none, fail) := rfl

theorem sentry_blank {text : Text} (h : Blank text) : sentry ⟨text, false⟩ = none := by
  rw [sentry, if_neg Bool.false_ne_true]
  simp only [show text.dropWhile isSpace = [] from h]

theorem sentry_not_blank {text : Text} (h : ¬ Blank text) :
    sentry ⟨text, false⟩ = some (text.dropWhile isSpace) := by
  rw [sentry, if_neg Bool.false_ne_true]
  change (match text.dropWhile isSpace with
    | [] => none
    | c :: rest => some (c :: rest)) = _
  split
  · rename_i hblank
    exact absurd hblank h
  · rename_i hcons
    rw [hcons]

theorem word_blank {text : Text} (h : Blank text) : word ⟨text, false⟩ = ([], fail) := by
  rw [word, sentry_blank h]

theorem word_not_blank {text : Text} (h : ¬ Blank text) :
    word ⟨text, false⟩ = ((extractWord text).1, ⟨(extractWord text).2, false⟩) := by
  rw [word, sentry_not_blank h]
  rfl

theorem int_blank {text : Text} (h : Blank text) : int ⟨text, false⟩ = (none, fail) := by
  rw [int, sentry_blank h]

theorem readInt_dropWhile (text : Text) : readInt (text.dropWhile isSpace) = readInt text := by
  rw [readInt, readInt, List.dropWhile_idempotent]

theorem readInt_blank {text : Text} (h : Blank text) : readInt text = none := by
  rw [readInt, show text.dropWhile isSpace = [] from h]
  rfl

theorem int_some {text rest : Text} {i : Int} (h : extractInt text = some (i, rest)) :
    int ⟨text, false⟩ = (some i, ⟨rest, false⟩) := by
  obtain ⟨⟨j, rest'⟩, hread, hrange⟩ := Option.bind_eq_some_iff.mp h
  dsimp only at hrange
  split at hrange
  · rename_i hin
    cases hrange
    have hblank : ¬ Blank text := fun hblank => by
      rw [readInt_blank hblank] at hread
      cases hread
    rw [int, sentry_not_blank hblank]
    simp only [readInt_dropWhile, hread, if_pos hin]
  · cases hrange

theorem int_none {text : Text} (hblank : ¬ Blank text) (h : extractInt text = none) :
    ∃ i, int ⟨text, false⟩ = (some i, fail) := by
  rw [int, sentry_not_blank hblank]
  simp only [readInt_dropWhile]
  cases hread : readInt text with
  | none => exact ⟨0, rfl⟩
  | some read =>
      obtain ⟨i, rest⟩ := read
      by_cases hin : -2 ^ 31 ≤ i ∧ i < 2 ^ 31
      · simp only [extractInt, hread, Option.bind_eq_bind, Option.bind_some, if_pos hin] at h
        cases h
      · exact ⟨_, if_neg hin⟩

section Doubles

variable {R : Type} [Field R] [LinearOrder R] [FloorRing R]

theorem double_blank {text : Text} (h : Blank text) :
    (double ⟨text, false⟩ : Option R × LineStream) = (none, fail) := by
  rw [double, sentry_blank h]

omit [LinearOrder R] [FloorRing R] in
theorem extractDouble_dropWhile (text : Text) :
    (extractDouble (text.dropWhile isSpace) : Option (R × Text)) = extractDouble text := by
  rw [extractDouble, extractDouble, List.dropWhile_idempotent]

omit [LinearOrder R] [FloorRing R] in
theorem extractDouble_blank {text : Text} (h : Blank text) :
    (extractDouble text : Option (R × Text)) = none := by
  rw [extractDouble, show text.dropWhile isSpace = [] from h]
  rfl

theorem double_some {text rest : Text} {x : R} (h : extractDouble text = some (x, rest)) :
    double ⟨text, false⟩ = (some x, ⟨rest, false⟩) := by
  have hblank : ¬ Blank text := fun hblank => by
    rw [extractDouble_blank hblank] at h
    cases h
  rw [double, sentry_not_blank hblank]
  simp only [extractDouble_dropWhile, h]

theorem double_none {text : Text} (hblank : ¬ Blank text)
    (h : (extractDouble text : Option (R × Text)) = none) :
    double ⟨text, false⟩ = (some (0 : R), fail) := by
  rw [double, sentry_not_blank hblank]
  simp only [extractDouble_dropWhile, h]

end Doubles

end LineStream

/-! ### How far the comparison goes -/

section Judges

variable {R : Type} [Field R] [LinearOrder R]

/-- The prices of the submission come to be compared with those expected. -/
structure Compared (c : Challenge R) (id : Int) (ticker : String) (expected : R × R) : Prop where
  challengeId : c.challengeId = id
  opened : c.winnerDeclared = false
  target : c.targetTicker = ticker
  known : c.marketData.lookup ticker = some expected

/-- No quote is as low as what a number that cannot be read leaves, or goes without a name. -/
def Challenge.Quoted (c : Challenge R) : Prop :=
  ∀ ticker expected, c.marketData.lookup ticker = some expected →
    ticker ≠ "" ∧ Server.tol < expected.1 ∧ Server.tol < expected.2

theorem quoted_of_forall {c : Challenge R}
    (h : ∀ e ∈ c.marketData, e.1 ≠ "" ∧ Server.tol < e.2.1 ∧ Server.tol < e.2.2) : c.Quoted := by
  intro ticker expected hfind
  obtain ⟨before, after, heq, -⟩ := List.lookup_eq_some_iff.mp hfind
  exact h (ticker, expected) (heq ▸ List.mem_append_right before List.mem_cons_self)

variable {c : Challenge R} {f : OrderFields R} {id : Int} {expected : R × R}

theorem judge_not_compared {sub : Submission R}
    (h : ∀ expected, ¬ Compared c sub.challengeId sub.ticker expected) :
    Server.judge sub c = (c, none) := by
  rcases Server.judge_cases sub c with hsame | ⟨⟨hid, hticker, bid, ask, hfind, -⟩, hopen, -⟩
  · exact hsame
  · exact absurd ⟨hid.symm, hopen, hticker.symm, hfind⟩ (h (bid, ask))

theorem judge_far {sub : Submission R} (hcompared : Compared c sub.challengeId sub.ticker expected)
    (hfar : ¬ |sub.bid - expected.1| ≤ Server.tol) : Server.judge sub c = (c, none) := by
  rcases Server.judge_cases sub c with hsame | ⟨⟨-, -, bid, ask, hfind, hbid, -⟩, -, -⟩
  · exact hsame
  · rw [hcompared.known] at hfind
    cases hfind
    exact absurd hbid hfar

theorem judgeFields_not_compared (hid : f.challengeId = some id)
    (h : ∀ expected, ¬ Compared c id f.ticker expected) : judgeFields f c = .ok (c, none) := by
  rw [judgeFields, hid]
  change (if _ then _ else _) = _
  split
  · rename_i hopen
    split
    · rename_i htarget
      split
      · rename_i bid ask hfind
        exact absurd ⟨hopen.1, hopen.2, htarget, hfind⟩ (h (bid, ask))
      · rfl
    · rfl
  · rfl

theorem judgeFields_compared (hid : f.challengeId = some id)
    (h : Compared c id f.ticker expected) : judgeFields f c =
      assigned .submittedBid f.submittedBid >>= fun submittedBid =>
        if |submittedBid - expected.1| ≤ Server.tol then
          assigned .submittedAsk f.submittedAsk >>= fun submittedAsk =>
            if |submittedAsk - expected.2| ≤ Server.tol then
              .ok ({ c with winnerDeclared := true, winnerName := f.clientName },
                some ⟨id, f.clientName⟩)
            else .ok (c, none)
        else .ok (c, none) := by
  rw [judgeFields, hid]
  change (if _ then _ else _) = _
  rw [if_pos ⟨h.challengeId, h.opened⟩, if_pos h.target, h.known]
  rfl

/-- A number that cannot be read is not near enough. -/
theorem zero_far {price : R} (h : Server.tol < price) : ¬ |0 - price| ≤ Server.tol := by
  rw [zero_sub, abs_neg]
  exact fun hle => absurd (lt_of_lt_of_le h (le_abs_self price)) (not_lt.mpr hle)

theorem judgeFields_zero (hquoted : c.Quoted) (hid : f.challengeId = some id)
    (hcompared : Compared c id f.ticker expected) (hbid : f.submittedBid = some 0) :
    judgeFields f c = .ok (c, none) := by
  rw [judgeFields_compared hid hcompared, hbid]
  exact if_neg (zero_far (hquoted _ _ hcompared.known).2.1)

theorem judgeFields_assigned {bid ask : R} (hid : f.challengeId = some id)
    (hbid : f.submittedBid = some bid) (hask : f.submittedAsk = some ask) :
    judgeFields f c =
      .ok (Server.judge ⟨f.header, id, f.ticker, bid, ask, f.clientName⟩ c) := by
  by_cases hcompared : ∃ expected, Compared c id f.ticker expected
  · obtain ⟨expected, hcompared⟩ := hcompared
    rw [judgeFields_compared hid hcompared, hbid, hask]
    rw [Server.judge, if_pos ⟨hcompared.challengeId, hcompared.opened⟩,
      if_pos hcompared.target, hcompared.known]
    change (if _ then (if _ then _ else _) else _) = Except.ok (if _ then _ else _)
    by_cases hnear : |bid - expected.1| ≤ Server.tol
    · by_cases hnear' : |ask - expected.2| ≤ Server.tol
      · rw [if_pos hnear, if_pos hnear', if_pos ⟨hnear, hnear'⟩, if_pos hcompared.opened]
      · rw [if_pos hnear, if_neg hnear', if_neg fun h => hnear' h.2]
    · rw [if_neg hnear, if_neg fun h => hnear h.1]
  · have hnot := not_exists.mp hcompared
    rw [judgeFields_not_compared hid hnot, judge_not_compared hnot]

end Judges

/-! ### Lines that stop short -/

section Lines

variable {R : Type} [Field R] [LinearOrder R] [FloorRing R]

/-- The line is one whose next number is compared, and there is none: behind the header, behind the
target of the open challenge, or behind a bid that is near enough. -/
inductive StopsShort (msg : Text) (c : Challenge R) : Unassigned → Prop
  | challengeId {r₁ : Text} (header : extractWord msg = (responseKey, r₁)) (blank : Blank r₁) :
      StopsShort msg c .challengeId
  | submittedBid {r₁ r₂ r₃ ticker : Text} {id : Int} {expected : R × R}
      (header : extractWord msg = (responseKey, r₁)) (read : extractInt r₁ = some (id, r₂))
      (word : extractWord r₂ = (ticker, r₃)) (compared : Compared c id (.ofList ticker) expected)
      (blank : Blank r₃) : StopsShort msg c .submittedBid
  | submittedAsk {r₁ r₂ r₃ r₄ ticker : Text} {id : Int} {bid : R} {expected : R × R}
      (header : extractWord msg = (responseKey, r₁)) (read : extractInt r₁ = some (id, r₂))
      (word : extractWord r₂ = (ticker, r₃)) (compared : Compared c id (.ofList ticker) expected)
      (first : extractDouble r₃ = some (bid, r₄)) (near : |bid - expected.1| ≤ Server.tol)
      (blank : Blank r₄) : StopsShort msg c .submittedAsk

/-- What is done with a line that does not stop short. -/
def lineEffect (msg : Text) (c : Challenge R) : Challenge R × Option Won :=
  match readSubmission msg with
  | some sub => Server.judge sub c
  | none => (c, none)

theorem extractWord_blank {text : Text} (h : Blank text) : extractWord text = ([], []) := by
  rw [extractWord, show text.dropWhile isSpace = [] from h]
  rfl

theorem not_blank_of_word {text word rest : Text} (h : extractWord text = (word, rest))
    (hword : word ≠ []) : ¬ Blank text := by
  intro hblank
  rw [extractWord_blank hblank] at h
  exact hword (Prod.mk.inj h).1.symm

/-- The variables once the header is extracted. -/
theorem orderFields_header {msg header r₁ : Text} (h : extractWord msg = (header, r₁))
    (hblank : ¬ Blank msg) : (orderFields msg : OrderFields R) =
      { header := .ofList header
        challengeId := (LineStream.int ⟨r₁, false⟩).1
        ticker := .ofList (LineStream.int ⟨r₁, false⟩).2.word.1
        submittedBid := ((LineStream.int ⟨r₁, false⟩).2.word.2.double (R := R)).1
        submittedAsk := (((LineStream.int ⟨r₁, false⟩).2.word.2.double (R := R)).2.double (R := R)).1
        clientName := .ofList
          (((LineStream.int ⟨r₁, false⟩).2.word.2.double (R := R)).2.double (R := R)).2.word.1 } := by
  rw [orderFields, LineStream.word_not_blank hblank, h]

variable {c : Challenge R} {msg r₁ : Text}

theorem key_ne_nil : responseKey ≠ [] := by decide

/-- The variables of a line whose id is read. -/
theorem orderFields_id (h : extractWord msg = (responseKey, r₁)) {id : Int} {r₂ : Text}
    (hid : extractInt r₁ = some (id, r₂)) : (orderFields msg : OrderFields R) =
      { header := .ofList responseKey
        challengeId := some id
        ticker := .ofList (LineStream.word ⟨r₂, false⟩).1
        submittedBid := ((LineStream.word ⟨r₂, false⟩).2.double (R := R)).1
        submittedAsk := (((LineStream.word ⟨r₂, false⟩).2.double (R := R)).2.double (R := R)).1
        clientName := .ofList
          (((LineStream.word ⟨r₂, false⟩).2.double (R := R)).2.double (R := R)).2.word.1 } := by
  rw [orderFields_header h (not_blank_of_word h key_ne_nil), LineStream.int_some hid]

/-- The variables of a line whose ticker is read. -/
theorem orderFields_ticker (h : extractWord msg = (responseKey, r₁)) {id : Int} {r₂ r₃ : Text}
    {ticker : Text} (hid : extractInt r₁ = some (id, r₂)) (hword : extractWord r₂ = (ticker, r₃))
    (hticker : ticker ≠ []) : (orderFields msg : OrderFields R) =
      { header := .ofList responseKey
        challengeId := some id
        ticker := .ofList ticker
        submittedBid := (LineStream.double (R := R) ⟨r₃, false⟩).1
        submittedAsk := ((LineStream.double (R := R) ⟨r₃, false⟩).2.double (R := R)).1
        clientName := .ofList
          ((LineStream.double (R := R) ⟨r₃, false⟩).2.double (R := R)).2.word.1 } := by
  rw [orderFields_id h hid, LineStream.word_not_blank (not_blank_of_word hword hticker), hword]

omit [FloorRing R] in
theorem StopsShort.header {v : Unassigned} (h : StopsShort msg c v) :
    (extractWord msg).1 = responseKey := by
  cases h with
  | challengeId header blank => rw [header]
  | submittedBid header read word compared blank => rw [header]
  | submittedAsk header read word compared first near blank => rw [header]

theorem StopsShort.error (hquoted : c.Quoted) {v : Unassigned} (h : StopsShort msg c v) :
    judgeFields (orderFields msg) c = .error v := by
  cases h with
  | challengeId header blank =>
      rw [orderFields_header header (not_blank_of_word header key_ne_nil),
        LineStream.int_blank blank]
      rfl
  | submittedBid header read word compared blank =>
      have hticker : _ ≠ [] := fun hnil =>
        (hquoted _ _ compared.known).1 (congrArg String.ofList hnil)
      rw [judgeFields_compared (by rw [orderFields_ticker header read word hticker])
        (by rw [orderFields_ticker header read word hticker]; exact compared),
        orderFields_ticker header read word hticker, LineStream.double_blank blank]
      rfl
  | submittedAsk header read word compared first near blank =>
      have hticker : _ ≠ [] := fun hnil =>
        (hquoted _ _ compared.known).1 (congrArg String.ofList hnil)
      rw [judgeFields_compared (by rw [orderFields_ticker header read word hticker])
        (by rw [orderFields_ticker header read word hticker]; exact compared),
        orderFields_ticker header read word hticker, LineStream.double_some first,
        LineStream.double_blank blank]
      exact if_pos near

omit [LinearOrder R] [FloorRing R] in
theorem readSubmission_no_id (h : extractWord msg = (responseKey, r₁))
    (hid : extractInt r₁ = none) :
    (readSubmission msg : Option (Submission R)) = none := by
  rw [readSubmission, h]
  simp only [hid]
  rfl

omit [LinearOrder R] [FloorRing R] in
/-- The submission of a line whose ticker is read. -/
theorem readSubmission_ticker (h : extractWord msg = (responseKey, r₁)) {id : Int}
    {r₂ r₃ ticker : Text} (hid : extractInt r₁ = some (id, r₂))
    (hword : extractWord r₂ = (ticker, r₃)) : (readSubmission msg : Option (Submission R)) =
      (extractDouble r₃).bind fun bid => (extractDouble bid.2).bind fun ask =>
        some ⟨.ofList responseKey, id, .ofList ticker, bid.1, ask.1,
          .ofList (extractWord ask.2).1⟩ := by
  rw [readSubmission, h]
  simp only [hid, Option.bind_eq_bind, Option.bind_some, hword]
  rfl

omit [FloorRing R] in
/-- A line whose numbers do not come to be compared. -/
theorem lineEffect_not_compared (h : extractWord msg = (responseKey, r₁)) {id : Int}
    {r₂ r₃ ticker : Text} (hid : extractInt r₁ = some (id, r₂))
    (hword : extractWord r₂ = (ticker, r₃))
    (hcompared : ∀ expected, ¬ Compared c id (.ofList ticker) expected) :
    lineEffect msg c = (c, none) := by
  rw [lineEffect, readSubmission_ticker h hid hword]
  cases (extractDouble r₃ : Option (R × Text)) with
  | none => rfl
  | some bid =>
      rw [Option.bind_some]
      cases (extractDouble bid.2 : Option (R × Text)) with
      | none => rfl
      | some ask => exact judge_not_compared hcompared

omit [FloorRing R] in
theorem lineEffect_far (h : extractWord msg = (responseKey, r₁)) {id : Int}
    {r₂ r₃ r₄ ticker : Text} (hid : extractInt r₁ = some (id, r₂))
    (hword : extractWord r₂ = (ticker, r₃)) {expected : R × R}
    (hcompared : Compared c id (.ofList ticker) expected) {bid : R}
    (hbid : extractDouble r₃ = some (bid, r₄)) (hfar : ¬ |bid - expected.1| ≤ Server.tol) :
    lineEffect msg c = (c, none) := by
  rw [lineEffect, readSubmission_ticker h hid hword, hbid, Option.bind_some]
  cases (extractDouble r₄ : Option (R × Text)) with
  | none => rfl
  | some ask => exact judge_far hcompared hfar

omit [LinearOrder R] [FloorRing R] in
theorem word_ne_nil {text : Text} (h : ¬ Blank text) : (extractWord text).1 ≠ [] := by
  obtain ⟨a, rest, hcons⟩ := List.exists_cons_of_ne_nil h
  have ha : isSpace a = false := by
    have hhead := List.head?_dropWhile_not isSpace text
    rw [hcons] at hhead
    simpa using hhead
  rw [extractWord, hcons, List.takeWhile_cons_of_pos (by rw [ha]; rfl)]
  exact List.cons_ne_nil _ _

/-- A line with an answer stops short or has the effect of the submission that it reads as. -/
theorem judge_line (hquoted : c.Quoted) (h : extractWord msg = (responseKey, r₁)) :
    (∃ v, StopsShort msg c v) ∨ judgeFields (orderFields msg) c = .ok (lineEffect msg c) := by
  have hnameless : ∀ id expected, ¬ Compared c id "" expected :=
    fun id expected hcompared => (hquoted _ _ hcompared.known).1 rfl
  by_cases h₁ : Blank r₁
  · exact .inl ⟨_, .challengeId h h₁⟩
  cases hid : extractInt r₁ with
  | none =>
      right
      obtain ⟨i, hi⟩ := LineStream.int_none h₁ hid
      have hfields := orderFields_header (R := R) h (not_blank_of_word h key_ne_nil)
      rw [hi] at hfields
      rw [lineEffect, readSubmission_no_id h hid,
        judgeFields_not_compared (by rw [hfields]) (by rw [hfields]; exact hnameless i)]
  | some read =>
  obtain ⟨id, r₂⟩ := read
  by_cases h₂ : Blank r₂
  · right
    have hword := extractWord_blank h₂
    have hfields := orderFields_id (R := R) h hid
    rw [LineStream.word_blank h₂] at hfields
    rw [lineEffect_not_compared h hid hword (hnameless id),
      judgeFields_not_compared (by rw [hfields]) (by rw [hfields]; exact hnameless id)]
  have hticker := word_ne_nil h₂
  cases hword : extractWord r₂ with
  | mk ticker r₃ =>
  rw [hword] at hticker
  have hfields := orderFields_ticker (R := R) h hid hword hticker
  by_cases hcompared : ∃ expected, Compared c id (.ofList ticker) expected
  swap
  · right
    have hnot := not_exists.mp hcompared
    rw [lineEffect_not_compared h hid hword hnot,
      judgeFields_not_compared (by rw [hfields]) (by rw [hfields]; exact hnot)]
  obtain ⟨expected, hcompared⟩ := hcompared
  by_cases h₃ : Blank r₃
  · exact .inl ⟨_, .submittedBid h hid hword hcompared h₃⟩
  cases hbid : (extractDouble r₃ : Option (R × Text)) with
  | none =>
      right
      rw [LineStream.double_none h₃ hbid] at hfields
      rw [lineEffect, readSubmission_ticker h hid hword, hbid,
        judgeFields_zero hquoted (by rw [hfields]) (by rw [hfields]; exact hcompared)
          (by rw [hfields])]
      rfl
  | some read =>
  obtain ⟨bid, r₄⟩ := read
  rw [LineStream.double_some hbid] at hfields
  by_cases hnear : |bid - expected.1| ≤ Server.tol
  swap
  · right
    rw [lineEffect_far h hid hword hcompared hbid hnear,
      judgeFields_compared (by rw [hfields]) (by rw [hfields]; exact hcompared), hfields]
    exact if_neg hnear
  by_cases h₄ : Blank r₄
  · exact .inl ⟨_, .submittedAsk h hid hword hcompared hbid hnear h₄⟩
  right
  cases hask : (extractDouble r₄ : Option (R × Text)) with
  | none =>
      rw [LineStream.double_none h₄ hask] at hfields
      rw [lineEffect, readSubmission_ticker h hid hword, hbid, Option.bind_some, hask,
        judgeFields_compared (by rw [hfields]) (by rw [hfields]; exact hcompared), hfields]
      refine (if_pos hnear).trans ?_
      exact if_neg (zero_far (hquoted _ _ hcompared.known).2.2)
  | some read =>
      obtain ⟨ask, r₅⟩ := read
      rw [LineStream.double_some hask] at hfields
      have hname : (LineStream.word ⟨r₅, false⟩).1 = (extractWord r₅).1 := by
        by_cases h₅ : Blank r₅
        · rw [LineStream.word_blank h₅, extractWord_blank h₅]
        · rw [LineStream.word_not_blank h₅]
      rw [lineEffect, readSubmission_ticker h hid hword, hbid, Option.bind_some, hask,
        judgeFields_assigned (by rw [hfields]) (by rw [hfields]) (by rw [hfields]), hfields]
      simp only [hname]
      rfl

end Lines

/-! ### The server on a line -/

namespace Server

/-- The state after the submission that the line reads as. -/
def afterLine (msg : Text) (s : Server) : Server :=
  match readSubmission msg with
  | some sub => (s.processOrder sub).1
  | none => s

/-- What a session sends for the line. -/
def lineResponse (msg : Text) : Option String :=
  if (extractWord msg).1 = responseKey then some "INCORRECT\n" else none

variable {msg : Text} {s : Server}

theorem header_orderFields (msg : Text) :
    (orderFields msg : OrderFields ℚ).header = .ofList (extractWord msg).1 := by
  by_cases hblank : Blank msg
  · rw [orderFields, LineStream.word_blank hblank, extractWord_blank hblank]
  · rw [orderFields_header rfl hblank]
    rfl

theorem ofList_responseKey : String.ofList responseKey = "CHALLENGE_RESPONSE" := by decide

theorem header_eq_iff (msg : Text) :
    (orderFields msg : OrderFields ℚ).header = "CHALLENGE_RESPONSE" ↔
      (extractWord msg).1 = responseKey := by
  rw [header_orderFields, ← ofList_responseKey, String.ofList_inj]

/-- The header of the submission is the first word of the line. -/
theorem header_readSubmission {sub : Submission} (h : readSubmission msg = some sub) :
    sub.header = .ofList (extractWord msg).1 := by
  obtain ⟨⟨id, r₂⟩, -, h⟩ := Option.bind_eq_some_iff.mp h
  obtain ⟨⟨bid, r₄⟩, -, h⟩ := Option.bind_eq_some_iff.mp h
  obtain ⟨⟨ask, r₅⟩, -, h⟩ := Option.bind_eq_some_iff.mp h
  cases h
  rfl

/-- A line whose header is another. -/
theorem processLine_other (hheader : (extractWord msg).1 ≠ responseKey) :
    s.processLine msg = .ok (s.afterLine msg, lineResponse msg) := by
  have hsame : s.afterLine msg = s := by
    rw [afterLine]
    cases hsub : (readSubmission msg : Option Submission) with
    | none => rfl
    | some sub =>
        have hother : sub.header ≠ "CHALLENGE_RESPONSE" := by
          rw [header_readSubmission hsub, ← ofList_responseKey, Ne, String.ofList_inj]
          exact hheader
        exact congrArg Prod.fst (if_pos hother)
  rw [hsame, lineResponse, if_neg hheader, processLine]
  exact if_pos fun h => hheader ((header_eq_iff msg).mp h)

/-- A line with an answer, as far as the challenge is judged. -/
theorem processLine_answer (hheader : (extractWord msg).1 = responseKey) :
    s.processLine msg = (judgeFields (orderFields msg) s.currentChallenge).map fun judged =>
      ({ s with currentChallenge := judged.1, console := s.console ++ judged.2.toList },
        some "INCORRECT\n") := by
  rw [processLine]
  simp only [(header_eq_iff msg).mpr hheader, ne_eq, not_true_eq_false, if_false]
  cases judgeFields (orderFields msg) s.currentChallenge <;> rfl

theorem lineEffect_afterLine (hheader : (extractWord msg).1 = responseKey) :
    { s with
      currentChallenge := (lineEffect msg s.currentChallenge).1
      console := s.console ++ (lineEffect msg s.currentChallenge).2.toList } =
      s.afterLine msg := by
  rw [lineEffect, afterLine]
  cases hsub : (readSubmission msg : Option Submission) with
  | none => simp
  | some sub =>
      have hkey : sub.header = "CHALLENGE_RESPONSE" := by
        rw [header_readSubmission hsub, hheader, ofList_responseKey]
      simp [processOrder, hkey]

/-- A line reads an unassigned variable exactly if it stops short, and otherwise does what the
submission that it reads as does, if it reads as one. -/
theorem process_line_defined (hquoted : s.currentChallenge.Quoted) (msg : Text) :
    (∀ v, s.processLine msg = .error v ↔ StopsShort msg s.currentChallenge v) ∧
      ((∀ v, ¬ StopsShort msg s.currentChallenge v) →
        s.processLine msg = .ok (s.afterLine msg, lineResponse msg)) := by
  have hshort : ∀ {v}, StopsShort msg s.currentChallenge v → s.processLine msg = .error v := by
    intro v h
    rw [processLine_answer h.header, h.error hquoted]
    rfl
  by_cases hheader : (extractWord msg).1 = responseKey
  · rcases judge_line hquoted (Prod.ext hheader rfl) with ⟨v, hstops⟩ | hok
    · refine ⟨fun v' => ⟨fun h => ?_, hshort⟩, fun h => absurd hstops (h v)⟩
      cases (hshort hstops).symm.trans h
      exact hstops
    · have hline : s.processLine msg = .ok (s.afterLine msg, lineResponse msg) := by
        rw [processLine_answer hheader, hok, lineResponse, if_pos hheader,
          ← lineEffect_afterLine hheader]
        rfl
      refine ⟨fun v => ⟨fun h => ?_, hshort⟩, fun _ => hline⟩
      cases hline.symm.trans h
  · have hline := processLine_other (s := s) hheader
    refine ⟨fun v => ⟨fun h => ?_, hshort⟩, fun _ => hline⟩
    cases hline.symm.trans h

/-- A challenge for one ticker. -/
def oneQuote : Server :=
  { zero with
    currentChallenge := ⟨7, "SEC0042", [("SEC0042", 57, 58)], false, ""⟩
    globalChallengeId := 7 }

theorem oneQuote_quoted : oneQuote.currentChallenge.Quoted := by
  refine quoted_of_forall fun e he => ?_
  rw [List.mem_singleton.mp he]
  exact ⟨by decide, by norm_num [tol], by norm_num [tol]⟩

/-- The right answer without an ask. -/
def shortAnswer : Text := responseKey ++ " 7 SEC0042 57 ".toList

theorem process_line_defined_sample : oneQuote.processLine shortAnswer = .error .submittedAsk := by
  have header : extractWord shortAnswer = (responseKey, " 7 SEC0042 57 ".toList) := by decide
  have read : extractInt " 7 SEC0042 57 ".toList = some (7, " SEC0042 57 ".toList) := by decide
  have word : extractWord " SEC0042 57 ".toList = ("SEC0042".toList, " 57 ".toList) := by decide
  have first : extractDouble " 57 ".toList = some ((57 : ℚ), " ".toList) := by decide +kernel
  exact ((process_line_defined oneQuote_quoted shortAnswer).1 .submittedAsk).mpr
    (.submittedAsk header read word ⟨rfl, rfl, rfl, rfl⟩ first (by norm_num [tol]) (by decide))

end Server

end HftProject
