import HftProject.Challenge.Broadcast
import Mathlib.Logic.Function.Basic

/-!
The challenge client: `process_queued_message` reads the lines of one packet, applies them
to the three globals under the lock, and responds when the globals hold a challenge, a target
and its quote. The socket is taken to be open, so that `send_tcp_response` sends.
-/

namespace HftProject

open Lines

/-! ### Strings -/

/-- Where the first occurrence of the pattern starts. -/
def findIn (pattern : Text) : Text → Option Nat
  | [] => none
  | c :: rest =>
      if pattern.isPrefixOf (c :: rest) then some 0 else (findIn pattern rest).map (· + 1)

/-- `find` of a pattern that is not empty; `none` is `npos`. -/
def find (line pattern : Text) (pos : Nat) : Option Nat :=
  (findIn pattern (line.drop pos)).map (pos + ·)

/-- The sum of a position and 4; `npos + 4` is 3. -/
def plusFour : Option Nat → Nat
  | some pos => pos + 4
  | none => 3

/-- `substr`, which throws behind the end. Without a count it runs to the end. -/
def substr (line : Text) (pos : Nat) (count : Option Nat) : Option Text :=
  if pos ≤ line.length then
    match count with
    | some n => some ((line.drop pos).take n)
    | none => some (line.drop pos)
  else none

/-- The number at the start of a text, without sign. -/
def digits (text : Text) : Option Nat :=
  match text.takeWhile Char.isDigit with
  | [] => none
  | ds => some (Nat.ofDigitChars 10 ds 0)

/-- `from_chars` of an `int`. -/
def fromChars (text : Text) : Option Int :=
  match text with
  | '-' :: rest =>
      match digits rest with
      | some n => if n ≤ 2 ^ 31 then some (-n) else none
      | none => none
  | _ =>
      match digits text with
      | some n => if n < 2 ^ 31 then some n else none
      | none => none

/-! ### Reading a packet -/

variable {D : Type}

/-- What the lines of a packet have said. -/
structure Parsed (D : Type) where
  secUpdates : List (Text × D × D)
  challengeId : Option Int
  target : Option Text
deriving DecidableEq

def Parsed.nothing : Parsed D := ⟨[], none, none⟩

variable (fmt : PriceFormat D)

/-- A line that starts with `SEC|`. An exception from a number skips the line. -/
def parseSec (line : Text) : Option (Text × D × D) := do
  let tickerStart := 4
  let tickerEnd ← find line ['|'] tickerStart
  let ticker := (line.drop tickerStart).take (tickerEnd - tickerStart)
  let bidStart := plusFour (find line bidKey tickerEnd)
  let bidEnd := find line ['|'] bidStart
  let askStart := plusFour (bidEnd.bind fun pos => find line askKey pos)
  let bid ← fmt.stod (← substr line bidStart (bidEnd.map (· - bidStart)))
  let ask ← fmt.stod (← substr line askStart none)
  return (ticker, bid, ask)

def parseLine (parsed : Parsed D) (line : Text) : Parsed D :=
  if secKey.isPrefixOf line then
    match parseSec fmt line with
    | some update => { parsed with secUpdates := parsed.secUpdates ++ [update] }
    | none => parsed
  else if challengeIdKey.isPrefixOf line then
    match fromChars (line.drop 13) with
    | some id => { parsed with challengeId := some id }
    | none => parsed
  else if targetKey.isPrefixOf line then { parsed with target := some (line.drop 7) }
  else parsed

def parsePacket (data : Text) : Parsed D :=
  (lines '\n' data).foldl (parseLine fmt) .nothing

/-! ### The globals -/

structure Client (D : Type) where
  currentMarketData : Text → Option (D × D)
  currentChallengeId : Int
  currentTargetTicker : Text

/-- The arguments of `send_tcp_response`. -/
structure Response (D : Type) where
  challengeId : Int
  ticker : Text
  bid : D
  ask : D
deriving DecidableEq, Repr

namespace Client

def start : Client D := ⟨fun _ => none, -1, []⟩

def applyUpdates (market : Text → Option (D × D)) (updates : List (Text × D × D)) :
    Text → Option (D × D) :=
  updates.foldl (fun market update => Function.update market update.1 (some update.2)) market

/-- A new challenge clears what belongs to the last one. -/
def newChallenge (found : Option Int) (s : Client D) : Client D :=
  match found with
  | some id => if id ≠ s.currentChallengeId then ⟨fun _ => none, id, []⟩ else s
  | none => s

/-- The section under the lock. -/
def update (parsed : Parsed D) (s : Client D) : Client D :=
  let s := s.newChallenge parsed.challengeId
  { s with
    currentMarketData := applyUpdates s.currentMarketData parsed.secUpdates
    currentTargetTicker := parsed.target.getD s.currentTargetTicker }

/-- The response, if the globals hold one. -/
def check (s : Client D) : Option (Response D) :=
  if s.currentChallengeId ≠ -1 ∧ s.currentTargetTicker ≠ [] then
    (s.currentMarketData s.currentTargetTicker).map fun quote =>
      ⟨s.currentChallengeId, s.currentTargetTicker, quote.1, quote.2⟩
  else none

/-- The section after a response. -/
def reset (s : Client D) : Client D :=
  { s with
    currentMarketData := fun _ => none
    currentTargetTicker := [] }

def process (parsed : Parsed D) (s : Client D) : Client D × Option (Response D) :=
  let s := s.update parsed
  match s.check with
  | some response => (s.reset, some response)
  | none => (s, none)

def processQueuedMessage (packet : Text) (s : Client D) : Client D × Option (Response D) :=
  s.process (parsePacket fmt packet)

/-- A single worker processes the packets in order. -/
def processAll : List Text → Client D → Client D × List (Response D)
  | [], s => (s, [])
  | packet :: packets, s =>
      let (s, response) := s.processQueuedMessage fmt packet
      let (s, responses) := processAll packets s
      (s, response.toList ++ responses)

end Client

end HftProject
