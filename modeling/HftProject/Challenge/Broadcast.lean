import HftProject.Challenge.Server
import HftProject.Lib.Lines
import HftProject.Lib.Text

/-!
The message that `udp_broadcast_thread` builds of a challenge, and the fragments it is sent
in. A message is a text of lines: a `SEC` line for each ticker, then the `CHALLENGE_ID` and
the `TARGET` line. The fragments are cut by bytes, wherever a line happens to be.
-/

namespace HftProject

open Lines

/-- What stands in the text of a `double`: digits, or a letter of `1e+06`, `inf` or `nan`. -/
def PriceChar (c : Char) : Prop :=
  c.isDigit = true ∨ c ∈ ['+', '-', '.', 'a', 'e', 'f', 'i', 'n']

/-- `operator<<` and `std::stod` of prices: a price is read back as the one `shown`. -/
structure PriceFormat (D : Type) where
  put : D → Text
  stod : Text → Option D
  shown : D → D
  stod_put : ∀ d, stod (put d) = some (shown d)
  stod_nil : stod [] = none
  plain : ∀ d, ∀ c ∈ put d, PriceChar c

/-- A line of a message. -/
inductive Line (D : Type) where
  | sec (ticker : Text) (bid ask : D)
  | challengeId (id : Int)
  | target (ticker : Text)
deriving DecidableEq

def secKey : Text := ['S', 'E', 'C', '|']
def bidKey : Text := ['B', 'I', 'D', '|']
def askKey : Text := ['A', 'S', 'K', '|']
def challengeIdKey : Text := ['C', 'H', 'A', 'L', 'L', 'E', 'N', 'G', 'E', '_', 'I', 'D', ':']
def targetKey : Text := ['T', 'A', 'R', 'G', 'E', 'T', ':']

variable {D : Type}

/-- The line as it is written to the stream, without its `\n`. -/
def PriceFormat.render (fmt : PriceFormat D) : Line D → Text
  | .sec ticker bid ask =>
      secKey ++ ticker ++ '|' :: bidKey ++ fmt.put bid ++ '|' :: askKey ++ fmt.put ask
  | .challengeId id => challengeIdKey ++ putInt id
  | .target ticker => targetKey ++ ticker

namespace Challenge

/-- The `SEC` lines. -/
def quotes (c : Challenge D) : List (Line D) :=
  c.marketData.map fun entry => .sec entry.1.toList entry.2.1 entry.2.2

/-- The lines of the message. -/
def messageLines (c : Challenge D) : List (Line D) :=
  c.quotes ++ [.challengeId c.challengeId, .target c.targetTicker.toList]

def message (fmt : PriceFormat D) (c : Challenge D) : Text :=
  unlines '\n' (c.messageLines.map fmt.render)

end Challenge

def maxUdpPayload : Nat := 1400

/-- The fragments of a message, `fragmentSize` bytes each but for the last. -/
def fragments (fragmentSize : Nat) (message : Text) : List Text :=
  let totalSize := message.length
  let numFragments := (totalSize + fragmentSize - 1) / fragmentSize
  (List.range numFragments).map fun i =>
    let start := i * fragmentSize
    let len := min fragmentSize (totalSize - start)
    (message.drop start).take len

end HftProject
