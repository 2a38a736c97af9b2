import HftProject.Week2.PriceHits
import Mathlib.Data.List.Chain
import Mathlib.Data.List.DropRight

/-!
The price market of phase 2: `hft_server` and its clients over connections that hand over whole
messages. `broadcastPrices` stamps a price under `priceMutex` and sends it to the clients under
`clientsMutex`; `startServer` enters clients in between; each client decodes its prices, and
orders where the last three rise or fall; a thread of `handleClient` credits the orders of its
client. Each step is one block of a thread, in any order.

A whole message is decoded as the price that it was written from (`Price.stof_digits`), so what a
client orders is a function of the prices that it has received (`receive_message`). Left out are
connections that end, and names that no buffer holds.
-/

namespace HftProject.Week2.Phase2

open Decimal Rounding

/-! ### A whole message is the price -/

/-- The units of single precision for the numbers of a price. -/
theorem ulp_price {x : ℚ} (hlow : 64 ≤ x) (hhigh : x < 256) :
    (x < 128 ∧ ulp 24 x = 1 / 131072) ∨ (128 ≤ x ∧ ulp 24 x = 1 / 65536) := by
  rcases lt_or_ge x 128 with hless | hmore
  · refine .inl ⟨hless, ?_⟩
    rw [ulp_of_mem (e := 6) (by norm_num; exact hlow) (by norm_num; exact hless)]
    norm_num
  · refine .inr ⟨hmore, ?_⟩
    rw [ulp_of_mem (e := 7) (by norm_num; exact hmore) (by norm_num; exact hhigh)]
    norm_num

/-- A price is a whole number of the smaller units, and from 128 on of the larger ones. -/
theorem Price.value_units (price : Price) :
    (∃ m : Int, price.value = m / 131072) ∧
      (128 ≤ price.value → ∃ m : Int, price.value = m / 65536) := by
  obtain ⟨hlow, hhigh⟩ := price.value_bounds
  have hvalue : price.value = roundBinary 24 (100 + float ((price.draw.val : ℚ) / 10)) := rfl
  have hdraw : (price.draw.val : ℚ) ≤ 1000 := by exact_mod_cast price.draw.isLt.le
  have htenth : 0 ≤ float ((price.draw.val : ℚ) / 10) := by
    exact_mod_cast natCast_le_roundBinary (n := 0) (by simp; positivity)
      (show (price.draw.val : ℚ) / 10 < 2 ^ 24 by linarith)
  have hy : 100 ≤ 100 + float ((price.draw.val : ℚ) / 10) := by linarith
  generalize 100 + float ((price.draw.val : ℚ) / 10) = y at hvalue hy
  have herror := abs_le.mp (abs_sub_roundBinary_le_div 24 (show 0 < y by linarith))
  rw [← hvalue] at herror
  have hround : price.value = roundHalfEven (y / ulp 24 y) * ulp 24 y := by
    rw [hvalue, roundBinary, if_neg (by linarith)]
  rcases ulp_price (show 64 ≤ y by linarith) (show y < 256 by linarith) with
    ⟨hless, hulp⟩ | ⟨-, hulp⟩
  · rw [hulp] at hround
    refine ⟨⟨roundHalfEven (y / (1 / 131072)), by linarith⟩, fun hmore => ⟨8388608, ?_⟩⟩
    have hle : price.value ≤ ((128 : Nat) : ℚ) := by
      rw [hvalue]
      exact roundBinary_le_natCast (by linarith) (by push_cast; linarith) (by linarith)
    push_cast at hle ⊢
    linarith
  · rw [hulp] at hround
    refine ⟨⟨2 * roundHalfEven (y / (1 / 65536)), ?_⟩, fun _ =>
      ⟨roundHalfEven (y / (1 / 65536)), by linarith⟩⟩
    push_cast
    linarith

/-- What is nearer to a number of units than half a unit is rounded to it. -/
theorem float_of_near {x v : ℚ} {m : Int} {units : ℚ} (hunits : 0 < units) (hx : x ≠ 0)
    (hulp : ulp 24 x = 1 / units) (hv : v = m / units) (hnear : |x - v| < 1 / (2 * units)) :
    float x = v := by
  have hm : |x / ulp 24 x - m| < 1 / 2 := by
    have hscaled : x / ulp 24 x - m = (x - v) * units := by
      rw [hulp, hv]
      field_simp
    rw [hscaled, abs_mul, abs_of_pos hunits]
    calc |x - v| * units < 1 / (2 * units) * units := mul_lt_mul_of_pos_right hnear hunits
      _ = 1 / 2 := by field_simp
  rw [float, roundBinary, if_neg hx, roundHalfEven_eq hm, hulp, hv, mul_one_div]

/-- The six decimals of a price are read as the price. -/
theorem Price.stof_digits (price : Price) : stof price.digits = some price.value := by
  obtain ⟨hlow, hhigh⟩ := price.value_bounds
  obtain ⟨⟨m, hm⟩, hlarge⟩ := price.value_units
  obtain ⟨d, hread, hd⟩ := readNumber_putFixed 6 price.value endsNumber_nil
  have hround := abs_le.mp (abs_sub_roundHalfEven_le (price.value * 10 ^ 6))
  have hn : 0 ≤ roundHalfEven (price.value * 10 ^ 6) :=
    le_roundHalfEven (by push_cast; linarith)
  rw [if_neg (by linarith), abs_of_nonneg (by linarith), one_mul, ← Int.cast_natCast,
    Int.toNat_of_nonneg hn] at hd
  have hspace : price.digits.dropWhile isSpace = price.digits := by
    obtain ⟨whole, fraction, hdigits, hwhole, hlength, -⟩ := price.digits_eq
    obtain ⟨c, cs, rfl⟩ := List.exists_cons_of_length_pos (show 0 < whole.length by omega)
    rw [hdigits]
    exact dropWhile_isSpace_sign (hwhole c List.mem_cons_self) false _
  rw [List.append_nil] at hread
  rw [stof, stod, hspace, Price.digits, hread, Option.map_some, Option.map_some, hd]
  congr 1
  generalize roundHalfEven (price.value * 10 ^ 6) = n at hround
  have hclose : |(n : ℚ) * (10 ^ 6)⁻¹ - price.value| ≤ 1 / 2000000 := by
    rw [abs_le]
    constructor <;> linarith
  generalize (n : ℚ) * (10 ^ 6)⁻¹ = x at hclose
  have hbetween := abs_le.mp hclose
  rcases ulp_price (show 64 ≤ x by linarith) (show x < 256 by linarith) with
    ⟨-, hulp⟩ | ⟨hmore, hulp⟩
  · exact float_of_near (by norm_num) (by linarith) hulp hm (by norm_num; linarith)
  · have hwhole : (16777215 : ℚ) < m := by
      have hscaled : (m : ℚ) = price.value * 131072 := by linarith
      linarith
    have hge : (16777216 : ℚ) ≤ m := by
      exact_mod_cast (show (16777216 : Int) ≤ m by
        have : (16777215 : Int) < m := by exact_mod_cast hwhole
        omega)
    obtain ⟨m', hm'⟩ := hlarge (by linarith)
    exact float_of_near (by norm_num) (by linarith) hulp hm' (by norm_num; linarith)

/-! ### The program -/

/-- Where the thread of `broadcastPrices` is. -/
inductive Broadcaster where
  | sleeping
  /-- Before `clientsMutex`. The price has its time stamp. -/
  | stamped (price : Price)
  /-- Under `clientsMutex`, with the clients to which the price is still to be sent. -/
  | sending (price : Price) (rest : List Nat)
deriving DecidableEq

/-- The server, its clients and what has been written to their connections. The messages of a
connection are numbered; of those to a client `delivered` have been received, and of those to the
server `handled`. -/
structure PriceNetwork where
  server : PriceServer
  broadcaster : Broadcaster
  clients : List Nat
  programs : Nat → Option (Text × Client)
  written : Nat → List Price
  delivered : Nat → Nat
  handled : Nat → Nat

/-- What a program has sent: its name, unless that is empty, and its orders. -/
def outbox : Option (Text × Client) → List Text
  | none => []
  | some (name, client) => (if name = [] then [] else [name]) ++ client.sent

namespace PriceNetwork

inductive Action where
  | connect (client : Nat) (name : Text)
  | accept (client : Nat)
  | stamp (draw : Fin 1000)
  | enter
  | send
  | deliver (client : Nat)
  | handle (client : Nat)
  | lock (client : Nat)
deriving DecidableEq

/-- Why a step is not taken. -/
inductive Refusal where
  | notReady
  /-- `atoi` on a number that no `int` holds. -/
  | undefined
  /-- `stoi` or `stof` throws in a client. -/
  | exception
deriving DecidableEq, Repr

def start : PriceNetwork :=
  ⟨.start, .sleeping, [], fun _ => none, fun _ => [], fun _ => 0, fun _ => 0⟩

/-- A name that no buffer holds is received in pieces, and left out. -/
def connect (client : Nat) (name : Text) (s : PriceNetwork) : Except Refusal PriceNetwork :=
  if s.programs client = none ∧ name.length ≤ bufferSize - 1 then
    .ok { s with programs := Function.update s.programs client (some (name, .start)) }
  else .error .notReady

/-- `startServer` takes `clientsMutex` to enter a client. -/
def accept (client : Nat) (s : PriceNetwork) : Except Refusal PriceNetwork :=
  if s.programs client ≠ none ∧ client ∉ s.clients then
    match s.broadcaster with
    | .sending _ _ => .error .notReady
    | _ => .ok { s with clients := s.clients ++ [client] }
  else .error .notReady

def stamp (draw : Fin 1000) (s : PriceNetwork) : Except Refusal PriceNetwork :=
  match s.broadcaster with
  | .sleeping =>
      if h : -2 ^ 31 ≤ s.server.priceId ∧ s.server.priceId < 2 ^ 31 then
        .ok { s with
          server := s.server.broadcastPrices
          broadcaster := .stamped ⟨⟨s.server.priceId, h⟩, draw⟩ }
      else .error .undefined
  | _ => .error .notReady

def enter (s : PriceNetwork) : Except Refusal PriceNetwork :=
  match s.broadcaster with
  | .stamped price => .ok { s with broadcaster := .sending price s.clients }
  | _ => .error .notReady

def send (s : PriceNetwork) : Except Refusal PriceNetwork :=
  match s.broadcaster with
  | .sending _ [] => .ok { s with broadcaster := .sleeping }
  | .sending price (client :: rest) =>
      .ok { s with
        written := Function.update s.written client (s.written client ++ [price])
        broadcaster := .sending price rest }
  | _ => .error .notReady

/-- A client's `recv` returns the next price. -/
def deliver (client : Nat) (s : PriceNetwork) : Except Refusal PriceNetwork :=
  match s.programs client, (s.written client)[s.delivered client]? with
  | some (name, program), some price =>
      match program.receive price.message with
      | some program =>
          .ok { s with
            programs := Function.update s.programs client (some (name, program))
            delivered := Function.update s.delivered client (s.delivered client + 1) }
      | none => .error .exception
  | _, _ => .error .notReady

/-- The thread of a client receives the next message of it. -/
def handle (client : Nat) (s : PriceNetwork) : Except Refusal PriceNetwork :=
  match (outbox (s.programs client))[s.handled client]?, s.server.threads client with
  | some message, .naming | some message, .receiving _ =>
      if client ∈ s.clients then
        match s.server.recv client message with
        | .ok server =>
            .ok { s with
              server := server
              handled := Function.update s.handled client (s.handled client + 1) }
        | .error _ => .error .undefined
      else .error .notReady
  | _, _ => .error .notReady

def lock (client : Nat) (s : PriceNetwork) : Except Refusal PriceNetwork :=
  match s.server.threads client with
  | .hitting _ _ _ => .ok { s with server := s.server.lock client }
  | _ => .error .notReady

def step (action : Action) (s : PriceNetwork) : Except Refusal PriceNetwork :=
  match action with
  | .connect client name => s.connect client name
  | .accept client => s.accept client
  | .stamp draw => s.stamp draw
  | .enter => s.enter
  | .send => s.send
  | .deliver client => s.deliver client
  | .handle client => s.handle client
  | .lock client => s.lock client

end PriceNetwork

/-! ### What a client does with its prices -/

/-- The prices at which the last three rise or fall. -/
def momentum (prices : List Price) : List Price :=
  prices.inits.filterMap fun seen =>
    if Client.direction ((seen.map Price.value).rtake 3) = 0 then none else seen.getLast?

theorem momentum_append (prices : List Price) (price : Price) :
    momentum (prices ++ [price]) = momentum prices ++
      (if Client.direction (((prices ++ [price]).map Price.value).rtake 3) = 0 then []
        else [price]) := by
  rw [momentum, List.inits_append, List.filterMap_append,
    show [price].inits = [[], [price]] from rfl]
  congr 1
  simp only [List.tail_cons, List.map_cons, List.map_nil, List.filterMap_cons, List.filterMap_nil,
    List.getLast?_append, List.getLast?_singleton, Option.some_or]
  by_cases hstill : Client.direction (((prices ++ [price]).map Price.value).rtake 3) = 0
  · simp only [if_pos hstill]
  · simp only [if_neg hstill]

/-- A client that has received the prices. -/
def Client.after (prices : List Price) : Client where
  priceHistory := (prices.map Price.value).rtake 3
  decoded := prices.map Price.pair
  sent := (momentum prices).map fun price => putInt price.id.val

theorem remember_rtake (values : List ℚ) (v : ℚ) :
    Client.remember v (values.rtake 3) = (values ++ [v]).rtake 3 := by
  simp only [Client.remember, List.rtake, List.length_append, List.length_drop, List.length_cons,
    List.length_nil]
  rcases Nat.lt_or_ge values.length 3 with hshort | hlong
  · rw [if_neg (by omega), show values.length - 3 = 0 by omega,
      show values.length + (0 + 1) - 3 = 0 by omega, List.drop_zero, List.drop_zero]
  · rw [if_pos (by omega), List.drop_drop, ← List.drop_append_of_le_length (by omega),
      show values.length - 3 + 1 = values.length + (0 + 1) - 3 by omega]

theorem stoi_putInt (id : PriceId) : stoi (putInt id) = some id.val := by
  have hread := readInt_putInt id.val noDigit_nil
  rw [List.append_nil] at hread
  rw [stoi, hread]
  simp only [Option.bind_eq_bind, Option.bind_some, if_pos id.property]
  rfl

theorem nul_not_mem_message (price : Price) : '\x00' ∉ price.message := by
  have hstream := nul_not_mem_priceStream [price]
  rwa [priceStream, List.flatMap_cons, List.flatMap_nil, List.append_nil] at hstream

/-- A whole message is decoded as the price. -/
theorem receive_message (prices : List Price) (price : Price) :
    (Client.after prices).receive price.message = some (Client.after (prices ++ [price])) := by
  have hdrop : (putInt price.id ++ ',' :: price.digits).drop ((putInt price.id.val).length + 1) =
      price.digits := by
    rw [← List.drop_drop, List.drop_left]
    rfl
  rw [Client.receive, cString_eq (nul_not_mem_message price), Price.message]
  simp only [idxOf_comma (comma_not_mem_putInt price.id.val), List.take_left, hdrop, stoi_putInt,
    price.stof_digits, Option.bind_eq_bind, Option.bind_some]
  simp only [Client.after, remember_rtake, momentum_append, List.map_append, List.map_cons,
    List.map_nil, Price.pair]
  split
  · rw [List.map_nil, List.append_nil]
    rfl
  · rfl

end HftProject.Week2.Phase2
