import HftProject.Lib.Segments
import HftProject.Lib.Text
import Mathlib.Data.Rat.Floor

/-!
The prices that `broadcastPrices` sends to a client, and the name and the orders that come back.
Neither direction marks where a message ends: `receiveAndRespond` and `handleClient` take what
one `recv` returns for one message. The messages survive exactly those segmentations of the
stream that hand each of them over in one piece (`messages_survive_iff`), up to digits that
change no number.
-/

namespace HftProject.Week2.Phase2

open Decimal Rounding Segments

/-- What `priceId` can hold. -/
abbrev PriceId := {i : Int // -2 ^ 31 ≤ i ∧ i < 2 ^ 31}

/-! ### The senders -/

/-- A price of `broadcastPrices`; the draw is `rand() % 1000`. -/
structure Price where
  id : PriceId
  draw : Fin 1000
deriving DecidableEq

namespace Price

def value (price : Price) : ℚ := float (100 + float ((price.draw.val : ℚ) / 10))

/-- `to_string` writes six decimals. -/
def digits (price : Price) : Text := putFixed 6 price.value

def message (price : Price) : Text := putInt price.id ++ ',' :: price.digits

end Price

/-- What the server sends to a client. -/
def priceStream (prices : List Price) : Text := prices.flatMap Price.message

/-- What a client sends to the server. -/
def orderStream (name : Text) (orders : List PriceId) : Text :=
  name ++ orders.flatMap fun id => putInt id.val

def bufferSize : Nat := 1024

/-- The bytes that successive calls of `recv` return of a stream. -/
structure Segmentation (stream : Text) where
  chunks : List Text
  flatten_eq : chunks.flatten = stream
  nonempty : ∀ chunk ∈ chunks, chunk ≠ []
  bounded : ∀ chunk ∈ chunks, chunk.length ≤ bufferSize - 1

/-! ### The receivers -/

/-- The client while it receives: the prices it remembers, the pairs it has decoded and the
orders it has sent. -/
structure Client where
  priceHistory : List ℚ
  decoded : List (Int × ℚ)
  sent : List Text
deriving DecidableEq

namespace Client

def start : Client := ⟨[], [], []⟩

def direction : List ℚ → Int
  | [a, b, c] => if a < b ∧ b < c then 1 else if a > b ∧ b > c then -1 else 0
  | _ => 0

def remember (price : ℚ) (priceHistory : List ℚ) : List ℚ :=
  (if priceHistory.length ≥ 3 then priceHistory.drop 1 else priceHistory) ++ [price]

/-- The bytes of one `recv`. An exception of `stoi` or `stof` ends the program. -/
def receive (chunk : Text) (client : Client) : Option Client :=
  let data := cString chunk
  match data.idxOf? ',' with
  | none => some client
  | some commaPos => do
      let priceId ← stoi (data.take commaPos)
      let price ← stof (data.drop (commaPos + 1))
      let priceHistory := remember price client.priceHistory
      return {
        priceHistory := priceHistory
        decoded := client.decoded ++ [(priceId, price)]
        sent :=
          if direction priceHistory = 0 then client.sent
          else client.sent ++ [putInt priceId] }

def receiveAndRespond : List Text → Client → Client
  | [], client => client
  | chunk :: chunks, client =>
      match client.receive chunk with
      | some client => receiveAndRespond chunks client
      | none => client

end Client

/-- The name of a client, if one was received, and the ids of its orders. -/
structure Session where
  name : Option Text
  decoded : List (Option Int)
deriving DecidableEq

def handleClient : List Text → Session
  | [] => ⟨none, []⟩
  | first :: chunks => ⟨some (cString first), chunks.map fun chunk => atoi (cString chunk)⟩

/-! ### What a chunk hands over -/

/-- The chunk holds the id of the price and as much of its digits as reads as the price. Zeros
in front, which can be left of an earlier price, do not count. -/
def Carries (price : Price) (chunk : Text) : Prop :=
  ∃ zeros rest, chunk = zeros ++ (putInt price.id ++ ',' :: rest) ∧
    (∀ c ∈ zeros, c = '0') ∧ (price.id.val < 0 → zeros = []) ∧
    rest <+: price.digits ∧ stof rest = some price.value

/-! ### The digits of a price -/

namespace Price

theorem value_bounds (price : Price) : 100 ≤ price.value ∧ price.value ≤ 200 := by
  have hdraw : (price.draw.val : ℚ) / 10 ≤ (100 : Nat) := by
    have hlt : (price.draw.val : ℚ) ≤ 1000 := by exact_mod_cast price.draw.isLt.le
    rw [Nat.cast_ofNat]
    linarith
  have hnonneg : 0 ≤ (price.draw.val : ℚ) / 10 := by positivity
  have htenth : 0 ≤ float ((price.draw.val : ℚ) / 10) ∧
      float ((price.draw.val : ℚ) / 10) ≤ 100 := by
    constructor
    · exact_mod_cast natCast_le_roundBinary (n := 0) (by exact_mod_cast hnonneg)
        (hdraw.trans_lt (by norm_num))
    · rcases hnonneg.eq_or_lt with hzero | hpos
      · rw [← hzero, float, roundBinary, if_pos rfl]
        norm_num
      · exact_mod_cast roundBinary_le_natCast hpos hdraw (hdraw.trans_lt (by norm_num))
  have hsum : (100 + float ((price.draw.val : ℚ) / 10)) < 2 ^ 24 := by
    refine lt_of_le_of_lt (add_le_add_right htenth.2 100) (by norm_num)
  constructor
  · exact_mod_cast natCast_le_roundBinary (n := 100) (by push_cast; linarith) hsum
  · exact_mod_cast roundBinary_le_natCast (n := 200) (by linarith) (by push_cast; linarith) hsum

/-- Three digits before the point. -/
theorem digits_eq (price : Price) : ∃ whole fraction, price.digits = whole ++ '.' :: fraction ∧
    AllDigits whole ∧ whole.length = 3 ∧ AllDigits fraction := by
  obtain ⟨hlow, hhigh⟩ := price.value_bounds
  have hn : 100 * 10 ^ 6 ≤ roundHalfEven (|price.value| * 10 ^ 6) ∧
      roundHalfEven (|price.value| * 10 ^ 6) ≤ 200 * 10 ^ 6 := by
    rw [abs_of_nonneg (by linarith)]
    constructor
    · apply le_roundHalfEven
      push_cast
      linarith
    · apply roundHalfEven_le
      push_cast
      linarith
  rw [digits, putFixed, if_neg (by linarith), List.nil_append, fixed]
  generalize roundHalfEven (|price.value| * 10 ^ 6) = n at hn
  have hpad : pad 6 n.toNat ≠ [] := by
    rw [← List.length_pos_iff, length_pad]
    decide
  refine ⟨Nat.toDigits 10 (n.toNat / 10 ^ 6), pad 6 n.toNat, by rw [layout, if_neg hpad],
    allDigits_toDigits _, ?_, allDigits_pad _ _⟩
  have hthree : (Nat.toDigits 10 (n.toNat / 10 ^ 6)).length ≤ 3 :=
    (Nat.length_toDigits_le_iff (by decide) (by decide)).mpr (by omega)
  have htwo : ¬ (Nat.toDigits 10 (n.toNat / 10 ^ 6)).length ≤ 2 := fun h => by
    have := (Nat.length_toDigits_le_iff (by decide) (by decide)).mp h
    omega
  omega

/-- 100.1 in single precision. -/
example : digits ⟨⟨0, by decide⟩, 1⟩ = ['1', '0', '0', '.', '0', '9', '9', '9', '9', '8'] := by
  decide +kernel

/-- Fewer than three digits read as less than 100. -/
theorem three_le_length {price : Price} {rest other : Text} (hrest : rest <+: price.digits ++ other)
    (hread : stof rest = some price.value) : 3 ≤ rest.length := by
  by_contra hshort
  obtain ⟨whole, fraction, hdigits, hwhole, hlength, -⟩ := price.digits_eq
  rw [hdigits, List.append_assoc] at hrest
  have hprefix : rest <+: whole :=
    List.prefix_of_prefix_length_le hrest (List.prefix_append _ _) (by omega)
  have hall : AllDigits rest := hwhole.sublist hprefix.sublist
  by_cases hnil : rest = []
  · subst hnil
    cases hread
  · have hlt : Decimal.value rest < 10 ^ 2 :=
      (value_lt hall).trans_le (Nat.pow_le_pow_right (by decide) (by omega))
    rw [stof, stod_digits hall hnil, Option.map_some, float,
      roundBinary_natCast (hlt.trans (by norm_num))] at hread
    have hvalue : (Decimal.value rest : ℚ) < 100 := by exact_mod_cast hlt
    have hlow := price.value_bounds.1
    rw [← Option.some.inj hread] at hlow
    linarith

theorem numeralChar_message (price : Price) : ∀ c ∈ price.message, NumeralChar c ∨ c = ',' := by
  intro c hc
  rw [message] at hc
  rcases List.mem_append.mp hc with hid | hc
  · exact .inl (numeralChar_putInt _ c hid)
  · rcases List.mem_cons.mp hc with hcomma | hdigits
    · exact .inr hcomma
    · exact .inl (numeralChar_putFixed _ _ c hdigits)

end Price

theorem comma_not_mem {text : Text} (h : ∀ c ∈ text, NumeralChar c) : ',' ∉ text := by
  intro hmem
  rcases h ',' hmem with hdigit | hsign
  · cases hdigit
  · revert hsign
    decide

theorem comma_not_mem_putInt (i : Int) : ',' ∉ putInt i := comma_not_mem (numeralChar_putInt i)

theorem comma_not_mem_digits (price : Price) : ',' ∉ price.digits :=
  comma_not_mem (numeralChar_putFixed _ _)

theorem priceStream_cons (price : Price) (prices : List Price) :
    priceStream (price :: prices) =
      putInt price.id ++ ',' :: (price.digits ++ priceStream prices) := by
  rw [priceStream, List.flatMap_cons, Price.message, List.append_assoc, List.cons_append]
  rfl

theorem count_comma (prices : List Price) : (priceStream prices).count ',' = prices.length := by
  induction prices with
  | nil => rfl
  | cons price prices ih =>
      rw [priceStream_cons, List.count_append, List.count_cons_self, List.count_append, ih,
        List.count_eq_zero_of_not_mem (comma_not_mem_putInt _),
        List.count_eq_zero_of_not_mem (comma_not_mem_digits _), List.length_cons]
      omega

theorem nul_not_mem_priceStream (prices : List Price) : '\x00' ∉ priceStream prices := by
  intro hmem
  obtain ⟨price, -, hprice⟩ := List.mem_flatMap.mp hmem
  rcases price.numeralChar_message _ hprice with (hdigit | hsign) | hcomma
  · cases hdigit
  · revert hsign
    decide
  · revert hcomma
    decide

theorem cString_eq {text : Text} (h : '\x00' ∉ text) : cString text = text :=
  List.takeWhile_eq_self_iff.mpr fun c hc => by
    rw [decide_eq_true_eq]
    rintro rfl
    exact h hc

/-! ### What the client decodes -/

/-- The pair that a chunk with a comma is read as. -/
def decode (chunk : Text) : Option (Int × ℚ) := do
  let commaPos ← chunk.idxOf? ','
  let priceId ← stoi (chunk.take commaPos)
  let price ← stof (chunk.drop (commaPos + 1))
  return (priceId, price)

theorem idxOf_comma {before : Text} (h : ',' ∉ before) (after : Text) :
    (before ++ ',' :: after).idxOf? ',' = some before.length := by
  induction before with
  | nil => rfl
  | cons c before ih =>
      have hc : (c == ',') = false := by
        rw [beq_eq_false_iff_ne]
        rintro rfl
        exact h List.mem_cons_self
      rw [List.cons_append, List.idxOf?_cons, hc, if_neg Bool.false_ne_true,
        ih fun hmem => h (List.mem_cons_of_mem c hmem), List.length_cons, Option.map_some]

theorem decode_eq {before : Text} (h : ',' ∉ before) (after : Text) :
    decode (before ++ ',' :: after) =
      (do return (← stoi before, ← stof after) : Option (Int × ℚ)) := by
  rw [decode, idxOf_comma h]
  have hdrop : (before ++ ',' :: after).drop (before.length + 1) = after := by
    rw [← List.drop_drop, List.drop_left]
    rfl
  simp only [Option.bind_eq_bind, Option.bind_some, List.take_left, hdrop]

theorem decode_eq_some {before after : Text} (h : ',' ∉ before) {i : Int} {x : ℚ}
    (hdecode : decode (before ++ ',' :: after) = some (i, x)) :
    stoi before = some i ∧ stof after = some x := by
  rw [decode_eq h] at hdecode
  obtain ⟨j, hid, hrest⟩ := Option.bind_eq_some_iff.mp hdecode
  obtain ⟨y, hprice, hpair⟩ := Option.bind_eq_some_iff.mp hrest
  obtain ⟨rfl, rfl⟩ := Prod.mk.inj (Option.some.inj hpair)
  exact ⟨hid, hprice⟩

namespace Client

/-- A chunk is skipped, or adds the pair it is read as. -/
theorem receive_cases {chunk : Text} (hnul : '\x00' ∉ chunk) (client : Client) :
    (',' ∉ chunk ∧ client.receive chunk = some client) ∨
      (',' ∈ chunk ∧ decode chunk = none ∧ client.receive chunk = none) ∨
      (',' ∈ chunk ∧ ∃ pair client', decode chunk = some pair ∧
        client.receive chunk = some client' ∧ client'.decoded = client.decoded ++ [pair]) := by
  by_cases hcomma : ',' ∈ chunk
  · obtain ⟨before, after, rfl, hbefore⟩ := List.eq_append_cons_of_mem hcomma
    have hdrop : (before ++ ',' :: after).drop (before.length + 1) = after := by
      rw [← List.drop_drop, List.drop_left]
      rfl
    rw [decode_eq hbefore, receive, cString_eq hnul]
    simp only [idxOf_comma hbefore, List.take_left, hdrop]
    cases hid : stoi before with
    | none => exact .inr (.inl ⟨hcomma, rfl, rfl⟩)
    | some priceId =>
        cases hprice : stof (R := ℚ) after with
        | none => exact .inr (.inl ⟨hcomma, rfl, rfl⟩)
        | some price => exact .inr (.inr ⟨hcomma, _, _, rfl, rfl, rfl⟩)
  · refine .inl ⟨hcomma, ?_⟩
    rw [receive, cString_eq hnul]
    simp only [List.idxOf?_eq_none_iff.mpr hcomma]

/-- The pairs are those of the chunks with a comma, up to one that is not read. -/
theorem decoded_receiveAndRespond {chunks : List Text} (hnul : ∀ chunk ∈ chunks, '\x00' ∉ chunk)
    (client : Client) :
    ∃ pairs, (receiveAndRespond chunks client).decoded = client.decoded ++ pairs ∧
      ((holding ',' chunks).map decode = pairs.map some ∨
        pairs.length < (holding ',' chunks).length ∧ none ∈ (holding ',' chunks).map decode) := by
  induction chunks generalizing client with
  | nil => exact ⟨[], (List.append_nil _).symm, .inl rfl⟩
  | cons chunk chunks ih =>
      have hrest : ∀ chunk ∈ chunks, '\x00' ∉ chunk :=
        fun other hother => hnul other (List.mem_cons_of_mem chunk hother)
      rw [receiveAndRespond]
      rcases receive_cases (hnul chunk List.mem_cons_self) client with ⟨hcomma, hskip⟩ |
        ⟨hcomma, hnone, hend⟩ | ⟨hcomma, pair, client', hpair, hnext, hdecoded⟩
      · rw [hskip, holding_cons_of_not_mem hcomma]
        exact ih hrest client
      · rw [hend, holding_cons_of_mem hcomma, List.map_cons, hnone]
        exact ⟨[], (List.append_nil _).symm, .inr ⟨Nat.zero_lt_succ _, List.mem_cons_self⟩⟩
      · obtain ⟨pairs, hrun, hpairs⟩ := ih hrest client'
        rw [hnext, holding_cons_of_mem hcomma, List.map_cons, hpair]
        refine ⟨pair :: pairs, ?_, ?_⟩
        · rw [hrun, hdecoded, List.append_assoc, List.singleton_append]
        · rcases hpairs with hall | ⟨hlength, hnone⟩
          · exact .inl (by rw [hall, List.map_cons])
          · exact .inr ⟨Nat.succ_lt_succ hlength, List.mem_cons_of_mem _ hnone⟩

end Client

/-! ### Chunks that carry a price each -/

/-- What a carried price is read as. -/
def Price.pair (price : Price) : Int × ℚ := (price.id, price.value)

theorem Carries.decode {price : Price} {chunk : Text} (h : Carries price chunk) :
    decode chunk = some price.pair := by
  obtain ⟨zeros, rest, rfl, hzeros, hsign, -, hread⟩ := h
  have hcomma : ',' ∉ zeros ++ putInt price.id := by
    intro hmem
    rcases List.mem_append.mp hmem with hmem | hmem
    · cases hzeros ',' hmem
    · exact comma_not_mem_putInt _ hmem
  have hid : stoi (zeros ++ putInt price.id) = some price.id.val := by
    rw [stoi, readInt_zeros hzeros hsign]
    simp only [Option.bind_eq_bind, Option.bind_some, if_pos price.id.property]
    rfl
  rw [← List.append_assoc, decode_eq hcomma, hid, hread]
  rfl

/-- What lies between two commas: the rest of a price before the next id. A prefix of it that
reads as the price leaves no more than the fraction. -/
theorem suffix_after_price {price : Price} {id : Int} {rest before : Text}
    (hsplit : price.digits ++ putInt id = rest ++ before) (hread : stof rest = some price.value) :
    ∃ fraction, AllDigits fraction ∧ before <:+ '.' :: fraction ++ putInt id := by
  have hthree := price.three_le_length ⟨before, hsplit.symm⟩ hread
  obtain ⟨whole, fraction, hdigits, -, hlength, hfraction⟩ := price.digits_eq
  rw [hdigits, List.append_assoc] at hsplit
  refine ⟨fraction, hfraction, List.suffix_of_suffix_length_le ⟨rest, rfl⟩ ⟨whole, hsplit⟩ ?_⟩
  have htotal := congrArg List.length hsplit
  simp only [List.length_append, List.length_cons] at htotal ⊢
  omega

/-- As many pairs as prices, with one comma to a chunk, were read of chunks that carry them. The
induction is on the chunks; `before` is what the chunks so far have left of the text up to the
next comma. -/
theorem carries_of_decode {chunks : List Text} {price : Price} {prices : List Price}
    {before left fraction : Text}
    (hflatten : chunks.flatten = before ++ ',' :: (price.digits ++ priceStream prices))
    (hcomma : ',' ∉ before) (hbefore : before <:+ left ++ putInt price.id)
    (hleft : left <:+ '.' :: fraction) (hfraction : AllDigits fraction)
    (hcount : ∀ chunk ∈ chunks, chunk.count ',' ≤ 1)
    (hdecode : (holding ',' chunks).map decode = (price :: prices).map fun p => some p.pair) :
    List.Forall₂ Carries (price :: prices) (holding ',' chunks) ∧ putInt price.id <:+ before := by
  induction chunks generalizing price prices before left fraction with
  | nil => cases hdecode
  | cons chunk chunks ih =>
      have hrest : ∀ chunk ∈ chunks, chunk.count ',' ≤ 1 :=
        fun other hother => hcount other (List.mem_cons_of_mem chunk hother)
      rw [List.flatten_cons] at hflatten
      by_cases hmem : ',' ∈ chunk
      · obtain ⟨front, rest, rfl, hfront⟩ := List.eq_append_cons_of_mem hmem
        have hone := hcount _ List.mem_cons_self
        rw [List.count_append, List.count_cons_self] at hone
        have hrestComma : ',' ∉ rest := List.count_eq_zero.mp (by omega)
        rw [List.append_assoc, List.cons_append] at hflatten
        obtain ⟨rfl, hafter⟩ := append_sep_inj hfront hcomma hflatten
        rw [holding_cons_of_mem hmem, List.map_cons, List.map_cons] at hdecode
        obtain ⟨hpair, hpairs⟩ := List.cons.inj hdecode
        obtain ⟨hid, hprice⟩ := decode_eq_some hfront hpair
        obtain ⟨tail, hread⟩ := readInt_of_stoi hid
        obtain ⟨zeros, rfl, hzeros, hsign⟩ := zeros_of_readInt hbefore hleft hfraction hread
        have hcarries : rest <+: price.digits →
            Carries price (zeros ++ putInt price.id ++ ',' :: rest) := fun hprefix =>
          ⟨zeros, rest, List.append_assoc .., hzeros, hsign, hprefix, hprice⟩
        rw [holding_cons_of_mem hmem]
        refine ⟨?_, List.suffix_append _ _⟩
        cases prices with
        | nil =>
            have hprefix : rest <+: price.digits := by
              rw [priceStream, List.flatMap_nil, List.append_nil] at hafter
              exact ⟨_, hafter⟩
            rw [List.map_eq_nil_iff.mp hpairs]
            exact .cons (hcarries hprefix) .nil
        | cons next prices =>
            rw [priceStream_cons, ← List.append_assoc] at hafter
            obtain ⟨before, hsplit, hafter⟩ := append_before hrestComma hafter
            obtain ⟨fraction, hfraction, hsuffix⟩ := suffix_after_price hsplit hprice
            have hbeforeComma : ',' ∉ before := by
              intro hmem
              have hmem := hsplit ▸ List.mem_append_right rest hmem
              rcases List.mem_append.mp hmem with hmem | hmem
              · exact comma_not_mem_digits _ hmem
              · exact comma_not_mem_putInt _ hmem
            obtain ⟨hrestCarries, between, rfl⟩ :=
              ih hafter hbeforeComma hsuffix (List.suffix_refl _) hfraction hrest hpairs
            rw [← List.append_assoc] at hsplit
            exact .cons (hcarries ⟨between, (List.append_cancel_right hsplit).symm⟩) hrestCarries
      · obtain ⟨before, rfl, hafter⟩ := append_before hmem hflatten
        rw [holding_cons_of_not_mem hmem] at hdecode ⊢
        have hsuffix : before <:+ chunk ++ before := List.suffix_append chunk before
        obtain ⟨hcarries, hid⟩ := ih hafter (fun h => hcomma (List.mem_append_right chunk h))
          (hsuffix.trans hbefore) hleft hfraction hrest hdecode
        exact ⟨hcarries, hid.trans hsuffix⟩

theorem Segmentation.not_mem_chunk {stream : Text} (received : Segmentation stream) {c : Char}
    (h : c ∉ stream) : ∀ chunk ∈ received.chunks, c ∉ chunk := fun _ hchunk hc =>
  h (received.flatten_eq ▸ List.mem_flatten_of_mem hchunk hc)

theorem forall_carries_of_decode {prices : List Price}
    (received : Segmentation (priceStream prices))
    (hcount : ∀ chunk ∈ received.chunks, chunk.count ',' ≤ 1)
    (hdecode : (holding ',' received.chunks).map decode = prices.map fun p => some p.pair) :
    List.Forall₂ Carries prices (holding ',' received.chunks) := by
  cases prices with
  | nil =>
      rw [List.map_eq_nil_iff.mp hdecode]
      exact .nil
  | cons price prices =>
      have hflatten := received.flatten_eq.trans (priceStream_cons price prices)
      exact (carries_of_decode hflatten (comma_not_mem_putInt _) (List.suffix_refl _)
        List.nil_suffix (fun c hc => (List.not_mem_nil hc).elim) hcount hdecode).1

theorem map_decode_of_forall_carries {prices : List Price} {chunks : List Text}
    (h : List.Forall₂ Carries prices chunks) :
    chunks.map decode = prices.map fun p => some p.pair := by
  induction h with
  | nil => rfl
  | cons hcarries _ ih => rw [List.map_cons, List.map_cons, hcarries.decode, ih]

theorem decoded_iff {prices : List Price} (received : Segmentation (priceStream prices)) :
    (Client.start.receiveAndRespond received.chunks).decoded = prices.map Price.pair ↔
      List.Forall₂ Carries prices (holding ',' received.chunks) := by
  obtain ⟨pairs, hrun, hpairs⟩ := Client.decoded_receiveAndRespond
    (received.not_mem_chunk (nul_not_mem_priceStream prices)) .start
  have hdecoded : (Client.start.receiveAndRespond received.chunks).decoded = pairs := hrun
  have hcommas : received.chunks.flatten.count ',' = prices.length := by
    rw [received.flatten_eq, count_comma]
  rw [hdecoded]
  constructor
  · rintro rfl
    have hle := length_holding_le ',' received.chunks
    rcases hpairs with hall | ⟨hlength, -⟩
    · have hlength := congrArg List.length hall
      simp only [List.length_map] at hlength
      refine forall_carries_of_decode received (count_le_one (by omega)) ?_
      rw [hall, List.map_map]
      rfl
    · rw [List.length_map] at hlength
      omega
  · intro hcarries
    have hdecode := map_decode_of_forall_carries hcarries
    rcases hpairs with hall | ⟨-, hnone⟩
    · have hmap : pairs.map some = (prices.map Price.pair).map some := by
        rw [← hall, hdecode, List.map_map]
        rfl
      exact List.map_injective_iff.mpr (Option.some_injective _) hmap
    · rw [hdecode] at hnone
      obtain ⟨price, -, heq⟩ := List.mem_map.mp hnone
      cases heq

/-! ### What the server decodes -/

/-- No text that is shorter than its own is read as an id, except that none is read as 0. -/
theorem length_putInt_le_of_atoi {text : Text} {i : Int} (h : atoi text = some i) :
    (putInt i).length ≤ max 1 text.length := by
  rw [atoi] at h
  split at h
  · cases h
    exact Nat.le_max_left _ _
  · rename_i j rest hread
    split at h
    · cases h
      exact (length_putInt_le hread).trans (Nat.le_max_right _ _)
    · cases h

theorem atoi_putInt (id : PriceId) : atoi (putInt id) = some id.val := by
  have hread := readInt_putInt id.val noDigit_nil
  rw [List.append_nil] at hread
  rw [atoi, hread]
  exact if_pos id.property

theorem nul_not_mem_putInt (i : Int) : '\x00' ∉ putInt i := by
  intro hmem
  rcases numeralChar_putInt i _ hmem with hdigit | hsign
  · cases hdigit
  · revert hsign
    decide

theorem covers_of_atoi {chunks : List Text} {orders : List PriceId}
    (hne : ∀ chunk ∈ chunks, chunk ≠ [])
    (hids : chunks.map (fun chunk => atoi (cString chunk)) = orders.map fun id => some id.val) :
    Covers chunks (orders.map fun id => putInt id.val) := by
  induction chunks generalizing orders with
  | nil =>
      rw [List.map_eq_nil_iff.mp hids.symm]
      exact .nil
  | cons chunk chunks ih =>
      cases orders with
      | nil => cases hids
      | cons order orders =>
          obtain ⟨hid, hrest⟩ := List.cons.inj hids
          have hpos := List.length_pos_iff.mpr (hne chunk List.mem_cons_self)
          have hstring : (cString chunk).length ≤ chunk.length :=
            (List.takeWhile_sublist _).length_le
          have hlength := length_putInt_le_of_atoi hid
          have htail : ∀ chunk ∈ chunks, chunk ≠ [] :=
            fun other hother => hne other (List.mem_cons_of_mem chunk hother)
          exact .cons (hlength.trans (by omega)) (ih htail hrest)

theorem cString_append {before : Text} (h : '\x00' ∉ before) (after : Text) :
    cString (before ++ '\x00' :: after) = before := by
  have hall : ∀ c ∈ before, decide (c ≠ '\x00') = true := fun c hc =>
    decide_eq_true fun heq => h (heq ▸ hc)
  rw [cString, List.takeWhile_append_of_pos hall, List.takeWhile_cons_of_neg (by decide),
    List.append_nil]

/-- What is received for the name is the name, as no NUL stands behind it. -/
theorem eq_of_cString {first name after rest : Text} (hname : cString first = name)
    (hnul : '\x00' ∉ after) (hstream : first ++ rest = name ++ after) : first = name := by
  by_cases hmem : '\x00' ∈ first
  · obtain ⟨before, more, rfl, hbefore⟩ := List.eq_append_cons_of_mem hmem
    rw [cString_append hbefore] at hname
    subst hname
    rw [List.append_assoc] at hstream
    have hafter := List.append_cancel_left hstream
    exact absurd (hafter ▸ List.mem_cons_self) hnul
  · rw [← hname, cString_eq hmem]

theorem handleClient_iff {name : Text} {orders : List PriceId}
    (received : Segmentation (orderStream name orders)) :
    handleClient received.chunks = ⟨some name, orders.map fun id => some id.val⟩ ↔
      '\x00' ∉ name ∧ received.chunks = name :: orders.map fun id => putInt id.val := by
  obtain ⟨chunks, hflatten, hne, -⟩ := received
  have hnul : '\x00' ∉ orders.flatMap fun id => putInt id.val := by
    intro hmem
    obtain ⟨order, -, hmem⟩ := List.mem_flatMap.mp hmem
    exact nul_not_mem_putInt _ hmem
  dsimp only
  constructor
  · intro h
    cases chunks with
    | nil => cases h
    | cons first chunks =>
        rw [handleClient] at h
        obtain ⟨hname, hids⟩ := Session.mk.inj h
        have hname := Option.some.inj hname
        have hnoNul : '\x00' ∉ name := by
          intro hmem
          rw [← hname] at hmem
          simpa using List.mem_takeWhile_imp hmem
        obtain rfl := eq_of_cString hname hnul hflatten
        rw [List.flatten_cons, orderStream, List.flatMap_def] at hflatten
        have hcovers := covers_of_atoi (fun other h => hne other (List.mem_cons_of_mem _ h)) hids
        rw [hcovers.eq_of_flatten_eq (List.append_cancel_left hflatten)]
        exact ⟨hnoNul, rfl⟩
  · rintro ⟨hnoNul, rfl⟩
    rw [handleClient, cString_eq hnoNul, List.map_map]
    congr 1
    refine List.map_congr_left fun order _ => ?_
    rw [Function.comp_apply, cString_eq (nul_not_mem_putInt _), atoi_putInt]

/-! ### Both directions -/

/-- Whatever the prices and the segmentation of the stream, the client decodes them if and only
if the chunks with a comma carry one of them each; and whatever the name and the orders, the
server decodes them if and only if each is a chunk of its own. -/
theorem messages_survive_iff (prices : List Price) (toClient : Segmentation (priceStream prices))
    (name : Text) (orders : List PriceId) (toServer : Segmentation (orderStream name orders)) :
    ((Client.start.receiveAndRespond toClient.chunks).decoded = prices.map Price.pair ↔
        List.Forall₂ Carries prices (holding ',' toClient.chunks)) ∧
      (handleClient toServer.chunks = ⟨some name, orders.map fun id => some id.val⟩ ↔
        '\x00' ∉ name ∧ toServer.chunks = name :: orders.map fun id => putInt id.val) :=
  ⟨decoded_iff toClient, handleClient_iff toServer⟩

/-- Two prices in one chunk are taken for the first of them, and an order of two digits in two
chunks for two orders. -/
theorem messages_cut :
    let prices : List Price := [⟨⟨0, by decide⟩, 0⟩, ⟨⟨1, by decide⟩, 234⟩]
    let orders : List PriceId := [⟨12, by decide⟩]
    (∃ received : Segmentation (priceStream prices), received.chunks = [priceStream prices] ∧
        (Client.start.receiveAndRespond received.chunks).decoded = [(0, 100)] ∧
        (Client.start.receiveAndRespond received.chunks).decoded ≠ prices.map Price.pair) ∧
      ∃ received : Segmentation (orderStream ['a'] orders),
        received.chunks = [['a'], ['1'], ['2']] ∧
        handleClient received.chunks = ⟨some ['a'], [some 1, some 2]⟩ ∧
        handleClient received.chunks ≠ ⟨some ['a'], orders.map fun id => some id.val⟩ := by
  dsimp only
  constructor
  · refine ⟨⟨[_], List.flatten_singleton, ?_, ?_⟩, rfl, ?_, ?_⟩ <;> decide +kernel
  · refine ⟨⟨[['a'], ['1'], ['2']], rfl, by decide, by decide⟩, rfl, ?_, ?_⟩ <;> decide +kernel

end HftProject.Week2.Phase2
