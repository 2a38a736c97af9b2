import HftProject.Lib.Rounding
import Mathlib.Data.List.DropRight
import Mathlib.Data.List.TakeWhile
import Mathlib.Tactic.FieldSimp
import Mathlib.Tactic.Ring

/-!
Decimal numerals: the digits of a natural number, texts with a decimal point, and what is read
from the start of a text. Reading is exact; writing rounds to the nearest numeral.
-/

namespace HftProject.Decimal

open Rounding

/-! ### Digits -/

/-- The value of a list of digits. -/
def value (ds : List Char) : Nat := Nat.ofDigitChars 10 ds 0

/-- The last `k` digits of a number. -/
def pad : Nat → Nat → List Char
  | 0, _ => []
  | k + 1, n => pad k (n / 10) ++ [(n % 10).digitChar]

def AllDigits (ds : List Char) : Prop := ∀ c ∈ ds, c.isDigit = true

@[simp] theorem value_nil : value [] = 0 := rfl

theorem value_append (xs ys : List Char) :
    value (xs ++ ys) = value xs * 10 ^ ys.length + value ys := by
  rw [value, Nat.ofDigitChars_append, Nat.ofDigitChars_eq_ofDigitChars_zero, Nat.mul_comm]
  rfl

@[simp] theorem value_toDigits (n : Nat) : value (Nat.toDigits 10 n) = n :=
  Nat.ofDigitChars_ten_toDigits

theorem value_replicate_zero (k : Nat) : value (List.replicate k '0') = 0 := by
  rw [value, Nat.ofDigitChars_replicate_zero, Nat.mul_zero]

theorem value_digitChar {d : Nat} (h : d < 10) : value [d.digitChar] = d := by
  rw [value, Nat.ofDigitChars_cons_digitChar_of_lt_ten h, Nat.ofDigitChars_nil]
  omega

theorem allDigits_toDigits (n : Nat) : AllDigits (Nat.toDigits 10 n) :=
  fun _ hc => Nat.isDigit_of_mem_toDigits (by decide) (by decide) hc

theorem isDigit_digitChar {d : Nat} (h : d < 10) : d.digitChar.isDigit = true := by
  have hdigits := allDigits_toDigits d
  rw [Nat.toDigits_of_lt_base h] at hdigits
  exact hdigits _ List.mem_cons_self

theorem AllDigits.append {xs ys : List Char} (hx : AllDigits xs) (hy : AllDigits ys) :
    AllDigits (xs ++ ys) := by
  intro c hc
  rcases List.mem_append.mp hc with h | h
  · exact hx c h
  · exact hy c h

theorem AllDigits.sublist {xs ys : List Char} (hy : AllDigits ys) (h : xs.Sublist ys) :
    AllDigits xs := fun c hc => hy c (h.subset hc)

theorem value_lt {ds : List Char} (h : AllDigits ds) : value ds < 10 ^ ds.length := by
  induction ds using List.reverseRecOn with
  | nil => simp
  | append_singleton ds c ih =>
      have hinit := ih (h.sublist (List.sublist_append_left ds [c]))
      have hc : value [c] < 10 := by
        have hdigit := h c (List.mem_append_right ds List.mem_cons_self)
        simp only [Char.isDigit, Bool.and_eq_true, decide_eq_true_eq, ge_iff_le,
          UInt32.le_iff_toNat_le] at hdigit
        have hzero : '0'.toNat = 48 := rfl
        have hmax : '9'.val.toNat = 57 := rfl
        have htoNat : c.toNat = c.val.toNat := rfl
        rw [value, Nat.ofDigitChars_cons, Nat.ofDigitChars_nil]
        omega
      rw [value_append, List.length_append]
      simp only [List.length_cons, List.length_nil, Nat.pow_add]
      omega

theorem value_zeros {ds : List Char} (h : ∀ c ∈ ds, c = '0') : value ds = 0 := by
  rw [List.eq_replicate_of_mem h, value_replicate_zero]

theorem eq_zero_of_value {ds : List Char} (h : AllDigits ds) (hvalue : value ds = 0) :
    ∀ c ∈ ds, c = '0' := by
  induction ds using List.reverseRecOn with
  | nil =>
      intro c hc
      cases hc
  | append_singleton ds d ih =>
      rw [value_append, List.length_singleton] at hvalue
      have hinit := ih (h.sublist (List.sublist_append_left ds [d])) (by omega)
      have hd : d = '0' := by
        have hdigit := h d (List.mem_append_right ds List.mem_cons_self)
        have hlast : value [d] = 0 := by omega
        rw [value, Nat.ofDigitChars_cons, Nat.ofDigitChars_nil] at hlast
        simp only [Char.isDigit, Bool.and_eq_true, decide_eq_true_eq, ge_iff_le,
          UInt32.le_iff_toNat_le] at hdigit
        have hzero : '0'.toNat = 48 := rfl
        have hmin : '0'.val.toNat = 48 := rfl
        have htoNat : d.toNat = d.val.toNat := rfl
        exact Char.toNat_inj.mp (by omega)
      intro c hc
      rcases List.mem_append.mp hc with hc | hc
      · exact hinit c hc
      · rw [List.mem_singleton.mp hc, hd]

@[simp] theorem length_pad (k n : Nat) : (pad k n).length = k := by
  induction k generalizing n with
  | zero => rfl
  | succ k ih => rw [pad, List.length_append, ih, List.length_singleton]

theorem allDigits_pad (k n : Nat) : AllDigits (pad k n) := by
  induction k generalizing n with
  | zero =>
      intro c hc
      cases hc
  | succ k ih =>
      refine (ih (n / 10)).append fun c hc => ?_
      obtain rfl := List.mem_singleton.mp hc
      exact isDigit_digitChar (Nat.mod_lt n (by decide))

theorem value_pad (k n : Nat) : value (pad k n) = n % 10 ^ k := by
  induction k generalizing n with
  | zero => rw [pad, value_nil, Nat.pow_zero, Nat.mod_one]
  | succ k ih =>
      rw [pad, value_append, ih, value_digitChar (Nat.mod_lt n (by decide)), List.length_singleton,
        Nat.pow_one, Nat.pow_succ, Nat.mul_comm (10 ^ k) 10, Nat.mod_mul]
      omega

/-- The leading zeros do not count. -/
theorem length_toDigits_value_le {ds : List Char} (h : AllDigits ds) (hne : ds ≠ []) :
    (Nat.toDigits 10 (value ds)).length ≤ ds.length :=
  (Nat.length_toDigits_le_iff (by decide) (List.length_pos_iff.mpr hne)).mpr (value_lt h)

/-! ### Reading -/

/-- `(-1) ^ negative * significand * 10 ^ exponent` -/
structure Number where
  negative : Bool
  significand : Nat
  exponent : Int
deriving DecidableEq, Repr

def Number.toField {R : Type} [Field R] (x : Number) : R :=
  (if x.negative then -1 else 1) * x.significand * 10 ^ x.exponent

def readSign : List Char → Bool × List Char
  | '-' :: text => (true, text)
  | '+' :: text => (false, text)
  | text => (false, text)

/-- The digits at the start of a text, and the rest. -/
def readDigits (text : List Char) : List Char × List Char :=
  (text.takeWhile Char.isDigit, text.dropWhile Char.isDigit)

/-- The digits behind a decimal point. -/
def readFraction : List Char → List Char × List Char
  | '.' :: text => readDigits text
  | text => ([], text)

/-- What follows the letter of an exponent; without a digit it is none. -/
def readExponentDigits (text rest : List Char) : Int × List Char :=
  let (negative, text) := readSign text
  match readDigits text with
  | ([], _) => (0, rest)
  | (ds, rest) => (if negative then -value ds else value ds, rest)

def readExponent : List Char → Int × List Char
  | 'e' :: text => readExponentDigits text ('e' :: text)
  | 'E' :: text => readExponentDigits text ('E' :: text)
  | text => (0, text)

/-- The number at the start of a text, and the rest. Hexadecimal numbers, infinities and NaNs
are not read. -/
def readNumber (text : List Char) : Option (Number × List Char) :=
  let (negative, text) := readSign text
  let (whole, text) := readDigits text
  let (fraction, text) := readFraction text
  if whole = [] ∧ fraction = [] then none
  else
    let (exponent, rest) := readExponent text
    some (⟨negative, value (whole ++ fraction), exponent - fraction.length⟩, rest)

/-- The text does not go on with a digit. -/
def NoDigit (text : List Char) : Prop := ∀ c ∈ text.head?, c.isDigit = false

theorem noDigit_nil : NoDigit [] := by
  rintro c ⟨⟩

theorem readDigits_append {ds rest : List Char} (h : AllDigits ds) (hrest : NoDigit rest) :
    readDigits (ds ++ rest) = (ds, rest) := by
  rw [readDigits, List.takeWhile_append_of_pos h, List.dropWhile_append_of_pos h]
  cases rest with
  | nil => simp
  | cons c rest =>
      have hc : ¬ c.isDigit = true := by simp [hrest c rfl]
      rw [List.takeWhile_cons_of_neg hc, List.dropWhile_cons_of_neg hc, List.append_nil]

theorem readSign_of_digit {c : Char} (h : c.isDigit = true) (text : List Char) :
    readSign (c :: text) = (false, c :: text) := by
  rw [readSign]
  · rintro rest heq
    cases heq
    exact absurd h (by decide)
  · rintro rest heq
    cases heq
    exact absurd h (by decide)

/-! ### Whole numbers behind white space -/

/-- `isspace` -/
def isSpace (c : Char) : Bool := c ∈ [' ', '\t', '\n', '\x0b', '\x0c', '\r']

/-- The whole number at the start of a text, and the rest. -/
def readInt (text : List Char) : Option (Int × List Char) :=
  let (negative, text) := readSign (text.dropWhile isSpace)
  match readDigits text with
  | ([], _) => none
  | (ds, rest) => some (if negative then -value ds else value ds, rest)

theorem not_isDigit_of_isSpace {c : Char} (h : isSpace c = true) : c.isDigit = false := by
  have hmem : c ∈ [' ', '\t', '\n', '\x0b', '\x0c', '\r'] := by simpa [isSpace] using h
  simp only [List.mem_cons, List.not_mem_nil, or_false] at hmem
  rcases hmem with rfl | rfl | rfl | rfl | rfl | rfl <;> rfl

theorem readSign_sign {c : Char} (h : c.isDigit = true) (negative : Bool) (text : List Char) :
    readSign ((if negative then ['-'] else []) ++ c :: text) = (negative, c :: text) := by
  cases negative with
  | false => exact readSign_of_digit h text
  | true => rfl

theorem dropWhile_isSpace_sign {c : Char} (h : c.isDigit = true) (negative : Bool)
    (text : List Char) :
    ((if negative then ['-'] else []) ++ c :: text).dropWhile isSpace =
      (if negative then ['-'] else []) ++ c :: text := by
  cases negative with
  | false =>
      refine List.dropWhile_cons_of_neg fun hspace => ?_
      rw [not_isDigit_of_isSpace hspace] at h
      cases h
  | true => rfl

theorem readInt_digits (negative : Bool) {ds : List Char} (h : AllDigits ds) (hne : ds ≠ [])
    {rest : List Char} (hrest : NoDigit rest) :
    readInt ((if negative then ['-'] else []) ++ (ds ++ rest)) =
      some (if negative then -(value ds : Int) else value ds, rest) := by
  obtain ⟨c, cs, rfl⟩ := List.exists_cons_of_ne_nil hne
  have hc := h c List.mem_cons_self
  have hread := readDigits_append h hrest
  rw [List.cons_append] at hread ⊢
  rw [readInt, dropWhile_isSpace_sign hc, readSign_sign hc]
  simp only [hread]

/-! ### Numerals with a point -/

/-- The parts of a numeral with a point, unless there is no fraction. -/
def layout (whole fraction : List Char) : List Char :=
  if fraction = [] then whole else whole ++ '.' :: fraction

/-- What ends a numeral without an exponent. -/
def EndsFraction (rest : List Char) : Prop := ∀ c ∈ rest.head?, c.isDigit = false ∧ c ≠ '.'

theorem EndsFraction.noDigit {rest : List Char} (h : EndsFraction rest) : NoDigit rest :=
  fun c hc => (h c hc).1

theorem readFraction_append {fraction rest : List Char} (h : AllDigits fraction)
    (hrest : EndsFraction rest) :
    readFraction ((if fraction = [] then [] else '.' :: fraction) ++ rest) = (fraction, rest) := by
  split
  · rename_i hnil
    rw [List.nil_append, hnil, readFraction]
    rintro text rfl
    exact (hrest '.' rfl).2 rfl
  · rw [List.cons_append, readFraction, readDigits_append h hrest.noDigit]

theorem readNumber_layout {whole fraction rest : List Char} (negative : Bool)
    (hwhole : AllDigits whole) (hne : whole ≠ []) (hfraction : AllDigits fraction)
    (hrest : EndsFraction rest) :
    readNumber ((if negative then ['-'] else []) ++ (layout whole fraction ++ rest)) =
      some (⟨negative, value (whole ++ fraction), (readExponent rest).1 - fraction.length⟩,
        (readExponent rest).2) := by
  obtain ⟨c, cs, rfl⟩ := List.exists_cons_of_ne_nil hne
  have hlayout : ∃ text, layout (c :: cs) fraction ++ rest = c :: text := by
    rw [layout]
    split
    · exact ⟨_, rfl⟩
    · exact ⟨_, rfl⟩
  have hsign : readSign ((if negative then ['-'] else []) ++ (layout (c :: cs) fraction ++ rest)) =
      (negative, layout (c :: cs) fraction ++ rest) := by
    obtain ⟨text, htext⟩ := hlayout
    rw [htext]
    exact readSign_sign (hwhole c List.mem_cons_self) negative text
  have htail : layout (c :: cs) fraction ++ rest =
      (c :: cs) ++ ((if fraction = [] then [] else '.' :: fraction) ++ rest) := by
    rw [layout]
    split
    · rfl
    · rw [List.append_assoc]
  have hpoint : NoDigit ((if fraction = [] then [] else '.' :: fraction) ++ rest) := by
    split
    · exact hrest.noDigit
    · intro d hd
      cases hd
      rfl
  simp only [readNumber, hsign]
  rw [htail, readDigits_append hwhole hpoint]
  simp only [readFraction_append hfraction hrest]
  rw [if_neg (by simp)]

/-- What ends a numeral. -/
def EndsNumber (rest : List Char) : Prop :=
  ∀ c ∈ rest.head?, c.isDigit = false ∧ c ≠ '.' ∧ c ≠ 'e' ∧ c ≠ 'E'

theorem endsNumber_nil : EndsNumber [] := by
  rintro c ⟨⟩

theorem EndsNumber.endsFraction {rest : List Char} (h : EndsNumber rest) : EndsFraction rest :=
  fun c hc => ⟨(h c hc).1, (h c hc).2.1⟩

theorem EndsNumber.readExponent {rest : List Char} (h : EndsNumber rest) :
    readExponent rest = (0, rest) := by
  rw [Decimal.readExponent]
  · rintro text rfl
    exact (h 'e' rfl).2.2.1 rfl
  · rintro text rfl
    exact (h 'E' rfl).2.2.2 rfl

/-! ### Writing with a fixed number of decimals -/

/-- The numeral of `n / 10 ^ decimals`. -/
def fixed (decimals n : Nat) : List Char :=
  layout (Nat.toDigits 10 (n / 10 ^ decimals)) (pad decimals n)

theorem readNumber_fixed (decimals n : Nat) (negative : Bool) {rest : List Char}
    (hrest : EndsNumber rest) :
    readNumber ((if negative then ['-'] else []) ++ (fixed decimals n ++ rest)) =
      some (⟨negative, n, -decimals⟩, rest) := by
  rw [fixed, readNumber_layout negative (allDigits_toDigits _) Nat.toDigits_ne_nil
    (allDigits_pad decimals n) hrest.endsFraction, hrest.readExponent, value_append, length_pad,
    value_toDigits, value_pad, Nat.div_add_mod', Int.zero_sub]

/-! ### Writing six significant digits -/

/-- Trailing zeros are dropped. -/
def stripZeros (ds : List Char) : List Char := ds.rdropWhile (· == '0')

theorem stripZeros_append (ds : List Char) : ∃ k, ds = stripZeros ds ++ List.replicate k '0' := by
  refine ⟨(ds.rtakeWhile (· == '0')).length, ?_⟩
  have hzeros : ds.rtakeWhile (· == '0') = List.replicate (ds.rtakeWhile (· == '0')).length '0' :=
    List.eq_replicate_of_mem fun c hc => by simpa using List.mem_rtakeWhile_imp hc
  rw [← hzeros, stripZeros, List.rdropWhile_append_rtakeWhile]

/-- At least two digits. -/
def exponentDigits (n : Nat) : List Char :=
  if n < 10 then '0' :: Nat.toDigits 10 n else Nat.toDigits 10 n

def putExponent (e : Int) : List Char :=
  'e' :: (if e < 0 then '-' else '+') :: exponentDigits e.natAbs

theorem allDigits_exponentDigits (n : Nat) : AllDigits (exponentDigits n) := by
  rw [exponentDigits]
  split
  · intro c hc
    rcases List.mem_cons.mp hc with rfl | hc
    · rfl
    · exact allDigits_toDigits n c hc
  · exact allDigits_toDigits n

theorem value_exponentDigits (n : Nat) : value (exponentDigits n) = n := by
  rw [exponentDigits]
  split
  · rw [show '0' :: Nat.toDigits 10 n = ['0'] ++ Nat.toDigits 10 n from rfl, value_append,
      value_toDigits, show value ['0'] = 0 from rfl, Nat.zero_mul, Nat.zero_add]
  · exact value_toDigits n

theorem exponentDigits_ne_nil (n : Nat) : exponentDigits n ≠ [] := by
  rw [exponentDigits]
  split
  · exact List.cons_ne_nil _ _
  · exact Nat.toDigits_ne_nil

theorem readExponentDigits_put (negative : Bool) (n : Nat) {rest : List Char} (hrest : NoDigit rest)
    (other : List Char) :
    readExponentDigits ((if negative then '-' else '+') :: (exponentDigits n ++ rest)) other =
      (if negative then -(n : Int) else n, rest) := by
  have hsign : readSign ((if negative then '-' else '+') :: (exponentDigits n ++ rest)) =
      (negative, exponentDigits n ++ rest) := by
    cases negative <;> rfl
  rw [readExponentDigits, hsign]
  simp only [readDigits_append (allDigits_exponentDigits n) hrest]
  split
  · rename_i heq
    exact absurd (Prod.mk.inj heq).1 (exponentDigits_ne_nil n)
  · rename_i heq
    obtain ⟨rfl, rfl⟩ := Prod.mk.inj heq
    rw [value_exponentDigits]

theorem readExponent_put (e : Int) {rest : List Char} (hrest : NoDigit rest) :
    readExponent (putExponent e ++ rest) = (e, rest) := by
  have hput := readExponentDigits_put (decide (e < 0)) e.natAbs hrest
  simp only [decide_eq_true_eq] at hput
  rw [putExponent, List.cons_append, List.cons_append, readExponent, hput]
  congr 1
  split <;> omega

/-- The numeral of `m * 10 ^ (e - 5)` for `m` of six digits: the point stands behind the first
digit if `e` is less than -4 or greater than 5. -/
def general (m : Nat) (e : Int) : List Char :=
  if e < -4 ∨ 6 ≤ e then layout ((pad 6 m).take 1) (stripZeros ((pad 6 m).drop 1)) ++ putExponent e
  else if e < 0 then
    layout ['0'] (stripZeros (List.replicate (e.natAbs - 1) '0' ++ pad 6 m))
  else layout ((pad 6 m).take (e.natAbs + 1)) (stripZeros ((pad 6 m).drop (e.natAbs + 1)))

section Field

variable {R : Type} [Field R] [LinearOrder R] [IsStrictOrderedRing R] [FloorRing R]

omit [IsStrictOrderedRing R] in
/-- Trailing zeros do not change the number. -/
theorem toField_stripZeros (negative : Bool) (whole ds : List Char) (e : Int) :
    (⟨negative, value (whole ++ stripZeros ds), e - (stripZeros ds).length⟩ : Number).toField =
      (⟨negative, value (whole ++ ds), e - ds.length⟩ : Number).toField (R := R) := by
  obtain ⟨k, hk⟩ := stripZeros_append ds
  have hvalue : value (whole ++ ds) = value (whole ++ stripZeros ds) * 10 ^ k := by
    nth_rewrite 1 [hk]
    rw [← List.append_assoc, value_append, value_replicate_zero, List.length_replicate,
      Nat.add_zero]
  have hlength : ds.length = (stripZeros ds).length + k := by
    nth_rewrite 1 [hk]
    rw [List.length_append, List.length_replicate]
  have hten : (10 : R) ≠ 0 := by norm_num
  simp only [Number.toField]
  rw [hvalue, hlength, show e - ((stripZeros ds).length : Int) =
    (e - ((stripZeros ds).length + k : Nat)) + k by push_cast; ring, zpow_add₀ hten, zpow_natCast]
  push_cast
  ring

/-- The significand and the exponent of a number greater than 0 at six significant digits. -/
def scientific (x : R) : Nat × Int :=
  let e := Int.log 10 x
  let m := (roundHalfEven (x / 10 ^ (e - 5))).toNat
  if m = 10 ^ 6 then (10 ^ 5, e + 1) else (m, e)

/-- The number that six significant digits show. -/
def shown (x : R) : R :=
  if x = 0 then 0
  else (if x < 0 then -1 else 1) * (scientific |x|).1 * 10 ^ ((scientific |x|).2 - 5)

def putGeneral (x : R) : List Char :=
  if x = 0 then ['0']
  else (if x < 0 then ['-'] else []) ++ general (scientific |x|).1 (scientific |x|).2

def putFixed (decimals : Nat) (x : R) : List Char :=
  (if x < 0 then ['-'] else []) ++ fixed decimals (roundHalfEven (|x| * 10 ^ decimals)).toNat

omit [IsStrictOrderedRing R] in
theorem readNumber_stripZeros {whole ds rest : List Char} (negative : Bool)
    (hwhole : AllDigits whole) (hne : whole ≠ []) (hds : AllDigits ds)
    (hrest : EndsFraction rest) :
    ∃ d, readNumber ((if negative then ['-'] else []) ++ (layout whole (stripZeros ds) ++ rest)) =
        some (d, (readExponent rest).2) ∧
      d.toField = (⟨negative, value (whole ++ ds), (readExponent rest).1 - ds.length⟩ :
        Number).toField (R := R) :=
  ⟨_, readNumber_layout negative hwhole hne
    (hds.sublist (List.rdropWhile_prefix _ _).sublist) hrest, toField_stripZeros ..⟩

omit [IsStrictOrderedRing R] in
theorem readNumber_general {m : Nat} (hm : m < 10 ^ 6) (e : Int) (negative : Bool)
    {rest : List Char} (hrest : EndsNumber rest) :
    ∃ d, readNumber ((if negative then ['-'] else []) ++ (general m e ++ rest)) = some (d, rest) ∧
      d.toField = (⟨negative, m, e - 5⟩ : Number).toField (R := R) := by
  have hdigits := allDigits_pad 6 m
  have hlength := length_pad 6 m
  have hvalue : value (pad 6 m) = m := by rw [value_pad, Nat.mod_eq_of_lt hm]
  have htake : ∀ k, AllDigits ((pad 6 m).take (k + 1)) ∧ (pad 6 m).take (k + 1) ≠ [] := fun k =>
    ⟨hdigits.sublist (List.take_sublist _ _), by rw [← List.length_pos_iff]; simp⟩
  have hdrop : ∀ k, AllDigits ((pad 6 m).drop k) := fun k =>
    hdigits.sublist (List.drop_sublist k _)
  by_cases hexponent : e < -4 ∨ 6 ≤ e
  · have hletter : EndsFraction (putExponent e ++ rest) := by
      intro c hc
      cases hc
      decide
    obtain ⟨d, hread, hd⟩ := readNumber_stripZeros (R := R) negative (htake 0).1 (htake 0).2
      (hdrop 1) hletter
    rw [readExponent_put e hrest.endsFraction.noDigit] at hread hd
    refine ⟨d, ?_, ?_⟩
    · rw [general, if_pos hexponent, List.append_assoc]
      exact hread
    · rw [hd, Nat.zero_add, List.take_append_drop, hvalue, List.length_drop, hlength]
      rfl
  · rw [general, if_neg hexponent]
    by_cases hsmall : e < 0
    · have hzero : AllDigits ['0'] := by
        intro c hc
        obtain rfl := List.mem_singleton.mp hc
        rfl
      have hzeros : AllDigits (List.replicate (e.natAbs - 1) '0' ++ pad 6 m) := by
        refine AllDigits.append (fun c hc => ?_) hdigits
        rw [(List.mem_replicate.mp hc).2]
        rfl
      obtain ⟨d, hread, hd⟩ := readNumber_stripZeros (R := R) negative hzero (List.cons_ne_nil _ _)
        hzeros hrest.endsFraction
      rw [hrest.readExponent] at hread hd
      refine ⟨d, ?_, ?_⟩
      · rw [if_pos hsmall]
        exact hread
      · rw [hd, value_append, value_append, value_replicate_zero, hvalue, List.length_append,
          List.length_replicate, hlength, show value ['0'] = 0 from rfl, Nat.zero_mul,
          Nat.zero_add, Nat.zero_mul, Nat.zero_add]
        congr 2
        omega
    · obtain ⟨d, hread, hd⟩ := readNumber_stripZeros (R := R) negative (htake e.natAbs).1
        (htake e.natAbs).2 (hdrop (e.natAbs + 1)) hrest.endsFraction
      rw [hrest.readExponent] at hread hd
      refine ⟨d, ?_, ?_⟩
      · rw [if_neg hsmall]
        exact hread
      · rw [hd, List.take_append_drop, hvalue, List.length_drop, hlength]
        congr 2
        omega

/-! ### The number that is shown -/

/-- Six digits, the first of which counts units of `10 ^ log x`. -/
theorem scientific_cases {x : R} (hx : 0 < x) :
    let e := Int.log 10 x
    let m := roundHalfEven (x / 10 ^ (e - 5))
    (10 ^ 5 ≤ m ∧ m ≤ 10 ^ 6) ∧
      ((m = 10 ^ 6 ∧ scientific x = (10 ^ 5, e + 1)) ∨
        (m < 10 ^ 6 ∧ scientific x = (m.toNat, e))) := by
  intro e m
  have hunit : (0 : R) < 10 ^ (e - 5) := zpow_pos (by norm_num) _
  have hten : (10 : R) ≠ 0 := by norm_num
  have hlow : ((10 ^ 5 : Int) : R) ≤ x / 10 ^ (e - 5) := by
    have h := Int.zpow_log_le_self (b := 10) (by norm_num) hx
    rw [le_div_iff₀ hunit]
    calc ((10 ^ 5 : Int) : R) * 10 ^ (e - 5) = 10 ^ (5 + (e - 5)) := by
          rw [zpow_add₀ hten]
          norm_num
      _ = ((10 : Nat) : R) ^ e := by rw [add_sub_cancel, Nat.cast_ofNat]
      _ ≤ x := h
  have hhigh : x / 10 ^ (e - 5) ≤ ((10 ^ 6 : Int) : R) := by
    have h := Int.lt_zpow_succ_log_self (b := 10) (by norm_num) x
    rw [div_le_iff₀ hunit]
    calc x ≤ ((10 : Nat) : R) ^ (e + 1) := h.le
      _ = 10 ^ (6 + (e - 5)) := by rw [Nat.cast_ofNat, show 6 + (e - 5) = e + 1 by ring]
      _ = ((10 ^ 6 : Int) : R) * 10 ^ (e - 5) := by
          rw [zpow_add₀ hten]
          norm_num
  have hm : 10 ^ 5 ≤ m ∧ m ≤ 10 ^ 6 := ⟨le_roundHalfEven hlow, roundHalfEven_le hhigh⟩
  refine ⟨hm, ?_⟩
  rcases hm.2.eq_or_lt with heq | hlt
  · refine .inl ⟨heq, ?_⟩
    rw [scientific, if_pos]
    change m.toNat = 10 ^ 6
    omega
  · refine .inr ⟨hlt, ?_⟩
    rw [scientific, if_neg]
    change ¬ m.toNat = 10 ^ 6
    omega

theorem scientific_lt {x : R} (hx : 0 < x) : (scientific x).1 < 10 ^ 6 := by
  obtain ⟨⟨-, -⟩, ⟨-, heq⟩ | ⟨hlt, heq⟩⟩ := scientific_cases hx
  · rw [heq]
    norm_num
  · rw [heq]
    change Int.toNat _ < _
    omega

/-- What is shown is the number, rounded to a multiple of `10 ^ (log x - 5)`. -/
theorem shown_eq {x : R} (hx : 0 < x) :
    shown x = roundHalfEven (x / 10 ^ (Int.log 10 x - 5)) * 10 ^ (Int.log 10 x - 5) := by
  have hten : (10 : R) ≠ 0 := by norm_num
  rw [shown, if_neg hx.ne', if_neg hx.not_gt, abs_of_pos hx, one_mul]
  obtain ⟨⟨hlow, -⟩, ⟨hm, heq⟩ | ⟨hm, heq⟩⟩ := scientific_cases hx
  · rw [heq, hm, show Int.log 10 x + 1 - 5 = 1 + (Int.log 10 x - 5) by ring, zpow_add₀ hten]
    push_cast
    ring
  · rw [heq]
    congr 1
    rw [← Int.cast_natCast, Int.toNat_of_nonneg (by omega)]

theorem abs_sub_shown_le {x : R} (hx : 0 < x) :
    |x - shown x| ≤ 1 / 2 * 10 ^ (Int.log 10 x - 5) := by
  have hunit : (0 : R) < 10 ^ (Int.log 10 x - 5) := zpow_pos (by norm_num) _
  have hround := abs_sub_roundHalfEven_le (x / 10 ^ (Int.log 10 x - 5))
  calc |x - shown x|
      = |(x / 10 ^ (Int.log 10 x - 5) - roundHalfEven (x / 10 ^ (Int.log 10 x - 5))) *
          10 ^ (Int.log 10 x - 5)| := by
        rw [shown_eq hx, sub_mul, div_mul_cancel₀ _ hunit.ne']
    _ ≤ 1 / 2 * 10 ^ (Int.log 10 x - 5) := by
        rw [abs_mul, abs_of_pos hunit]
        exact mul_le_mul_of_nonneg_right hround hunit.le

theorem shown_nonneg {x : R} (hx : 0 < x) : 0 ≤ shown x := by
  have hunit : (0 : R) < 10 ^ (Int.log 10 x - 5) := zpow_pos (by norm_num) _
  have hround : (0 : Int) ≤ roundHalfEven (x / 10 ^ (Int.log 10 x - 5)) := by
    apply le_roundHalfEven
    rw [Int.cast_zero]
    exact (div_pos hx hunit).le
  rw [shown_eq hx]
  exact mul_nonneg (by exact_mod_cast hround) hunit.le

/-- How many decimals are left. -/
theorem shown_mul {x : R} (hx : 0 < x) {decimals : Nat} (h : 5 ≤ Int.log 10 x + decimals) :
    ∃ n : Int, shown x * 10 ^ decimals = n := by
  obtain ⟨k, hk⟩ := Int.le.dest h
  refine ⟨roundHalfEven (x / 10 ^ (Int.log 10 x - 5)) * 10 ^ k, ?_⟩
  have hten : (10 : R) ≠ 0 := by norm_num
  have hunit : (10 : R) ^ (Int.log 10 x - 5) * 10 ^ decimals = 10 ^ k := by
    rw [← zpow_natCast, ← zpow_natCast, ← zpow_add₀ hten]
    congr 1
    omega
  rw [shown_eq hx, mul_assoc, hunit]
  push_cast
  rfl

/-- A number that is written with six significant digits is read as the one shown. -/
theorem readNumber_putGeneral (x : R) {rest : List Char} (hrest : EndsNumber rest) :
    ∃ d, readNumber (putGeneral x ++ rest) = some (d, rest) ∧ d.toField = shown x := by
  by_cases hx : x = 0
  · refine ⟨⟨false, 0, 0⟩, ?_, ?_⟩
    · have hread := readNumber_fixed 0 0 false hrest
      rw [putGeneral, if_pos hx]
      exact hread
    · simp [Number.toField, shown, hx]
  · obtain ⟨d, hread, hd⟩ := readNumber_general (R := R) (scientific_lt (abs_pos.mpr hx))
      (scientific |x|).2 (decide (x < 0)) hrest
    simp only [decide_eq_true_eq] at hread
    refine ⟨d, ?_, ?_⟩
    · rw [putGeneral, if_neg hx, List.append_assoc]
      exact hread
    · rw [hd, shown, if_neg hx, Number.toField]
      simp only [decide_eq_true_eq]

omit [IsStrictOrderedRing R] in
theorem readNumber_putFixed (decimals : Nat) (x : R) {rest : List Char} (hrest : EndsNumber rest) :
    ∃ d, readNumber (putFixed decimals x ++ rest) = some (d, rest) ∧
      d.toField = (if x < 0 then -1 else 1) *
        ((roundHalfEven (|x| * 10 ^ decimals)).toNat : R) * (10 ^ decimals)⁻¹ := by
  have hread := readNumber_fixed decimals (roundHalfEven (|x| * 10 ^ decimals)).toNat
    (decide (x < 0)) hrest
  simp only [decide_eq_true_eq] at hread
  refine ⟨⟨decide (x < 0), (roundHalfEven (|x| * 10 ^ decimals)).toNat, -decimals⟩, ?_, ?_⟩
  · rw [putFixed, List.append_assoc]
    exact hread
  · rw [Number.toField, zpow_neg, zpow_natCast]
    simp only [decide_eq_true_eq]

/-- A number with so many decimals is read as it was written. -/
theorem readNumber_putFixed_exact {decimals : Nat} {x : R} (hx : 0 ≤ x) {n : Int}
    (hn : x * 10 ^ decimals = n) {rest : List Char} (hrest : EndsNumber rest) :
    ∃ d, readNumber (putFixed decimals x ++ rest) = some (d, rest) ∧ d.toField = x := by
  obtain ⟨d, hread, hd⟩ := readNumber_putFixed decimals x hrest
  refine ⟨d, hread, ?_⟩
  have hpow : (0 : R) < 10 ^ decimals := by positivity
  have hn0 : 0 ≤ n := by
    have : (0 : R) ≤ n := hn ▸ mul_nonneg hx hpow.le
    exact_mod_cast this
  rw [hd, if_neg hx.not_gt, abs_of_nonneg hx, hn, roundHalfEven_intCast, ← Int.cast_natCast,
    Int.toNat_of_nonneg hn0, ← hn, one_mul, mul_assoc, mul_inv_cancel₀ hpow.ne', mul_one]

end Field

/-! ### The characters of a numeral -/

def NumeralChar (c : Char) : Prop := c.isDigit = true ∨ c ∈ ['.', '-', '+', 'e']

theorem AllDigits.numeralChar {ds : List Char} (h : AllDigits ds) : ∀ c ∈ ds, NumeralChar c :=
  fun c hc => .inl (h c hc)

theorem numeralChar_append {xs ys : List Char} (hx : ∀ c ∈ xs, NumeralChar c)
    (hy : ∀ c ∈ ys, NumeralChar c) : ∀ c ∈ xs ++ ys, NumeralChar c := by
  intro c hc
  rcases List.mem_append.mp hc with h | h
  · exact hx c h
  · exact hy c h

theorem numeralChar_layout {whole fraction : List Char} (hwhole : AllDigits whole)
    (hfraction : AllDigits fraction) : ∀ c ∈ layout whole fraction, NumeralChar c := by
  rw [layout]
  split
  · exact hwhole.numeralChar
  · refine numeralChar_append hwhole.numeralChar fun c hc => ?_
    rcases List.mem_cons.mp hc with rfl | hc
    · exact .inr (by decide)
    · exact hfraction.numeralChar c hc

theorem numeralChar_putExponent (e : Int) : ∀ c ∈ putExponent e, NumeralChar c := by
  intro c hc
  rw [putExponent] at hc
  rcases List.mem_cons.mp hc with rfl | hc
  · exact .inr (by decide)
  · rcases List.mem_cons.mp hc with rfl | hc
    · split
      · exact .inr (by decide)
      · exact .inr (by decide)
    · exact (allDigits_exponentDigits _).numeralChar c hc

theorem numeralChar_general (m : Nat) (e : Int) : ∀ c ∈ general m e, NumeralChar c := by
  have hdigits := allDigits_pad 6 m
  have hstrip : ∀ ds : List Char, AllDigits ds → AllDigits (stripZeros ds) := fun ds h =>
    h.sublist (List.rdropWhile_prefix _ _).sublist
  have hzeros : ∀ k, AllDigits (List.replicate k '0') := by
    intro k c hc
    rw [(List.mem_replicate.mp hc).2]
    rfl
  rw [general]
  split
  · exact numeralChar_append (numeralChar_layout (hdigits.sublist (List.take_sublist _ _))
      (hstrip _ (hdigits.sublist (List.drop_sublist _ _)))) (numeralChar_putExponent e)
  · split
    · exact numeralChar_layout (hzeros 1) (hstrip _ ((hzeros _).append hdigits))
    · exact numeralChar_layout (hdigits.sublist (List.take_sublist _ _))
        (hstrip _ (hdigits.sublist (List.drop_sublist _ _)))

theorem numeralChar_sign (negative : Prop) [Decidable negative] :
    ∀ c ∈ (if negative then ['-'] else []), NumeralChar c := by
  intro c hc
  split at hc
  · obtain rfl := List.mem_singleton.mp hc
    exact .inr (by decide)
  · cases hc

theorem layout_ne_nil {whole : List Char} (h : whole ≠ []) (fraction : List Char) :
    layout whole fraction ≠ [] := by
  rw [layout]
  split
  · exact h
  · exact List.append_ne_nil_of_left_ne_nil h _

theorem general_ne_nil (m : Nat) (e : Int) : general m e ≠ [] := by
  have htake : ∀ k, (pad 6 m).take (k + 1) ≠ [] := fun k => by
    rw [← List.length_pos_iff]
    simp
  rw [general]
  split
  · exact List.append_ne_nil_of_left_ne_nil (layout_ne_nil (htake 0) _) _
  · split
    · exact layout_ne_nil (List.cons_ne_nil _ _) _
    · exact layout_ne_nil (htake _) _

section Field

variable {R : Type} [Field R] [LinearOrder R] [FloorRing R]

theorem numeralChar_putGeneral (x : R) : ∀ c ∈ putGeneral x, NumeralChar c := by
  rw [putGeneral]
  split
  · intro c hc
    obtain rfl := List.mem_singleton.mp hc
    exact .inl rfl
  · exact numeralChar_append (numeralChar_sign _) (numeralChar_general _ _)

theorem numeralChar_putFixed (decimals : Nat) (x : R) :
    ∀ c ∈ putFixed decimals x, NumeralChar c := by
  rw [putFixed]
  exact numeralChar_append (numeralChar_sign _)
    (numeralChar_layout (allDigits_toDigits _) (allDigits_pad _ _))

theorem putFixed_ne_nil (decimals : Nat) (x : R) : putFixed decimals x ≠ [] := by
  rw [putFixed, fixed]
  exact List.append_ne_nil_of_right_ne_nil _ (layout_ne_nil Nat.toDigits_ne_nil _)

theorem putGeneral_ne_nil (x : R) : putGeneral x ≠ [] := by
  rw [putGeneral]
  split
  · exact List.cons_ne_nil _ _
  · exact List.append_ne_nil_of_right_ne_nil _ (general_ne_nil _ _)

end Field

end HftProject.Decimal
